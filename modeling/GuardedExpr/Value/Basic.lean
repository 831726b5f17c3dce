/-
Values — what expressions evaluate to.

A value is dynamically typed. A table is an ordered map, kept as the list of its
entries in the order in which their keys were first written; the operations in
`Value.Table` keep the keys distinct. Objects belong to the host and are known by
their handles only.
-/
import GuardedExpr.Number.Integer

namespace GuardedExpr

/-- A host object, known by its number only. -/
structure Handle where
  id : UInt64
deriving DecidableEq, Repr

def Handle.text (h : Handle) : String := "#" ++ toString h.id.toNat

/-- A table key is an integer or a string. -/
inductive Key where
  | int (n : Int64)
  | str (s : String)
deriving DecidableEq

/-- The result of an evaluation. -/
inductive Value where
  | null
  | bool (b : Bool)
  | int (n : Int64)
  | float (x : Float)
  | str (s : String)
  | table (entries : List (Key × Value))
  | object (handle : Handle)

/-- The kinds of values, as error messages name them. -/
inductive Kind where
  | null | bool | int | float | string | array | object
deriving DecidableEq, Repr

def Kind.name : Kind → String
  | .null => "null"
  | .bool => "bool"
  | .int => "int"
  | .float => "float"
  | .string => "string"
  | .array => "array"
  | .object => "object"

namespace Key

/-- A string key that is the decimal text of a 64-bit integer is that integer. -/
def ofString (s : String) : Key :=
  match readInt? s.toList with
  | some n => .int n
  | none => .str s

def text : Key → String
  | .int n => intText n
  | .str s => s

/-- The key as a value. -/
def toValue : Key → Value
  | .int n => .int n
  | .str s => .str s

end Key

namespace Value

instance : Inhabited Value := ⟨.null⟩

def kind : Value → Kind
  | .null => .null
  | .bool _ => .bool
  | .int _ => .int
  | .float _ => .float
  | .str _ => .string
  | .table _ => .array
  | .object _ => .object

def isNull : Value → Bool
  | .null => true
  | _ => false

/-- Null is no scalar. -/
def isScalar : Value → Bool
  | .bool _ | .int _ | .float _ | .str _ => true
  | _ => false

/-! ## Views of one kind -/

def asBool? : Value → Option Bool
  | .bool b => some b
  | _ => none

def asInt? : Value → Option Int64
  | .int n => some n
  | _ => none

def asFloat? : Value → Option Float
  | .float x => some x
  | _ => none

def asString? : Value → Option String
  | .str s => some s
  | _ => none

def asTable? : Value → Option (List (Key × Value))
  | .table es => some es
  | _ => none

def asObject? : Value → Option Handle
  | .object h => some h
  | _ => none

/-! ## Identity -/

mutual

/-- The same kind and the same value. Floats are compared as numbers, so NaN is not identical
to itself; tables are compared entry by entry in order. -/
def identical : Value → Value → Bool
  | .null, .null => true
  | .bool a, .bool b => a == b
  | .int a, .int b => a == b
  | .float a, .float b => a == b
  | .str a, .str b => a == b
  | .table a, .table b => identicalEntries a b
  | .object a, .object b => a == b
  | _, _ => false

def identicalEntries : List (Key × Value) → List (Key × Value) → Bool
  | [], [] => true
  | (j, v) :: es, (k, w) :: fs => j == k && identical v w && identicalEntries es fs
  | _, _ => false

end

end Value

end GuardedExpr
