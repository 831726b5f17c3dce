/-
Conversions between kinds of values.

A numeric string acts as its number, null as zero or the empty string, and every
value is true or false.
-/
import GuardedExpr.Number.FloatText
import GuardedExpr.Number.Numeral
import GuardedExpr.Value.Table

namespace GuardedExpr

def Number.toValue : Number → Value
  | .int n => .int n
  | .float x => .float x

namespace Value

/-- Null, false, the zeros, the empty string, the string of one zero and the empty table are
false. -/
def truthy : Value → Bool
  | .null => false
  | .bool b => b
  | .int n => n != 0
  | .float x => x != 0.0
  | .str s => !(s == "" || s == "0")
  | .table es => !es.isEmpty
  | .object _ => true

/-- The number that an arithmetic operand stands for. -/
def toNumber? : Value → Option Number
  | .null => some (.int 0)
  | .bool b => some (.int (if b then 1 else 0))
  | .int n => some (.int n)
  | .float x => some (.float x)
  | .str s => parseNumeric? s
  | .table _ | .object _ => none

/-- The string of a scalar or null. -/
def scalarText? : Value → Option String
  | .null | .bool false => some ""
  | .bool true => some "1"
  | .int n => some (intText n)
  | .float x => some (floatText x)
  | .str s => some s
  | .table _ | .object _ => none

/-- A string converts to a number by the numeral at its start. -/
def castNumber? : Value → Option Number
  | .str s => some (numericHead s)
  | v => v.toNumber?

def toInt? (v : Value) : Option Int64 := v.castNumber?.map Number.toInt

def toFloat? (v : Value) : Option Float := v.castNumber?.map Number.toFloat

/-- Null becomes the empty table; what is no table is wrapped in a list of one. -/
def toTable : Value → Table
  | .table es => es
  | .null => []
  | v => Table.ofValues [v]

/-- The text of any value; tables and objects show what they are only. -/
def display (v : Value) : String :=
  match v with
  | .table _ => "Array"
  | .object h => "Object(" ++ h.text ++ ")"
  | v => v.scalarText?.getD ""

end Value

end GuardedExpr
