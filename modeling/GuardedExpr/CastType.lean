/-
Cast types — the types that a value can be converted to explicitly.
-/
import GuardedExpr.Text.Ascii
import GuardedExpr.Text.Blank

namespace GuardedExpr

inductive CastType where
  | int | float | string | bool | array
deriving DecidableEq, Repr

namespace CastType

def name : CastType → String
  | .int => "int"
  | .float => "float"
  | .string => "string"
  | .bool => "bool"
  | .array => "array"

/-- The type that a word names, in any case; some types have two names. -/
def ofWord? (word : String) : Option CastType :=
  match Text.lower word with
  | "int" | "integer" => some .int
  | "float" | "double" => some .float
  | "string" => some .string
  | "bool" | "boolean" => some .bool
  | "array" => some .array
  | _ => none

/-- The type between parentheses and blanks. -/
def ofText? (text : String) : Option CastType :=
  let inner := Text.trimRight (· == ')') (Text.trimLeft (· == '(') text.toList)
  ofWord? (Text.trimBlanks (String.ofList inner))

end CastType

end GuardedExpr
