/-
Values as source text.

Scalars and tables are written so that strings and numbers can be told apart; a
float that looks like an integer gets a point. Null, booleans, integers, strings
and tables of these read back as the same value.
-/
import GuardedExpr.Text.Escape
import GuardedExpr.Value.Conversion

namespace GuardedExpr

/-- The text of a float with a point, unless it has one or is no plain number. -/
def floatLiteral (x : Float) : String :=
  let text := floatText x
  if text.toList.all fun c => c.isDigit || c == '-' then text ++ ".0" else text

def Key.literal : Key → String
  | .int n => intText n
  | .str s => Literal.quoteSingle s

namespace Value

mutual

/-- The value written as an expression. -/
def literal : Value → String
  | .null => "null"
  | .bool b => if b then "true" else "false"
  | .int n => intText n
  | .float x => floatLiteral x
  | .str s => Literal.quoteSingle s
  | .table es => "[" ++ ", ".intercalate (entryLiterals es) ++ "]"
  | .object h => "object(" ++ h.text ++ ")"

def entryLiterals : List (Key × Value) → List String
  | [] => []
  | (k, v) :: es => (k.literal ++ " => " ++ v.literal) :: entryLiterals es

end

end Value

end GuardedExpr
