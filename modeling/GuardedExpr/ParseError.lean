/-
Parse errors — lexical and grammatical faults.

Reading stops at the first fault. Its cause keeps the text found at the place.
-/
import GuardedExpr.Diagnostic

namespace GuardedExpr

/-- Why a source is no expression. -/
inductive ParseFault where
  /-- No token starts with this character. -/
  | unexpectedCharacter (found : String)
  /-- A string without its closing quote; the opening quote is kept. -/
  | unterminatedString (quote : String)
  | invalidNumber (found : String)
  | unexpectedToken (found expected : String)
  | unexpectedEnd (expected : String)
  /-- More nesting than the limit allows. -/
  | tooDeep (found : String) (limit : Nat)
deriving DecidableEq, Repr

structure ParseError where
  fault : ParseFault
  location : Location
deriving DecidableEq, Repr

namespace ParseFault

/-- The text at the fault; empty at the end of the input. -/
def found : ParseFault → String
  | .unexpectedCharacter found | .unterminatedString found | .invalidNumber found
  | .unexpectedToken found _ | .tooDeep found _ => found
  | .unexpectedEnd _ => ""

def message : ParseFault → String
  | .unexpectedCharacter found => s!"Unexpected character '{found}'"
  | .unterminatedString _ => "Unterminated string literal"
  | .invalidNumber found => s!"Invalid number literal '{found}'"
  | .unexpectedToken found expected => s!"Unexpected '{found}', expected {expected}"
  | .unexpectedEnd expected => s!"Unexpected end of input, expected {expected}"
  | .tooDeep _ limit => s!"Expression nesting depth exceeds maximum of {limit} levels"

def code : ParseFault → String
  | .unexpectedToken .. => "P001"
  | .unexpectedEnd _ => "P002"
  | .invalidNumber _ => "P003"
  | .tooDeep .. => "P004"
  | .unexpectedCharacter _ => "P005"
  | .unterminatedString _ => "P006"

def help : ParseFault → Option String
  | .unexpectedToken .. | .unexpectedCharacter _ => none
  | .unexpectedEnd _ => some "The expression ends too early"
  | .invalidNumber _ => some "Check the number format"
  | .tooDeep .. => some "Reduce nesting or simplify the expression"
  | .unterminatedString _ => some "Add the missing closing quote"

/-- Whether the fault is a limit that was reached, and not a property of the source. -/
def isLimit : ParseFault → Bool
  | .tooDeep .. => true
  | _ => false

end ParseFault

namespace ParseError

/-- The message with the place of the fault. -/
def message (e : ParseError) : String :=
  s!"{e.fault.message} at {e.location.describe}"

def diagnostic (e : ParseError) : Diagnostic :=
  .errorAt e.location e.fault.code e.fault.message e.fault.help

end ParseError

end GuardedExpr
