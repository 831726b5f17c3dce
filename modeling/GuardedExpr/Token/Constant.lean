/-
Constants — the values that tokens spell.

Integers are decimal, or in base 16, 2 or 8 behind a mark or a leading zero, and
may have underscores between their digits. One that is too large is a float.
-/
import GuardedExpr.Number.Numeral
import GuardedExpr.Text.Escape
import GuardedExpr.Token.Basic
import GuardedExpr.Value.Basic

namespace GuardedExpr

/-- Why a token spells no value. -/
inductive ConstantFault where
  /-- No number, or a string without its quotes. -/
  | unreadable (text : String)
  | escape (error : EscapeError)
deriving DecidableEq, Repr

def ConstantFault.message : ConstantFault → String
  | unreadable text => "Invalid numeric literal " ++ text
  | escape error => error.message

namespace Constant

/-- The characters without the underscores between them. -/
def withoutSeparators (s : String) : List Char := s.toList.filter (· != '_')

/-- The base of an integer literal in lower case, and what is left to read in that base. -/
def splitBase : List Char → Nat × List Char
  | '0' :: 'x' :: digits => (16, digits)
  | '0' :: 'b' :: digits => (2, digits)
  | '0' :: 'o' :: digits => (8, digits)
  | ['0'] => (10, ['0'])
  | '0' :: digits => (8, digits)
  | digits => (10, digits)

/-- What the digits of an integer literal give. -/
inductive IntegerReading where
  | fits (n : Int64)
  | tooLarge
  | invalid
deriving DecidableEq

/-- Read an integer with an optional sign. A number is too large by its leading digits, whatever
follows them; one that is too small is not readable. -/
def readInteger (base : Nat) (body : List Char) : IntegerReading :=
  let (sign, digits) := Numeral.scanSign body
  let spelt := digits.takeWhile (Text.isDigitIn base)
  if digits.isEmpty then .invalid
  else
    match integerIn? base (Numeral.isMinus sign) spelt with
    | none => if Numeral.isMinus sign then .invalid else .tooLarge
    | some n => if spelt.length = digits.length then .fits n else .invalid

/-- The float that the digits spell, rounded at every digit. -/
def floatInBase? (base : Nat) (digits : List Char) : Option Float :=
  digits.foldlM (fun x c => (Text.digitIn? base c).map fun d => x * base.toFloat + d.toFloat) 0

/-- The float that a literal spells. -/
def readFloat (cs : List Char) : Except ConstantFault Value :=
  match readFloat? cs with
  | some x => .ok (.float x)
  | none => .error (.unreadable (String.ofList cs))

def ofInteger (text : String) : Except ConstantFault Value :=
  let (base, body) := splitBase ((withoutSeparators text).map Char.toLower)
  match readInteger base body with
  | .fits n => .ok (.int n)
  | .invalid => .error (.unreadable text)
  | .tooLarge =>
    if base = 10 then readFloat body
    else
      match floatInBase? base body with
      | some x => .ok (.float x)
      | none => .error (.unreadable text)

def ofFloat (text : String) : Except ConstantFault Value :=
  match readFloat? (withoutSeparators text) with
  | some x => .ok (.float x)
  | none => .error (.unreadable text)

/-- What stands between two quotes of one kind. -/
def betweenQuotes? (quote : Char) : List Char → Option String
  | c :: rest =>
    if c = quote ∧ rest.getLast? = some quote then some (String.ofList rest.dropLast) else none
  | [] => none

/-- The string meant by text in which double-quote escapes count. -/
def ofEscaped (text : String) : Except ConstantFault Value :=
  match Literal.unescapeDouble text with
  | .ok s => .ok (.str s)
  | .error e => .error (.escape e)

def ofQuoted (text : String) : Except ConstantFault Value :=
  match betweenQuotes? '\'' text.toList with
  | some inner => .ok (.str (Literal.unescapeSingle inner))
  | none =>
    match betweenQuotes? '"' text.toList with
    | some inner => ofEscaped inner
    | none => .error (.unreadable text)

/-- The value that a token spells. A name stands for its own text. -/
def ofToken (t : Token) : Except ConstantFault Value :=
  match t.kind with
  | .integer => ofInteger t.text
  | .float => ofFloat t.text
  | .string => ofQuoted t.text
  | .fragment => ofEscaped t.text
  | .bool => .ok (.bool (Text.sameFolded t.text "true"))
  | .null => .ok .null
  | _ => .ok (.str t.text)

end Constant

end GuardedExpr
