/-
Numerals — the decimal numbers that strings can spell.

A numeral is an optional sign, digits with an optional point among them, and an
optional exponent. `Numeral.scan?` takes the longest numeral at the start of a
text, `Numeral.chars` writes it back. Without point and exponent it is an integer
as long as it fits in 64 bits, otherwise the nearest float. Numerals may be long:
a bounded number of digits decides the value, so reading one takes time in
proportion to its length.
-/
import GuardedExpr.Number.Integer
import GuardedExpr.Text.Blank

namespace GuardedExpr

/-- The 64-bit integer nearest to the number's integral part; no number gives zero. -/
def truncate (x : Float) : Int64 := x.toInt64

/-- An integer or a float, as arithmetic takes them. -/
inductive Number where
  | int (n : Int64)
  | float (x : Float)

namespace Number

def toFloat : Number → Float
  | .int n => n.toFloat
  | .float x => x

/-- The integer of a cast: floats are cut toward zero. -/
def toInt : Number → Int64
  | .int n => n
  | .float x => truncate x

/-- Whether the number is a zero of either kind, and no divisor. -/
def isZero : Number → Bool
  | .int n => n == 0
  | .float x => x == 0

end Number

/-- The exponent of a numeral: the letter, the sign if there is one, and the digits. -/
structure Exponent where
  letter : Char
  sign : Option Char
  digits : List Char
deriving DecidableEq, Repr

/-- The parts of a numeral. `fraction` is present when the point is. -/
structure Numeral where
  sign : Option Char
  whole : List Char
  fraction : Option (List Char)
  exponent : Option Exponent
deriving DecidableEq, Repr

namespace Numeral

/-! ## Text -/

def signChars : Option Char → List Char
  | none => []
  | some c => [c]

def exponentChars : Option Exponent → List Char
  | none => []
  | some e => e.letter :: signChars e.sign ++ e.digits

def fractionChars : Option (List Char) → List Char
  | none => []
  | some ds => '.' :: ds

/-- The numeral as it was spelt. -/
def chars (n : Numeral) : List Char :=
  signChars n.sign ++ n.whole ++ fractionChars n.fraction ++ exponentChars n.exponent

/-! ## Reading -/

def isSign (c : Char) : Bool := c == '+' || c == '-'

def scanSign : List Char → Option Char × List Char
  | c :: cs => if isSign c then (some c, cs) else (none, c :: cs)
  | [] => (none, [])

def scanDigits (cs : List Char) : List Char × List Char :=
  (cs.takeWhile Char.isDigit, cs.dropWhile Char.isDigit)

/-- A point with the digits behind it. -/
def scanFraction : List Char → Option (List Char) × List Char
  | '.' :: cs => (some (scanDigits cs).1, (scanDigits cs).2)
  | cs => (none, cs)

/-- An exponent, if the letter is followed by digits with at most a sign between. -/
def scanExponent : List Char → Option Exponent × List Char
  | c :: cs =>
    if c == 'e' || c == 'E' then
      let (sign, afterSign) := scanSign cs
      let (digits, rest) := scanDigits afterSign
      if digits.isEmpty then (none, c :: cs) else (some ⟨c, sign, digits⟩, rest)
    else (none, c :: cs)
  | [] => (none, [])

/-- The longest numeral at the start of the text, and what follows it. -/
def scan? (cs : List Char) : Option (Numeral × List Char) :=
  let (sign, afterSign) := scanSign cs
  let (whole, afterWhole) := scanDigits afterSign
  let (fraction, afterFraction) := scanFraction afterWhole
  if whole.isEmpty && (fraction.getD []).isEmpty then none
  else
    let (exponent, rest) := scanExponent afterFraction
    some (⟨sign, whole, fraction, exponent⟩, rest)

/-! ## Value -/

def isMinus (sign : Option Char) : Bool := sign == some '-'

def isIntegral (n : Numeral) : Bool := n.fraction.isNone && n.exponent.isNone

/-- The digits on both sides of the point, from the first that is not zero. -/
def significant (n : Numeral) : List Char :=
  Text.significant (n.whole ++ n.fraction.getD [])

/-- The power of ten that an exponent names. Its magnitude grows digit by digit until it is at
least 65536; the digits behind that do not count. -/
def exponentValue (e : Exponent) : Int :=
  let magnitude := e.digits.foldl (fun n c => if n < 65536 then Text.withDigit 10 n c else n) 0
  if isMinus e.sign then -(magnitude : Int) else magnitude

/-- The power of ten that the digits, read without the point, are to be multiplied by. -/
def scale (n : Numeral) : Int :=
  let written := (n.exponent.map exponentValue).getD 0
  written - ((n.fraction.getD []).length : Int)

/-- The digits that decide a rounding. Where two neighbouring floats meet, the decimal has fewer
than 800 significant digits; of the digits behind that it counts only whether one is not zero. -/
def decisive (digits : List Char) : List Char :=
  if (digits.drop 800).any (· != '0') then digits.take 800 ++ ['1'] else digits.take 800

/-- The float nearest to `0.d₁d₂… * 10 ^ point`, where the first digit is not zero. Numbers far
outside the range of floats are decided by the place of the point alone. -/
def nearestFloat (digits : List Char) (point : Int) : Float :=
  if digits.isEmpty then 0
  else if 400 < point then 1.0 / 0.0
  else if point < -400 then 0
  else
    let ds := decisive digits
    let e := point - ds.length
    Float.ofScientific (Text.numberIn 10 ds) (decide (e < 0)) e.natAbs

/-- The nearest float, zero keeping its sign. -/
def toFloat (n : Numeral) : Float :=
  let x := nearestFloat n.significant (n.significant.length + n.scale)
  if isMinus n.sign then -x else x

/-- The number spelt: an integer where one is spelt and fits, else a float. -/
def value (n : Numeral) : Number :=
  if n.isIntegral then
    match integerIn? 10 (isMinus n.sign) n.whole with
    | some i => .int i
    | none => .float n.toFloat
  else .float n.toFloat

end Numeral

/-! ## Numeric strings -/

/-- The blanks allowed around a numeric string. -/
def isNumericBlank (c : Char) : Bool :=
  c == ' ' || c == '\t' || c == '\n' || c == '\r' || c == '\x0b' || c == '\x0c'

/-- Read a whole string as a number; blanks may surround it. -/
def parseNumeric? (s : String) : Option Number :=
  match Numeral.scan? (Text.trimBoth isNumericBlank s.toList) with
  | some (n, []) => some n.value
  | _ => none

def isNumeric (s : String) : Bool := (parseNumeric? s).isSome

/-- Read the longest numeral after leading blanks; zero where there is none. -/
def numericHead (s : String) : Number :=
  match Numeral.scan? (Text.trimLeft isNumericBlank s.toList) with
  | some (n, _) => n.value
  | none => .int 0

/-- Read a whole text as a float. Infinity and NaN may be spelt in words. -/
def readFloat? (cs : List Char) : Option Float :=
  let (sign, body) := Numeral.scanSign cs
  let signed (x : Float) := if Numeral.isMinus sign then -x else x
  let word := Text.lower (String.ofList body)
  if word = "inf" ∨ word = "infinity" then some (signed (1.0 / 0.0))
  else if word = "nan" then some (0.0 / 0.0)
  else
    match Numeral.scan? cs with
    | some (n, []) => some n.toFloat
    | _ => none

end GuardedExpr
