/-
Float text — up to fourteen significant digits.

A float converts to the string of its nearest decimal with fourteen significant
digits, a tie going to the even digit, without trailing zeros. From `1.0E+14` on
and below `0.0001` the text is in exponent form.
-/
import GuardedExpr.Number.Binary

namespace GuardedExpr

/-- `digits` are the significant digits of a decimal whose first digit counts
`10 ^ exponent`. -/
structure Significant where
  digits : List Char
  exponent : Int
deriving DecidableEq, Repr

namespace FloatText

/-- How many significant digits a text has at most. -/
def precision : Nat := 14

/-- The largest `e` with `10 ^ e * den ≤ num`. -/
def leadingExponent (num den : Nat) : Int :=
  if den ≤ num then (decimalLength (num / den) : Int) - 1
  else -(decimalLength ((den - 1) / num) : Int)

/-- The quotient with `precision` digits before the decimal point. -/
def scaled (num den : Nat) (e : Int) : Nat :=
  let shift := (precision : Int) - 1 - e
  roundDiv (num * Nat.pow 10 shift.toNat) (den * Nat.pow 10 (-shift).toNat)

/-- The significant digits of a positive quotient, with no zero at the end. -/
def significant (num den : Nat) : Significant :=
  let e := leadingExponent num den
  let n := scaled num den e
  -- Rounding up can reach the next power of ten, which then has one digit more.
  let e := if n = Nat.pow 10 precision then e + 1 else e
  ⟨((Nat.toDigits 10 n).reverse.dropWhile (· == '0')).reverse, e⟩

def zeros (n : Nat) : List Char := List.replicate n '0'

/-- `d.dddE+x`, with at least one digit behind the point. -/
def exponentForm (s : Significant) : List Char :=
  let rest := s.digits.drop 1
  let sign := if s.exponent < 0 then '-' else '+'
  s.digits.take 1 ++ '.' :: (if rest.isEmpty then ['0'] else rest)
    ++ 'E' :: sign :: Nat.toDigits 10 s.exponent.natAbs

/-- Positional notation, with a point only before digits of a fraction. -/
def positionalForm (s : Significant) : List Char :=
  if s.exponent < 0 then
    '0' :: '.' :: zeros (s.exponent.natAbs - 1) ++ s.digits
  else
    let whole := s.exponent.toNat + 1
    if s.digits.length ≤ whole then s.digits ++ zeros (whole - s.digits.length)
    else s.digits.take whole ++ '.' :: s.digits.drop whole

/-- The text of the significant digits. -/
def layout (s : Significant) : List Char :=
  if s.exponent < -4 ∨ (precision : Int) ≤ s.exponent then exponentForm s else positionalForm s

/-- The text of a finite magnitude. -/
def magnitude (d : Dyadic) : List Char :=
  if d.mantissa = 0 then ['0'] else layout (significant d.numerator d.denominator)

end FloatText

/-- The string that a float converts to. -/
def floatText (x : Float) : String :=
  if x.isNaN then "NAN"
  else
    let text := if x.isInf then ['I', 'N', 'F'] else FloatText.magnitude (Dyadic.ofFloat x)
    String.ofList (if isNegative x then '-' :: text else text)

end GuardedExpr
