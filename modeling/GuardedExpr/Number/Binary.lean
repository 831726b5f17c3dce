/-
Binary numbers — a float as an integer times a power of two.

Rounding to decimal digits is done on this form in exact integer arithmetic.
-/
namespace GuardedExpr

/-- The magnitude `mantissa * 2 ^ exponent`. -/
structure Dyadic where
  mantissa : Nat
  exponent : Int
deriving DecidableEq, Repr

namespace Dyadic

/-- The magnitude of a finite float. -/
def ofFloat (x : Float) : Dyadic :=
  let bits := x.toBits.toNat
  let field : Nat := bits / Nat.pow 2 52 % Nat.pow 2 11
  let fraction : Nat := bits % Nat.pow 2 52
  if field = 0 then ⟨fraction, -1074⟩ else ⟨fraction + Nat.pow 2 52, (field : Int) - 1075⟩

def numerator (d : Dyadic) : Nat := d.mantissa * Nat.pow 2 d.exponent.toNat

def denominator (d : Dyadic) : Nat := Nat.pow 2 (-d.exponent).toNat

end Dyadic

/-- Whether the sign bit of a float is set. -/
def isNegative (x : Float) : Bool := Nat.pow 2 63 ≤ x.toBits.toNat

/-- The quotient rounded to the nearest integer, a half to the even neighbour. -/
def roundDiv (num den : Nat) : Nat :=
  let q := num / den
  let twice := 2 * (num % den)
  if twice < den then q
  else if twice = den ∧ q % 2 = 0 then q
  else q + 1

/-- The number of decimal digits; zero has one. -/
def decimalLength (n : Nat) : Nat := (Nat.toDigits 10 n).length

end GuardedExpr
