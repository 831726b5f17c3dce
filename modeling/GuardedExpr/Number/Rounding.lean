/-
Rounding to places — a float at a number of decimal places.

The float is scaled by a power of ten, rounded to an integer with a half going
away from zero, and scaled back.
-/
namespace GuardedExpr

/-- The power of a float by repeated squaring: `acc * base ^ n`, rounded at every product. -/
def squaredPower (acc base : Float) (n : Nat) : Float :=
  let acc := if n % 2 = 1 then acc * base else acc
  if n < 2 then acc else squaredPower acc (base * base) (n / 2)

/-- Ten to the given power; all from the 308th on count as that. -/
def powerOfTen (n : Nat) : Float := squaredPower 1 10 (min n 308)

/-- The float rounded at a number of places behind the point; a negative number counts places
before it. Where scaling leaves the range of floats the float is its own rounding. -/
def roundToPlaces (x : Float) (places : Int) : Float :=
  let factor := powerOfTen places.natAbs
  let rounded := if 0 ≤ places then (x * factor).round / factor else (x / factor).round * factor
  if rounded.isFinite then rounded else x

end GuardedExpr
