/-
Arithmetic — sums, products, quotients, remainders and powers of numbers.

On integers the operators are exact: a result that is no 64-bit integer is
computed in floats instead. The remainder is one of integers in any case.
-/
import GuardedExpr.Number.Numeral

namespace GuardedExpr

/-- The arithmetic operators. -/
inductive ArithmeticOp where
  | add | sub | mul | div | mod | pow
deriving DecidableEq, Repr

namespace ArithmeticOp

/-- The largest exponent with which integers are raised to an integer. -/
def maxExponent : Int := 4294967295

/-- The power, if it fits. From the 64th on only the powers of 0, 1 and -1 do, and they depend on
the parity of the exponent alone. -/
def power? (x : Int) (n : Nat) : Option Int64 :=
  if n < 64 then fit64? (x.pow n)
  else if x.natAbs ≤ 1 then fit64? (x.pow (64 + n % 2))
  else none

/-- The exact integer result, if there is one. -/
def onIntegers? (op : ArithmeticOp) (x y : Int) : Option Int64 :=
  match op with
  | add => fit64? (x + y)
  | sub => fit64? (x - y)
  | mul => fit64? (x * y)
  | div => if y ≠ 0 ∧ x.tmod y = 0 then fit64? (x.tdiv y) else none
  | mod => none
  | pow => if 0 ≤ y ∧ y ≤ maxExponent then power? x y.toNat else none

/-- The result in floats. -/
def onFloats (op : ArithmeticOp) (x y : Float) : Float :=
  match op with
  | add => x + y
  | sub => x - y
  | mul => x * y
  | div => x / y
  | mod | pow => x.pow y

/-- The result of an operator on two numbers; nothing when the divisor is zero. -/
def onNumbers (op : ArithmeticOp) (a b : Number) : Option Number :=
  match op with
  | mod => if b.toInt = 0 then none else some (.int (a.toInt % b.toInt))
  | op =>
    if op = div ∧ b.isZero then none
    else
      match a, b with
      | .int x, .int y =>
        match op.onIntegers? x.toInt y.toInt with
        | some n => some (.int n)
        | none => some (.float (op.onFloats x.toFloat y.toFloat))
      | a, b => some (.float (op.onFloats a.toFloat b.toFloat))

end ArithmeticOp

/-- The number with the other sign. -/
def Number.negate : Number → Number
  | .int n =>
    match fit64? (-n.toInt) with
    | some m => .int m
    | none => .float (-n.toFloat)
  | .float x => .float (-x)

end GuardedExpr
