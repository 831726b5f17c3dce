/-
Math functions.
-/
import GuardedExpr.Library.Arguments
import GuardedExpr.Number.Rounding
import GuardedExpr.Value.Order

namespace GuardedExpr.Library

/-- The magnitude of a number; that of the least integer is a float. -/
def magnitude : Number → Value
  | .int n =>
    match fit64? n.toInt.natAbs with
    | some m => .int m
    | none => .float (-n.toFloat)
  | .float x => .float x.abs

def absolute (a : Arguments) : HostResult := return magnitude (← a.number 0)

/-- The first of the values that none of those behind it is beyond. A value counts as beyond
another if it compares as wanted. -/
def extreme (wanted : Ordering) (best : Value) (rest : List Value) : Value :=
  rest.foldl (fun best v => if v.comparePure best == some wanted then v else best) best

/-- The extreme of the arguments, or of the values of a single table. -/
def extremeOf (wanted : Ordering) (a : Arguments) : HostResult := do
  let candidates ← if a.values.length = 1 then Table.values <$> a.table 0 else pure a.values
  match candidates with
  | [] => a.fail "argument #1 ($value) must contain at least one element"
  | first :: rest => return extreme wanted first rest

def round (a : Arguments) : HostResult := do
  let x ← a.float 0
  let places ← match a.optional? 1 with
    | some _ => a.int 1
    | none => pure 0
  return .float (roundToPlaces x places.toInt)

def floor (a : Arguments) : HostResult := return .float (← a.float 0).floor

def ceiling (a : Arguments) : HostResult := return .float (← a.float 0).ceil

def squareRoot (a : Arguments) : HostResult := return .float (← a.float 0).sqrt

/-- The quotient of two integers, cut toward zero. -/
def integerQuotient (a : Arguments) : HostResult := do
  let dividend ← a.int 0
  let divisor ← a.int 1
  if divisor = 0 then a.fail "division by zero"
  else
    match fit64? (dividend.toInt.tdiv divisor.toInt) with
    | some n => return .int n
    | none => a.fail "division of the minimum integer by -1 overflows"

/-- The math functions. -/
def mathFunctions : List Entry :=
  [entry "abs" 1 1 absolute,
   openEntry "max" 1 (extremeOf .gt),
   openEntry "min" 1 (extremeOf .lt),
   entry "round" 1 2 round,
   entry "floor" 1 1 floor,
   entry "ceil" 1 1 ceiling,
   entry "sqrt" 1 1 squareRoot,
   entry "intdiv" 2 2 integerQuotient]

end GuardedExpr.Library
