/-
Array functions.
-/
import GuardedExpr.Library.Arguments
import GuardedExpr.Value.Order

namespace GuardedExpr.Library

def count (a : Arguments) : HostResult := return .int (Int64.ofNat (← a.table 0).length)

/-- Whether a table holds a value: an equal one, or an identical one if asked for. -/
def inArray (a : Arguments) : HostResult := do
  let needle := a.value 0
  let haystack ← a.table 1
  let strict := ((a.optional? 2).map Value.truthy).getD false
  let same (v : Value) : Bool :=
    if strict then v.identical needle else v.comparePure needle == some .eq
  return .bool (haystack.values.any same)

def arrayKeys (a : Arguments) : HostResult := return .list ((← a.table 0).keys.map Key.toValue)

def arrayValues (a : Arguments) : HostResult := return .list (← a.table 0).values

/-- The array functions. -/
def arrayFunctions : List Entry :=
  [entry "count" 1 1 count,
   entry "in_array" 2 3 inArray,
   entry "array_keys" 1 1 arrayKeys,
   entry "array_values" 1 1 arrayValues]

end GuardedExpr.Library
