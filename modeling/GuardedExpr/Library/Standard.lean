/-
The standard library — string, math and array functions without side effects.
-/
import GuardedExpr.Library.Collection
import GuardedExpr.Library.Math
import GuardedExpr.Library.Text

namespace GuardedExpr.Library

/-- All functions of the library. -/
def standard : FunctionTable := .ofList (stringFunctions ++ mathFunctions ++ arrayFunctions)

end GuardedExpr.Library
