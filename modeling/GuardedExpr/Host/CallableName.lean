/-
Names of callables — how a function name is looked up.

Function names are compared without regard to the case of ASCII letters, and a
leading namespace separator does not count. The function table and the deny-list
look names up by the same canonical form, so no spelling reaches a function that
the deny-list does not see.
-/
import GuardedExpr.Text.Ascii

namespace GuardedExpr

/-- The form under which a function is registered, denied and found. -/
def canonicalName (name : String) : String := Text.lower (Text.dropOne '\\' name)

end GuardedExpr
