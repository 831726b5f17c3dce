/-
Diagnostics — what is reported about a failure.
-/
import GuardedExpr.Text.Location

namespace GuardedExpr

inductive Severity where
  | error | warning | info
deriving DecidableEq, Repr

def Severity.name : Severity → String
  | .error => "error"
  | .warning => "warning"
  | .info => "info"

/-- A failure as it is shown to a reader of the source: what happened, between which byte
offsets, under which code, and what may help. -/
structure Diagnostic where
  severity : Severity
  message : String
  first : Nat
  stop : Nat
  help : Option String
  code : String
deriving DecidableEq, Repr

/-- A diagnostic of an error at a location. -/
def Diagnostic.errorAt (l : Location) (code message : String) (help : Option String) :
    Diagnostic :=
  ⟨.error, message, l.offset, l.stop, help, code⟩

end GuardedExpr
