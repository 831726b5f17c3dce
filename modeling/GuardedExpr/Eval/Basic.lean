/-
Evaluation steps — computations that call the host and can fail.

A failure ends the evaluation; the calls made up to it stay on record.
-/
import GuardedExpr.Context
import GuardedExpr.DenyList
import GuardedExpr.Eval.Fault
import GuardedExpr.Value.Conversion

namespace GuardedExpr

/-- What an evaluation reads: variables, the host, and the functions that are denied. -/
structure Environment where
  context : Context
  host : Host
  denied : DenyList

/-- Computations that call the host and end in a value or an error. -/
abbrev EvalM := ExceptT EvalError HostM

namespace EvalM

/-- Stop with a fault at a location. -/
def fail {α : Type} (l : Location) (fault : EvalFault) : EvalM α := throw ⟨fault, l⟩

/-- The value of a result, whose failure is a fault at a location. -/
def orFail {ε α : Type} (l : Location) (fault : ε → EvalFault) : Except ε α → EvalM α
  | .ok a => pure a
  | .error e => fail l (fault e)

/-- The value that is there, or a fault at a location. -/
def someOrFail {α : Type} (l : Location) (fault : EvalFault) : Option α → EvalM α
  | some a => pure a
  | none => fail l fault

end EvalM

namespace Environment

/-- Ask the host. -/
def ask (env : Environment) (c : Call) : EvalM c.Answer := (env.host.ask c : HostM c.Answer)

/-- The string that an object converts to, if it has one. -/
def objectText (env : Environment) (h : Handle) : EvalM (Option String) := env.ask (.objectText h)

/-- The string that a value converts to: of a scalar its own, of an object the one that the host
gives. -/
def stringOf? (env : Environment) : Value → EvalM (Option String)
  | .object h => env.objectText h
  | v => pure v.scalarText?

end Environment

end GuardedExpr
