/-
The host — what an expression can reach outside of itself.

Everything outside is a call with an answer of its own type. A host answers a
call knowing the calls made before it, so it may change its mind, but two hosts
that answer alike cannot be told apart. `HostM` runs the calls and keeps them.
-/
import GuardedExpr.Value.Basic

namespace GuardedExpr

/-- Why a call into the host failed. -/
inductive HostError where
  | arity (name expected : String) (got : Nat)
  | argumentType (name : String) (position : Nat) (expected : String) (got : Kind)
  | failed (message : String)
  /-- The host does not offer this. -/
  | unavailable (what : String)
deriving DecidableEq, Repr

def HostError.message : HostError → String
  | .arity name expected got => s!"{name}() expects {expected} argument(s), {got} given"
  | .argumentType name position expected got =>
    s!"{name}(): argument #{position} must be of type {expected}, {got.name} given"
  | .failed message => message
  | .unavailable what => s!"{what} is not available on this host"

/-- What a call that yields a value answers. -/
abbrev HostResult := Except HostError Value

/-- The calls into the host. -/
inductive Call where
  | hasProperty (object : Handle) (name : String)
  | getProperty (object : Handle) (name : String)
  | hasMethod (object : Handle) (name : String)
  | invokeMethod (object : Handle) (name : String) (args : List Value)
  | classNameOf (object : Handle)
  | isInstanceOf (object : Handle) (cls : String)
  | objectText (object : Handle)
  | hasConstant (cls name : String)
  | constantValue (cls name : String)
  | hasStaticMethod (cls name : String)
  | invokeStaticMethod (cls name : String) (args : List Value)
  | functionExists (name : String)
  | invokeFunction (name : String) (args : List Value)

namespace Call

/-- The type of the answer to a call. -/
@[reducible] def Answer : Call → Type
  | hasProperty .. | hasMethod .. | isInstanceOf .. | hasConstant .. | hasStaticMethod ..
  | functionExists .. => Bool
  | getProperty .. | invokeMethod .. | constantValue .. | invokeStaticMethod ..
  | invokeFunction .. => HostResult
  | classNameOf .. => String
  | objectText .. => Option String

/-- The answer of a host that has nothing: no member, no function, objects without a string and
all of one class. -/
def absentAnswer : (c : Call) → c.Answer
  | hasProperty .. | hasMethod .. | isInstanceOf .. | hasConstant .. | hasStaticMethod ..
  | functionExists .. => false
  | getProperty o name => .error (.unavailable s!"property {o.text}->{name}")
  | invokeMethod o name _ => .error (.unavailable s!"method {o.text}->{name}()")
  | constantValue cls name => .error (.unavailable s!"constant {cls}::{name}")
  | invokeStaticMethod cls name _ => .error (.unavailable s!"method {cls}::{name}()")
  | invokeFunction name _ => .error (.unavailable s!"function {name}()")
  | classNameOf _ => "object"
  | objectText _ => none

end Call

/-- A host answers each call, given the calls before it, the latest first. -/
abbrev Host := (past : List Call) → (c : Call) → c.Answer

/-- The host that has nothing. -/
def Host.absent : Host := fun _ c => c.absentAnswer

/-- Computations that call the host; the state is the calls so far, the latest first. -/
abbrev HostM := StateM (List Call)

/-- Make a call. -/
def Host.ask (host : Host) (c : Call) : HostM c.Answer := fun past => (host past c, c :: past)

end GuardedExpr
