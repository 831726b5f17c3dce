/-
The engine — compile a source once, run it against many contexts.

An engine holds the limits and the deny-list. Its failures say whether the source
is no expression, the evaluation failed, or a limit was reached.
-/
import GuardedExpr.Eval.Evaluate
import GuardedExpr.Expr.Parser

namespace GuardedExpr

/-- How deep expressions may nest when they are read and when they are evaluated. -/
structure Limits where
  parsing : Nat
  evaluation : Nat
deriving DecidableEq, Repr

/-- The limits in force unless others are chosen. -/
def Limits.standard : Limits := ⟨128, 1000⟩

/-- Why a source gave no value. -/
inductive Failure where
  | compilation (error : ParseError)
  | runtime (error : EvalError)
  /-- A limit was reached. -/
  | limit (message : String) (diagnostic : Diagnostic)

namespace Failure

def ofParseError (e : ParseError) : Failure :=
  if e.fault.isLimit then .limit e.fault.message e.diagnostic else .compilation e

def ofEvalError (e : EvalError) : Failure :=
  if e.fault.isLimit then .limit e.message e.diagnostic else .runtime e

def message : Failure → String
  | compilation e => "Compilation failed: " ++ e.message
  | runtime e => "Runtime error: " ++ e.message
  | limit message _ => "Resource limit exceeded: " ++ message

def diagnostic : Failure → Diagnostic
  | compilation e => e.diagnostic
  | runtime e => e.diagnostic
  | limit _ diagnostic => diagnostic

end Failure

/-- A source with its tree. -/
structure Compiled where
  source : String
  tree : Expr

structure Engine where
  limits : Limits
  denied : DenyList

namespace Engine

/-- The engine with the limits and the deny-list in force by default. -/
def standard : Engine := ⟨.standard, .standard⟩

def compile (engine : Engine) (source : String) : Except Failure Compiled :=
  match Expr.parse engine.limits.parsing source with
  | .ok tree => .ok ⟨source, tree⟩
  | .error e => .error (.ofParseError e)

/-- Evaluate a compiled source; the failure is the evaluation's own. -/
def evaluate (engine : Engine) (code : Compiled) (context : Context) (host : Host) :
    HostM (Except EvalError Value) :=
  (code.tree.evaluate ⟨context, host, engine.denied⟩ engine.limits.evaluation).run

/-- Run a compiled source. -/
def run (engine : Engine) (code : Compiled) (context : Context) (host : Host) :
    HostM (Except Failure Value) :=
  return (← engine.evaluate code context host).mapError .ofEvalError

/-- Compile and run a source. -/
def runSource (engine : Engine) (source : String) (context : Context) (host : Host) :
    HostM (Except Failure Value) :=
  match engine.compile source with
  | .ok code => engine.run code context host
  | .error failure => pure (.error failure)

end Engine

end GuardedExpr
