/-
Names and keys — what values stand for where something is looked up.

A name is a bare word of the source, or what an expression in its place gives.
The functions are stated over `eval`, the evaluation of the nodes further in.
-/
import GuardedExpr.Eval.Basic
import GuardedExpr.Expr.Basic

namespace GuardedExpr

namespace Eval

open EvalM

/-- The key that a value stands for. -/
def keyOf (l : Location) : Value → EvalM Key
  | .int n => pure (.int n)
  | .str s => pure (Key.ofString s)
  | v => fail l (.invalidKey v.kind)

/-- The property that an offset into an object names. -/
def offsetName (l : Location) : Value → EvalM String
  | .str s => pure s
  | .int n => pure (intText n)
  | v => fail l (.invalidName .property v.kind)

/-- The object whose member is wanted. -/
def objectOf (l : Location) (member : String) : Value → EvalM Handle
  | .object h => pure h
  | v => fail l (.notAnObject member v.kind)

variable (env : Environment) (eval : Expr → EvalM Value)

/-- A name that has to be a bare word or a string. -/
def stringName (role : NameRole) (name : Expr) : EvalM String :=
  match name.bareName? with
  | some word => pure word
  | none => do
    match ← eval name with
    | .str s => return s
    | v => fail name.location (.invalidName role v.kind)

/-- A class name: a bare name, a string, or the class of an object. Only a bare name loses the
separator at its front. -/
def className (target : Expr) : EvalM String :=
  match target.bareName? with
  | some word => pure (Text.dropOne '\\' word)
  | none => do
    match ← eval target with
    | .str s => return s
    | .object o => env.ask (.classNameOf o)
    | v => fail target.location (.invalidName .cls v.kind)

end Eval

end GuardedExpr
