/-
Evaluation — the value of an expression, with a limit on nesting.

Nodes take their value from the nodes below them; this module ties the knot and
counts the levels. Where the limit is reached, every node is a stack overflow. So
a statement about all evaluations is one about a single node.
-/
import GuardedExpr.Eval.Node

namespace GuardedExpr

namespace Expr

/-- Evaluate with `depth` of the `limit` levels of nesting left. -/
def evaluateWithin (env : Environment) (limit : Nat) : (depth : Nat) → Expr → EvalM Value
  | 0, e => EvalM.fail e.location (.stackOverflow limit)
  | depth + 1, e => Eval.node env (evaluateWithin env limit depth) e

/-- Evaluate an expression. -/
def evaluate (env : Environment) (limit : Nat) (e : Expr) : EvalM Value :=
  e.evaluateWithin env limit limit

end Expr

end GuardedExpr
