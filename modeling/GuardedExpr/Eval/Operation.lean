/-
Operators — on values that are already there.

The operators that may leave their right operand alone are not here but with the
evaluation of expressions.
-/
import GuardedExpr.Eval.Basic
import GuardedExpr.Expr.Basic
import GuardedExpr.Number.Arithmetic
import GuardedExpr.Value.Order

namespace GuardedExpr

/-- The arithmetic operator that a kind of token spells. -/
def TokenKind.arithmetic? : TokenKind → Option ArithmeticOp
  | .plus => some .add
  | .minus => some .sub
  | .star => some .mul
  | .slash => some .div
  | .percent => some .mod
  | .starStar => some .pow
  | _ => none

namespace Eval

open EvalM

/-- The number that an operand of an arithmetic operator stands for. -/
def numberOperand (op : Token) (side : Side) (v : Value) : EvalM Number :=
  someOrFail op.location (.arithmeticOperand op.text side v.kind) v.toNumber?

def arithmetic (arith : ArithmeticOp) (op : Token) (left right : Value) : EvalM Value := do
  let a ← numberOperand op .left left
  let b ← numberOperand op .right right
  let n ← someOrFail op.location (.divisionByZero op.text) (arith.onNumbers a b)
  return n.toValue

/-! ## Other operators -/

variable (env : Environment)

/-- The string of an operand of a concatenation. -/
def textOperand (op : Token) (side : Side) (v : Value) : EvalM String := do
  someOrFail op.location (.concatOperand side v.kind) (← env.stringOf? v)

def concat (op : Token) (left right : Value) : EvalM Value := do
  let s ← textOperand env op .left left
  let t ← textOperand env op .right right
  return .str (s ++ t)

/-- Whether the order of two values is one of those given; incomparable values have none. -/
def ordered (orders : List Ordering) (left right : Value) : EvalM Value := do
  match ← left.compare env.objectText right with
  | some o => return .bool (orders.contains o)
  | none => return .bool false

/-- The order of two values as a number; incomparable values count as greater. -/
def spaceship (left right : Value) : EvalM Value := do
  match ← left.compare env.objectText right with
  | some .lt => return .int (-1)
  | some .eq => return .int 0
  | some .gt | none => return .int 1

/-- A binary operator that takes both operands in any case. -/
def binaryOperation (op : Token) (left right : Value) : EvalM Value :=
  match op.kind with
  | .dot => concat env op left right
  | .xor => pure (.bool (left.truthy != right.truthy))
  | .equal => return .bool (← left.looseEquals env.objectText right)
  | .notEqual => return .bool (!(← left.looseEquals env.objectText right))
  | .identical => pure (.bool (left.identical right))
  | .notIdentical => pure (.bool (!left.identical right))
  | .less => ordered env [.lt] left right
  | .lessEqual => ordered env [.lt, .eq] left right
  | .greater => ordered env [.gt] left right
  | .greaterEqual => ordered env [.gt, .eq] left right
  | .spaceship => spaceship env left right
  | kind =>
    match kind.arithmetic? with
    | some arith => arithmetic arith op left right
    | none => fail op.location (.unsupported .binaryOperator)

/-- A sign or a negation. -/
def unaryOperation (op : Token) (v : Value) : EvalM Value :=
  if op.kind = .bang then pure (.bool (!v.truthy))
  else do
    let n ← someOrFail op.location (.unaryOperand op.text v.kind) v.toNumber?
    match op.kind with
    | .plus => pure n.toValue
    | .minus => pure n.negate.toValue
    | _ => fail op.location (.unsupported .unaryOperator)

/-- A cast. Every value can become a table, other types take scalars only. -/
def castOperation (op : Token) (type : CastType) (v : Value) : EvalM Value :=
  match type with
  | .array => pure (.table v.toTable)
  | type =>
    if !v.isScalar then fail op.location (.invalidCast type v.kind)
    else
      match type with
      | .int => pure (.int (v.toInt?.getD 0))
      | .float => pure (.float (v.toFloat?.getD 0))
      | .string => pure (.str (v.scalarText?.getD ""))
      | .bool => pure (.bool v.truthy)
      | .array => pure (.table v.toTable)

end Eval

end GuardedExpr
