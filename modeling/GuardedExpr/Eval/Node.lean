/-
Nodes — the value of one node, given the evaluation of the nodes below it.

Operands are evaluated from left to right. The logical operators, the one for
null and the conditional leave alone what they do not need.
-/
import GuardedExpr.Eval.Member
import GuardedExpr.Eval.Operation
import GuardedExpr.Expr.Render

namespace GuardedExpr

namespace Eval

open EvalM

variable (env : Environment) (eval : Expr → EvalM Value)

def variableValue (t : Token) : EvalM Value :=
  someOrFail t.location (.undefinedVariable t.text) (env.context.get? t.variableName)

def literalValue (t : Token) : EvalM Value := orFail t.location .constant (Constant.ofToken t)

/-- A binary operator. The logical ones and the one for null may leave the right operand alone. -/
def binary (left : Expr) (op : Token) (right : Expr) : EvalM Value :=
  match op.kind with
  | .andAnd | .and => do
    if (← eval left).truthy then return .bool (← eval right).truthy else return .bool false
  | .orOr | .or => do
    if (← eval left).truthy then return .bool true else return .bool (← eval right).truthy
  | .coalesce => do
    let v ← eval left
    if v.isNull then eval right else return v
  | _ => do
    let v ← eval left
    let w ← eval right
    binaryOperation env op v w

def ternary (condition yes no : Expr) : EvalM Value := do
  if (← eval condition).truthy then eval yes else eval no

/-- Only an object can be an instance; for other values the class is not looked at. -/
def instanceOf (value cls : Expr) : EvalM Value := do
  match ← eval value with
  | .object o =>
    let name ← className env eval cls
    return .bool (← env.ask (.isInstanceOf o name))
  | _ => return .bool false

/-- Write the elements into a table, in order. -/
def elements (t : Table) : List Element → EvalM Table
  | [] => pure t
  | .item value :: rest => do
    let v ← eval value
    elements (t.push v) rest
  | .pair key value :: rest => do
    let k ← keyOf key.location (← eval key)
    let v ← eval value
    elements (t.insert k v) rest

/-- The entry of a table, or the property of an object. -/
def access (target : Expr) (bracket : Token) (offset : Expr) : EvalM Value := do
  let container ← eval target
  let position ← eval offset
  match container with
  | .table es =>
    let k ← keyOf offset.location position
    someOrFail bracket.location (.undefinedOffset k) (Table.find? k es)
  | .object o =>
    let name ← offsetName offset.location position
    readProperty env bracket.location o name
  | v => fail bracket.location (.notIndexable v.kind)

/-- The string of one part of an interpolation. -/
def part (e : Expr) : EvalM String := do
  match e.fragment? with
  | some t => return (← literalValue t).scalarText?.getD ""
  | none =>
    let v ← eval e
    match ← env.stringOf? v with
    | some s => return s
    | none => fail e.location (.interpolationPart e.render v.kind)

/-- The strings of all parts of an interpolation, joined. -/
def parts : List Expr → EvalM String
  | [] => pure ""
  | e :: rest => do
    let s ← part env eval e
    let t ← parts rest
    return s ++ t

/-- The value of a node, given the evaluation of the nodes below it. -/
def node : Expr → EvalM Value
  | .literal t => literalValue t
  | .variable t => variableValue env t
  | .unary op operand => do unaryOperation op (← eval operand)
  | .cast op type operand => do castOperation op type (← eval operand)
  | .binary left op right => binary env eval left op right
  | .ternary condition _ yes no => ternary eval condition yes no
  | .assign _ op _ => fail op.location (.unsupported .assignment)
  | .instanceOf value _ cls => instanceOf env eval value cls
  | .access target bracket offset => access env eval target bracket offset
  | .array _ es => return .table (← elements eval [] es)
  | .property target op isStatic name =>
    if isStatic then constant env eval target op name else property env eval target op name
  | .methodCall target op isStatic name args =>
    if isStatic then staticMethod env eval target op name args
    else method env eval target op name args
  | .call callee paren args => call env eval callee paren args
  | .interpolation _ ps => return .str (← parts env eval ps)

end Eval

end GuardedExpr
