/-
# Places of names — how a node comes by a name, and what it does with it

Five nodes are short of a name: two of a member, one of a function, two of a class.
They go about it in one order: first the value of the object is computed, where there
is one, then the name, and then use is made of it.  `NamePlace` is such a node with
the name left out, `NamePlace.before` and `NamePlace.use` are what the node does around
the name, and `Eval.nameIn` is the name.

A bare word is its own name, but a class drops the separator at its front.  Any other
expression is evaluated, and `NameRole.ofValue` says what its value is as a name.
-/
import GuardedExpr.Proofs.Composition

namespace GuardedExpr

open EvalM

/-! ## Names -/

namespace NameRole

/-- The name that a bare word is: a class does without the separator at its front. -/
def ofBare (role : NameRole) (word : String) : String :=
  if role = .cls then Text.dropOne '\\' word else word

/-- The name that a value is: a string is itself, and as a class an object is that of its class. -/
def ofValue (env : Environment) (l : Location) (role : NameRole) : Value → EvalM String
  | .str s => pure s
  | .object o =>
    if role = .cls then env.ask (.classNameOf o) else fail l (.invalidName role .object)
  | v => fail l (.invalidName role v.kind)

end NameRole

namespace Eval

variable (env : Environment) (eval : Expr → EvalM Value)

/-- The name that an expression gives in a role. -/
def nameIn (role : NameRole) (name : Expr) : EvalM String :=
  if role = .cls then className env eval name else stringName eval role name

variable {env eval}

theorem nameIn_of_bareName {role : NameRole} {name : Expr} {word : String}
    (h : name.bareName? = some word) : nameIn env eval role name = pure (role.ofBare word) := by
  unfold nameIn NameRole.ofBare
  split
  · rw [className, h]
  · rw [stringName, h]

/-- What is no bare word is evaluated. -/
theorem nameIn_of_computed {role : NameRole} {name : Expr} (h : name.bareName? = none) :
    nameIn env eval role name = (do role.ofValue env name.location (← eval name)) := by
  unfold nameIn
  split
  · next hrole =>
      rw [className, h, hrole]
      refine bind_congr fun v => ?_
      cases v <;> rfl
  · next hrole =>
      rw [stringName, h]
      refine bind_congr fun v => ?_
      cases v with
      | object o => exact (if_neg hrole).symm
      | _ => rfl

end Eval

/-! ## Places -/

/-- A node without its name. -/
inductive NamePlace where
  | property (target : Expr) (op : Token)
  | method (target : Expr) (op : Token) (args : List Argument)
  | callee (paren : Token) (args : List Argument)
  | constantOwner (op : Token) (member : Expr)
  | methodOwner (op : Token) (member : Expr) (args : List Argument)

namespace NamePlace

/-- The node with the name put in. -/
def fill (name : Expr) : NamePlace → Expr
  | property target op => .property target op false name
  | method target op args => .methodCall target op false name args
  | callee paren args => .call name paren args
  | constantOwner op member => .property name op true member
  | methodOwner op member args => .methodCall name op true member args

def role : NamePlace → NameRole
  | property .. | method .. => .member
  | callee .. => .function
  | constantOwner .. | methodOwner .. => .cls

section Evaluation

variable (env : Environment) (eval : Expr → EvalM Value)

/-- What is evaluated before the name: the object whose member it is, if there is one. -/
def before : NamePlace → EvalM Value
  | property target _ | method target _ _ => eval target
  | callee .. | constantOwner .. | methodOwner .. => pure .null

/-- What the node does with the name, which stands at the location, when that is the object. -/
def use (l : Location) (object : Value) (name : String) : NamePlace → EvalM Value
  | property _ op => do
    let o ← Eval.objectOf op.location name object
    Eval.request env eval (.property o name) op.location op.location []
  | method _ op args => do
    let o ← Eval.objectOf op.location name object
    Eval.request env eval (.method o name) op.location op.location args
  | callee paren args =>
    if env.denied.denies name then fail l (.denied name)
    else Eval.request env eval (.function name) l paren.location args
  | constantOwner op member => do
    let constant ← Eval.stringName eval .member member
    if Text.sameFolded constant "class" then return .str name
    else Eval.request env eval (.constant name constant) op.location op.location []
  | methodOwner op member args => do
    let method ← Eval.stringName eval .member member
    Eval.request env eval (.staticMethod name method) op.location op.location args

variable {env eval}

/-- **The node in three steps.** -/
theorem node_fill (place : NamePlace) (name : Expr) :
    Eval.node env eval (place.fill name) = (do
      let object ← place.before eval
      let found ← Eval.nameIn env eval place.role name
      place.use env eval name.location object found) := by
  cases place with
  | property target op =>
      refine bind_congr fun v => bind_congr fun member => bind_congr fun o => ?_
      exact Eval.readProperty_eq op.location o member
  | method target op args => exact Eval.method_eq target op name args
  | callee paren args => exact Eval.call_eq name paren args
  | constantOwner op member => exact Eval.constant_eq name op member
  | methodOwner op member args => exact Eval.staticMethod_eq name op member args

end Evaluation

end NamePlace

end GuardedExpr
