/-
Members and functions — everything that reaches the host.

The host is asked first whether a member or a function exists; only then are the
arguments evaluated and the call is made. A function on the deny-list is refused
before the host is asked anything. After a failure the host is asked for nothing
but the class of the object, which the error names.
-/
import GuardedExpr.Eval.Name

namespace GuardedExpr

namespace Eval

open EvalM

variable (env : Environment) (eval : Expr → EvalM Value)

/-- The arguments from left to right. None can be passed by reference. -/
def arguments : List Argument → EvalM (List Value)
  | [] => pure []
  | .mk byRef value :: rest =>
    if byRef then fail value.location (.unsupported .argumentByReference)
    else do
      let v ← eval value
      let vs ← arguments rest
      return v :: vs

/-- The value of a property, which has to exist. -/
def readProperty (l : Location) (o : Handle) (name : String) : EvalM Value := do
  if ← env.ask (.hasProperty o name) then
    match ← env.ask (.getProperty o name) with
    | .ok v => return v
    | .error e =>
      let cls ← env.ask (.classNameOf o)
      fail l (.host (.property cls name) e)
  else
    let cls ← env.ask (.classNameOf o)
    fail l (.undefinedProperty name cls)

def property (target : Expr) (op : Token) (name : Expr) : EvalM Value := do
  let v ← eval target
  let member ← stringName eval .member name
  let o ← objectOf op.location member v
  readProperty env op.location o member

def method (target : Expr) (op : Token) (name : Expr) (args : List Argument) : EvalM Value := do
  let v ← eval target
  let member ← stringName eval .member name
  let o ← objectOf op.location member v
  if ← env.ask (.hasMethod o member) then
    let vs ← arguments eval args
    match ← env.ask (.invokeMethod o member vs) with
    | .ok v => return v
    | .error e =>
      let cls ← env.ask (.classNameOf o)
      fail op.location (.host (.method cls member) e)
  else
    let cls ← env.ask (.classNameOf o)
    fail op.location (.undefinedMethod member cls)

/-- A class constant. The constant `class` is the name of the class itself. -/
def constant (target : Expr) (op : Token) (name : Expr) : EvalM Value := do
  let cls ← className env eval target
  let member ← stringName eval .member name
  if Text.sameFolded member "class" then return .str cls
  else if ← env.ask (.hasConstant cls member) then
    orFail op.location (.host (.constant cls member)) (← env.ask (.constantValue cls member))
  else fail op.location (.undefinedConstant member cls)

def staticMethod (target : Expr) (op : Token) (name : Expr) (args : List Argument) :
    EvalM Value := do
  let cls ← className env eval target
  let member ← stringName eval .member name
  if ← env.ask (.hasStaticMethod cls member) then
    let vs ← arguments eval args
    orFail op.location (.host (.staticMethod cls member))
      (← env.ask (.invokeStaticMethod cls member vs))
  else fail op.location (.undefinedStaticMethod member cls)

/-- A function call: the name, the deny-list, the host, the arguments, the call. -/
def call (callee : Expr) (paren : Token) (args : List Argument) : EvalM Value := do
  let name ← stringName eval .function callee
  if env.denied.denies name then fail callee.location (.denied name)
  else if ← env.ask (.functionExists name) then
    let vs ← arguments eval args
    orFail paren.location (.host (.function name)) (← env.ask (.invokeFunction name vs))
  else fail callee.location (.undefinedFunction name)

end Eval

end GuardedExpr
