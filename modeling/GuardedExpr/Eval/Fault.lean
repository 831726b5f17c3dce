/-
Evaluation errors — what can stop an evaluation.

An error is a cause and the location of the node that failed. The wording of the
messages, the codes and the hints are functions of the cause.
-/
import GuardedExpr.CastType
import GuardedExpr.Diagnostic
import GuardedExpr.Host.Basic
import GuardedExpr.Token.Constant

namespace GuardedExpr

/-- An operand of a binary operator. -/
inductive Side where
  | left | right
deriving DecidableEq, Repr

def Side.name : Side → String
  | .left => "left"
  | .right => "right"

/-- What a computed name is to name. -/
inductive NameRole where
  | property | function | member | cls
deriving DecidableEq, Repr

def NameRole.name : NameRole → String
  | .property => "Property"
  | .function => "Function"
  | .member => "Member"
  | .cls => "Class"

/-- What was called when the host failed. -/
inductive Callee where
  | property (cls name : String)
  | method (cls name : String)
  | constant (cls name : String)
  | staticMethod (cls name : String)
  | function (name : String)
deriving DecidableEq, Repr

def Callee.text : Callee → String
  | .property cls name => s!"{cls}->{name}"
  | .method cls name => s!"{cls}->{name}()"
  | .constant cls name => s!"{cls}::{name}"
  | .staticMethod cls name => s!"{cls}::{name}()"
  | .function name => s!"{name}()"

/-- What can be written, or put into a tree by hand, but not evaluated. -/
inductive Unsupported where
  | assignment
  | argumentByReference
  | unaryOperator
  | binaryOperator
deriving DecidableEq, Repr

def Unsupported.message : Unsupported → String
  | .assignment => "Assignment expressions are not supported"
  | .argumentByReference => "Arguments passed by reference are not supported"
  | .unaryOperator => "unknown unary operator"
  | .binaryOperator => "unknown binary operator"

/-- Why an evaluation stopped. -/
inductive EvalFault where
  /-- The name is kept as it is written, with its sigil. -/
  | undefinedVariable (name : String)
  | unaryOperand (op : String) (kind : Kind)
  | arithmeticOperand (op : String) (side : Side) (kind : Kind)
  | concatOperand (side : Side) (kind : Kind)
  /-- The embedded expression as it renders. -/
  | interpolationPart (part : String) (kind : Kind)
  | divisionByZero (op : String)
  | invalidCast (target : CastType) (kind : Kind)
  | invalidKey (kind : Kind)
  | undefinedOffset (key : Key)
  | notIndexable (kind : Kind)
  | undefinedProperty (name cls : String)
  | undefinedMethod (name cls : String)
  | undefinedConstant (name cls : String)
  | undefinedStaticMethod (name cls : String)
  | notAnObject (member : String) (kind : Kind)
  | invalidName (role : NameRole) (kind : Kind)
  /-- The deny-list holds the function. -/
  | denied (name : String)
  | undefinedFunction (name : String)
  | host (callee : Callee) (error : HostError)
  | constant (fault : ConstantFault)
  | unsupported (what : Unsupported)
  | stackOverflow (limit : Nat)
deriving DecidableEq

structure EvalError where
  fault : EvalFault
  location : Location
deriving DecidableEq

/-- An offset as messages show it: a string stands in quotes. -/
def Key.offsetText : Key → String
  | .int n => intText n
  | .str s => "\"" ++ s ++ "\""

namespace EvalFault

def code : EvalFault → String
  | undefinedVariable _ => "E001"
  | unaryOperand .. => "E002"
  | arithmeticOperand .. => "E003"
  | concatOperand .. => "E004"
  | interpolationPart .. => "E005"
  | divisionByZero _ => "E006"
  | invalidCast .. => "E007"
  | invalidKey _ => "E008"
  | undefinedOffset _ => "E009"
  | notIndexable _ => "E010"
  | undefinedProperty .. => "E011"
  | undefinedMethod .. => "E012"
  | undefinedConstant .. => "E013"
  | undefinedStaticMethod .. => "E014"
  | notAnObject .. => "E015"
  | invalidName .. => "E016"
  | denied _ => "E017"
  | undefinedFunction _ => "E018"
  | host .. => "E019"
  | constant (.escape _) => "E020"
  | constant (.unreadable _) => "E021"
  | unsupported _ => "E022"
  | stackOverflow _ => "E100"

def help : EvalFault → Option String
  | undefinedVariable _ => some "Pass the variable in the evaluation context"
  | arithmeticOperand .. => some "Arithmetic needs numbers or numeric strings"
  | invalidCast .. => some "Only scalars can be cast"
  | invalidKey _ => some "Array keys must be integers or strings"
  | denied _ => some "This function is on the unsafe-function list"
  | stackOverflow _ => some "Reduce nesting or simplify the expression"
  | _ => none

/-- Whether the fault is a limit that was reached, and not a property of the expression. -/
def isLimit : EvalFault → Bool
  | stackOverflow _ => true
  | _ => false

end EvalFault

namespace EvalError

/-- The message. Those about operands name the place of the operator. -/
def message (e : EvalError) : String :=
  match e.fault with
  | .undefinedVariable name => s!"Variable is not defined in the context: {name}"
  | .unaryOperand op kind =>
    s!"Unsupported operand type {kind.name} for unary '{op}' at {e.location.describe}"
  | .arithmeticOperand op side kind =>
    s!"Unsupported {side.name} operand type {kind.name} for '{op}' at {e.location.describe}"
  | .concatOperand side kind =>
    s!"Cannot convert {side.name} operand of type {kind.name} to string for '.' at "
      ++ e.location.describe
  | .interpolationPart part _ => s!"Cannot convert {part} to string"
  | .divisionByZero op => if op = "%" then "Modulo by zero" else "Division by zero"
  | .invalidCast target kind => s!"Cannot cast {kind.name} to {target.name}"
  | .invalidKey kind => s!"Illegal array key type {kind.name}"
  | .undefinedOffset key => s!"Undefined array offset {key.offsetText}"
  | .notIndexable kind => s!"Cannot use a value of type {kind.name} as an array"
  | .undefinedProperty name cls => s!"Property {name} does not exist on object of type {cls}"
  | .undefinedMethod name cls => s!"Method {name} does not exist on object of type {cls}"
  | .undefinedConstant name cls => s!"Constant {name} does not exist in class {cls}"
  | .undefinedStaticMethod name cls => s!"Static method {name} does not exist in class {cls}"
  | .notAnObject member kind => s!"Cannot access member {member} on {kind.name}"
  | .invalidName role kind => s!"{role.name} name must be a string, got {kind.name}"
  | .denied name => s!"Function {name} is not allowed"
  | .undefinedFunction name => s!"Function {name} does not exist"
  | .host _ error => error.message
  | .constant fault => fault.message
  | .unsupported what => what.message
  | .stackOverflow limit =>
    s!"Evaluation stack overflow: depth {limit} exceeds maximum of {limit}"

def diagnostic (e : EvalError) : Diagnostic :=
  .errorAt e.location e.fault.code e.message e.fault.help

end EvalError

end GuardedExpr
