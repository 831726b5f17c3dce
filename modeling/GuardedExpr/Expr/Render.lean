/-
Rendering — an expression written with all its parentheses.

The text shows the shape of the tree: every operator stands in parentheses of its
own. Word operators are written in lower case, casts with the first name of their
type, and every array in brackets.
-/
import GuardedExpr.Expr.Basic

namespace GuardedExpr

namespace Expr

def braced (s : String) : String := "\x7b" ++ s ++ "\x7d"

def memberOperator (isStatic : Bool) : String := if isStatic then "::" else "->"

/-- A member name: a bare word as it is, anything else in braces. -/
def memberText (name : Expr) (rendered : String) : String :=
  name.bareName?.getD (braced rendered)

/-- A part of a string: a fragment as it is, anything else in braces. -/
def partText (part : Expr) (rendered : String) : String :=
  match part.fragment? with
  | some t => t.text
  | none => braced rendered

mutual

/-- The expression with all parentheses. -/
def render : Expr → String
  | .literal t | .variable t => t.text
  | .unary op operand => "(" ++ op.text ++ operand.render ++ ")"
  | .cast _ type operand => "((" ++ type.name ++ ") " ++ operand.render ++ ")"
  | .binary left op right =>
    "(" ++ left.render ++ " " ++ Text.lower op.text ++ " " ++ right.render ++ ")"
  | .ternary condition _ yes no =>
    "(" ++ condition.render ++ " ? " ++ yes.render ++ " : " ++ no.render ++ ")"
  | .assign target _ value => "(" ++ target.render ++ " = " ++ value.render ++ ")"
  | .instanceOf value _ cls => "(" ++ value.render ++ " instanceof " ++ cls.render ++ ")"
  | .access target _ offset => target.render ++ "[" ++ offset.render ++ "]"
  | .array _ elements => "[" ++ ", ".intercalate (renderElements elements) ++ "]"
  | .property target _ isStatic name =>
    target.render ++ memberOperator isStatic ++ memberText name name.render
  | .methodCall target _ isStatic name args =>
    target.render ++ memberOperator isStatic ++ memberText name name.render
      ++ "(" ++ ", ".intercalate (renderArguments args) ++ ")"
  | .call callee _ args =>
    callee.render ++ "(" ++ ", ".intercalate (renderArguments args) ++ ")"
  | .interpolation _ parts => "\"" ++ renderParts parts ++ "\""

def renderElements : List Element → List String
  | [] => []
  | .item value :: rest => value.render :: renderElements rest
  | .pair key value :: rest => (key.render ++ " => " ++ value.render) :: renderElements rest

def renderArguments : List Argument → List String
  | [] => []
  | .mk byRef value :: rest => ((if byRef then "&" else "") ++ value.render) :: renderArguments rest

def renderParts : List Expr → String
  | [] => ""
  | part :: rest => partText part part.render ++ renderParts rest

end

end Expr

end GuardedExpr
