/-
Expressions — the trees that the parser builds.

A node keeps the token that introduced it, which says where the node stands in
the source and how its operator was spelt. Parentheses leave no node. A bare name
is a literal of its token; so is a fragment of a string with embedded expressions.
-/
import GuardedExpr.CastType
import GuardedExpr.Token.Basic

namespace GuardedExpr

mutual

/-- An expression. -/
inductive Expr where
  | literal (token : Token)
  | variable (token : Token)
  | unary (op : Token) (operand : Expr)
  | cast (op : Token) (type : CastType) (operand : Expr)
  | binary (left : Expr) (op : Token) (right : Expr)
  | ternary (condition : Expr) (question : Token) (yes no : Expr)
  /-- An assignment is read so that evaluation can refuse it. -/
  | assign (target : Expr) (op : Token) (value : Expr)
  | instanceOf (value : Expr) (op : Token) (cls : Expr)
  | access (target : Expr) (bracket : Token) (offset : Expr)
  | array (opening : Token) (elements : List Element)
  /-- A property of an object, or a constant of a class. -/
  | property (target : Expr) (op : Token) (isStatic : Bool) (name : Expr)
  | methodCall (target : Expr) (op : Token) (isStatic : Bool) (name : Expr) (args : List Argument)
  | call (callee : Expr) (paren : Token) (args : List Argument)
  | interpolation (opening : Token) (parts : List Expr)

/-- An element of an array, with or without its key. -/
inductive Element where
  | item (value : Expr)
  | pair (key value : Expr)

/-- An argument of a call. -/
inductive Argument where
  | mk (byRef : Bool) (value : Expr)

end

namespace Argument

def byRef : Argument → Bool
  | mk byRef _ => byRef

def value : Argument → Expr
  | mk _ value => value

end Argument

namespace Expr

instance : Inhabited Expr := ⟨.literal ⟨.null, "null", .ofPosition .start 0⟩⟩

/-- The token that stands for the node in messages. -/
def token : Expr → Token
  | .literal t | .variable t | .unary t _ | .cast t _ _ | .binary _ t _ | .ternary _ t _ _
  | .assign _ t _ | .instanceOf _ t _ | .access _ t _ | .array t _ | .property _ t _ _
  | .methodCall _ t _ _ _ | .call _ t _ | .interpolation t _ => t

def location (e : Expr) : Location := e.token.location

/-- The name that a bare word spells. -/
def bareName? : Expr → Option String
  | .literal t => if t.kind.isWord then some t.text else none
  | _ => none

/-- The text of a fragment of a string with embedded expressions. -/
def fragment? : Expr → Option Token
  | .literal t => if t.kind = .fragment then some t else none
  | _ => none

end Expr

end GuardedExpr
