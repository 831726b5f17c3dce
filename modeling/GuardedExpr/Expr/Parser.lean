/-
The parser — tokens to expressions, with a limit on nesting.

The grammar has one rule per level of binary operators, from the tightest to the
loosest, over operands with their suffixes. Nesting is limited: a parser is
built from the parsers one level further in, `Inner`, and at the innermost level
every attempt to go further in is a fault. A rule that repeats on the left goes
one level further in with every repetition, so that no tree is higher than the
limit allows.
-/
import GuardedExpr.Expr.Basic
import GuardedExpr.Token.Scanner
import GuardedExpr.Token.Stream

namespace GuardedExpr

/-- Reads from a token stream and leaves what follows, or finds a fault. -/
abbrev Parser (α : Type) := TokenStream → Except ParseError (α × TokenStream)

namespace Parser

@[always_inline, inline]
def andThen {α β : Type} (p : Parser α) (f : α → Parser β) : Parser β := fun s =>
  match p s with
  | .error e => .error e
  | .ok (a, s) => f a s

@[always_inline, inline]
def done {α : Type} (a : α) : Parser α := fun s => .ok (a, s)

@[always_inline, inline]
def fail {α : Type} (e : ParseError) : Parser α := fun _ => .error e

instance : Monad Parser where
  pure := done
  bind := andThen

/-- The current token, which is not consumed. -/
@[inline] def peek : Parser Token := fun s => .ok (s.current, s)

/-- Consume the current token. -/
@[inline] def next : Parser Token := fun s => .ok (s.current, s.advance)

/-- Consume the current token if its kind is one of those given. -/
@[inline] def accept (kinds : List TokenKind) : Parser (Option Token) := fun s =>
  match s.take? kinds with
  | some (t, s) => .ok (some t, s)
  | none => .ok (none, s)

@[inline] def expect (kind : TokenKind) (expected : String) : Parser Token := fun s =>
  s.expect kind expected

/-- The current token is not what is expected. -/
@[inline] def unexpected {α : Type} (expected : String) : Parser α := fun s =>
  .error (s.unexpected expected)

end Parser

open GuardedExpr.Parser

namespace Grammar

/-! ## Levels -/

/-- How a level of binary operators is read. -/
inductive Rule where
  /-- Operators of one level that group to the left. -/
  | left (ops : List TokenKind)
  /-- An operator that groups to the right. -/
  | right (op : TokenKind)
  /-- The conditional, which groups to the right. -/
  | ternary
deriving DecidableEq, Repr

/-- The rules from the tightest to the loosest. -/
def rules : List Rule :=
  [.right .starStar,
   .left [.star, .slash, .percent],
   .left [.plus, .minus],
   .left [.dot],
   .left [.less, .lessEqual, .greater, .greaterEqual],
   .left [.equal, .notEqual, .identical, .notIdentical, .spaceship],
   .left [.andAnd],
   .left [.orOr],
   .right .coalesce,
   .ternary,
   .left [.and],
   .left [.xor],
   .left [.or]]

/-- The parsers one level of nesting further in. -/
structure Inner where
  /-- Rules of the given list, from the loosest on, over unary operands. -/
  level : List Rule → Parser Expr
  assignment : Parser Expr
  /-- The right operand of an operator of a left-grouping rule, given the rules tighter than it,
  and the rest of the chain. -/
  chain : List TokenKind → List Rule → Expr → Token → Parser Expr
  /-- The class of an `instanceof`, and the rest of the chain. -/
  classOperand : Expr → Token → Parser Expr
  /-- One suffix behind an operand, and the rest of them. -/
  suffix : Expr → Parser Expr

/-- Too deep: the limit is reached before the current token. -/
def tooDeep {α : Type} (limit : Nat) : Parser α := fun s =>
  .error ⟨.tooDeep s.current.text limit, s.current.location⟩

/-- Beyond the innermost level. -/
def exhausted (limit : Nat) : Inner where
  level _ := tooDeep limit
  assignment := tooDeep limit
  chain _ _ _ _ := tooDeep limit
  classOperand _ _ := tooDeep limit
  suffix _ := tooDeep limit

variable (inner : Inner)

/-- Any expression, one level further in. -/
def expression : Parser Expr := inner.assignment

/-! ## Lists -/

/-- At most `most` arguments, a comma between them. -/
def argumentItems : (most : Nat) → Parser (List Argument)
  | 0 => pure []
  | most + 1 => do
    let t ← peek
    if t.kind = .rparen then pure []
    else
      let mark ← accept [.ampersand]
      let value ← expression inner
      let arg := Argument.mk mark.isSome value
      match ← accept [.comma] with
      | none => pure [arg]
      | some _ =>
        let rest ← argumentItems most
        pure (arg :: rest)

/-- The arguments behind an opening parenthesis, with the closing one. A list has no more
items than there are tokens left. -/
def arguments : Parser (List Argument) := fun s => (do
  let args ← argumentItems inner (s.ahead.length + 1)
  let _ ← expect .rparen "',' or ')'"
  pure args : Parser (List Argument)) s

/-- At most `most` elements, a comma between them. -/
def elementItems (close : TokenKind) : (most : Nat) → Parser (List Element)
  | 0 => pure []
  | most + 1 => do
    let t ← peek
    if t.kind = close then pure []
    else
      let first ← expression inner
      let element ← match ← accept [.doubleArrow] with
        | some _ => do
          let value ← expression inner
          pure (Element.pair first value)
        | none => pure (Element.item first)
      match ← accept [.comma] with
      | none => pure [element]
      | some _ =>
        let rest ← elementItems close most
        pure (element :: rest)

/-- The elements of an array, with the closing token. -/
def arrayElements (close : TokenKind) (expected : String) : Parser (List Element) := fun s => (do
  let elements ← elementItems inner close (s.ahead.length + 1)
  let _ ← expect close expected
  pure elements : Parser (List Element)) s

/-! ## Strings with embedded expressions -/

/-- The offset behind a variable that is embedded without braces. -/
def embeddedOffset : Parser Expr := do
  let t ← next
  match t.kind with
  | .minus => do
    let digits ← expect .integer "integer"
    pure (.unary t (.literal digits))
  | .integer | .fragment => pure (.literal t)
  | .variable => pure (.variable t)
  | _ => fail ⟨.unexpectedToken t.text "array offset", t.location⟩

/-- A variable embedded without braces, with one offset or one property at most. -/
def embeddedVariable (var : Token) : Parser Expr := do
  match ← accept [.lbracket] with
  | some bracket =>
    let offset ← embeddedOffset
    let _ ← expect .rbracket "']'"
    pure (.access (.variable var) bracket offset)
  | none =>
    match ← accept [.arrow] with
    | some op =>
      let name ← expect .identifier "property name"
      pure (.property (.variable var) op false (.literal name))
    | none => pure (.variable var)

/-- At most `most` parts of a string. -/
def partItems : (most : Nat) → Parser (List Expr)
  | 0 => pure []
  | most + 1 => do
    let t ← peek
    match t.kind with
    | .fragment =>
      let _ ← next
      let rest ← partItems most
      pure (.literal t :: rest)
    | .variable =>
      let _ ← next
      let part ← embeddedVariable t
      let rest ← partItems most
      pure (part :: rest)
    | .lbrace =>
      let _ ← next
      let part ← expression inner
      let _ ← expect .rbrace "'\x7d'"
      let rest ← partItems most
      pure (part :: rest)
    | _ => pure []

/-- The parts behind an opening quote, with the closing one. -/
def interpolation (opening : Token) : Parser Expr := fun s => (do
  let parts ← partItems inner (s.ahead.length + 1)
  let _ ← expect .quote "closing '\"'"
  pure (.interpolation opening parts) : Parser Expr) s

/-! ## Operands -/

/-- A single operand without suffixes. -/
def primary : Parser Expr := do
  let t ← peek
  match t.kind with
  | .integer | .float | .string | .bool | .null =>
    let _ ← next
    pure (.literal t)
  | .variable =>
    let _ ← next
    pure (.variable t)
  | .lparen =>
    let _ ← next
    let e ← expression inner
    let _ ← expect .rparen "')'"
    pure e
  | .quote =>
    let _ ← next
    interpolation inner t
  | .lbracket =>
    let _ ← next
    let elements ← arrayElements inner .rbracket "',' or ']'"
    pure (.array t elements)
  | .array =>
    let _ ← next
    let _ ← expect .lparen "'(' after 'array'"
    let elements ← arrayElements inner .rparen "',' or ')'"
    pure (.array t elements)
  | .identifier =>
    -- A bare name can only be called or name a class.
    let _ ← next
    let follower ← peek
    if follower.kind = .lparen ∨ follower.kind = .doubleColon then pure (.literal t)
    else unexpected ("'(' or '::' after name '" ++ t.text ++ "'")
  | _ => unexpected "expression"

/-- The name behind `->` or `::`: a bare word, or for an instance also a variable or an
expression in braces. -/
def memberName (op : Token) (isStatic : Bool) : Parser Expr := do
  let t ← peek
  if t.kind.isWord then
    let _ ← next
    pure (.literal t)
  else if !isStatic && t.kind == .variable then
    let _ ← next
    pure (.variable t)
  else if !isStatic && t.kind == .lbrace then
    let _ ← next
    let name ← expression inner
    let _ ← expect .rbrace "'\x7d'"
    pure name
  else unexpected ("identifier after '" ++ op.text ++ "'")

/-- A property, or a method call when arguments follow. -/
def member (target : Expr) (op : Token) (isStatic : Bool) : Parser Expr := do
  let name ← memberName inner op isStatic
  match ← accept [.lparen] with
  | some _ =>
    let args ← arguments inner
    pure (.methodCall target op isStatic name args)
  | none => pure (.property target op isStatic name)

/-- The tokens that start a suffix. -/
def suffixStarts : List TokenKind := [.doubleColon, .arrow, .lbracket, .lparen]

/-- More suffixes behind an operand, each one level further in. -/
def moreSuffixes (e : Expr) : Parser Expr := do
  let t ← peek
  if suffixStarts.contains t.kind then inner.suffix e else pure e

/-- One suffix behind an operand, and the rest of them. -/
def suffix (e : Expr) : Parser Expr := do
  let t ← next
  let whole ← match t.kind with
    | .doubleColon => member inner e t true
    | .arrow => member inner e t false
    | .lbracket => do
      let offset ← expression inner
      let _ ← expect .rbracket "']'"
      pure (.access e t offset)
    | _ => do
      let args ← arguments inner
      pure (.call e t args)
  moreSuffixes inner whole

/-- An operand with its suffixes. -/
def operand : Parser Expr := do
  let e ← primary inner
  moreSuffixes inner e

/-- Further `instanceof` tests, each one level further in. -/
def moreInstanceOf (e : Expr) : Parser Expr := do
  match ← accept [.instanceOf] with
  | some op => inner.classOperand e op
  | none => pure e

/-- The class of an `instanceof`, and the rest of the chain. -/
def classOperand (value : Expr) (op : Token) : Parser Expr := do
  let cls ← match ← accept [.identifier] with
    | some name => pure (.literal name)
    | none => operand inner
  moreInstanceOf inner (.instanceOf value op cls)

def instanceOf : Parser Expr := do
  let e ← operand inner
  moreInstanceOf inner e

/-! ## Operators -/

/-- Signs, negations and casts before an operand. -/
def unary : Parser Expr := do
  match ← accept [.minus, .plus, .bang] with
  | some op =>
    let e ← inner.level []
    pure (.unary op e)
  | none =>
    match ← accept [.cast] with
    | some op =>
      match CastType.ofText? op.text with
      | some type =>
        let e ← inner.level []
        pure (.cast op type e)
      | none => fail ⟨.unexpectedToken op.text "cast type", op.location⟩
    | none => instanceOf inner

/-- More operators of a chain, each one level further in. -/
def moreChain (ops : List TokenKind) (tighter : List Rule) (e : Expr) : Parser Expr := do
  match ← accept ops with
  | some op => inner.chain ops tighter e op
  | none => pure e

/-- The rules of a list, the loosest last, over unary operands. -/
def level : List Rule → Parser Expr
  | [] => unary inner
  | .left ops :: tighter => do
    let e ← level tighter
    moreChain inner ops tighter e
  | .right op :: tighter => do
    let e ← level tighter
    match ← accept [op] with
    | some t =>
      let right ← inner.level (.right op :: tighter)
      pure (.binary e t right)
    | none => pure e
  | .ternary :: tighter => do
    let e ← level tighter
    match ← accept [.question] with
    | some t =>
      let yes ← inner.level (.ternary :: tighter)
      let _ ← expect .colon "':'"
      let no ← inner.level (.ternary :: tighter)
      pure (.ternary e t yes no)
    | none => pure e

/-- The right operand of an operator, and the rest of the chain. -/
def chain (ops : List TokenKind) (tighter : List Rule) (left : Expr) (op : Token) : Parser Expr := do
  let right ← level inner tighter
  moreChain inner ops tighter (.binary left op right)

/-- An assignment, or anything that binds tighter. -/
def assignment : Parser Expr := do
  let target ← level inner rules.reverse
  match ← accept [.assign] with
  | some op =>
    let value ← inner.assignment
    pure (.assign target op value)
  | none => pure target

/-- The parsers that have `inner` as the next level of nesting. -/
def around : Inner where
  level := level inner
  assignment := assignment inner
  chain := chain inner
  classOperand := classOperand inner
  suffix := suffix inner

/-- The parsers with `depth` levels of nesting to go, themselves counted. -/
def ofDepth (limit : Nat) : (depth : Nat) → Inner
  | 0 => exhausted limit
  | depth + 1 => around (ofDepth limit depth)

end Grammar

namespace Expr

/-- Read one expression from a token stream, which must hold nothing else. -/
def ofStream (limit : Nat) (s : TokenStream) : Except ParseError Expr :=
  match Grammar.expression (Grammar.ofDepth limit limit) s with
  | .error e => .error e
  | .ok (e, s) => if s.atEnd then .ok e else .error (s.unexpected "end of input")

/-- Read one expression from tokens. -/
def ofTokens (limit : Nat) (ts : List Token) : Except ParseError Expr :=
  ofStream limit (.ofList ts)

/-- Read one expression from its source. -/
def parse (limit : Nat) (source : String) : Except ParseError Expr :=
  match tokenize source with
  | .error e => .error e
  | .ok ts => ofTokens limit ts

end Expr

end GuardedExpr
