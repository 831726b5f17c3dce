/-
# Counting — the parser with a cursor and a counter

The grammar knows the levels of nesting that are left, and a list of items has a bound
from the start.  Here the same rules are run by a machine that has neither: its state is
the cursor and the number of levels that are open, every attempt to open one more is
checked against the limit, and a loop goes on as long as its tokens do.  The counter is
changed in three ways.  `nested` takes back what it has counted, `leftNested` goes back
to where the counter stood, and a loop that wraps one node around another counts and
leaves it to `leftNested` to go back.

Nothing says in advance that such a run ends, so it is given a number of calls and has
no outcome where these do not suffice (`execute`).  The states that a run goes through
are kept in its trail, also when it ends in an error.  `Routine.parser` says which parser
of the grammar a routine stands for.
-/
import GuardedExpr.Expr.Parser

namespace GuardedExpr

open Grammar

/-! ## States -/

/-- The cursor, and the number of levels that are open. -/
structure ParserState where
  stream : TokenStream
  depth : Nat

/-- A run as far as it has come: its state, and the states before it, the last one first. -/
structure Trail where
  now : ParserState
  past : List ParserState

namespace Trail

/-- Before the first token, with no level open. -/
def start (ts : List Token) : Trail := ⟨⟨.ofList ts, 0⟩, []⟩

/-- All states, the last one first. -/
def states (tr : Trail) : List ParserState := tr.now :: tr.past

def stream (tr : Trail) : TokenStream := tr.now.stream

def depth (tr : Trail) : Nat := tr.now.depth

/-- The current token is passed. -/
def pass (tr : Trail) : Trail := ⟨⟨tr.stream.advance, tr.depth⟩, tr.states⟩

/-- The counter is set. -/
def count (tr : Trail) (depth : Nat) : Trail := ⟨⟨tr.stream, depth⟩, tr.states⟩

end Trail

/-- Goes on with a run, to a result or an error; without calls enough there is no outcome. -/
abbrev Counting (α : Type) := Trail → Option (Except ParseError α × Trail)

namespace Counting

def andThen {α β : Type} (p : Counting α) (f : α → Counting β) : Counting β := fun tr =>
  match p tr with
  | none => none
  | some (.error e, tr) => some (.error e, tr)
  | some (.ok a, tr) => f a tr

def done {α : Type} (a : α) : Counting α := fun tr => some (.ok a, tr)

instance : Monad Counting where
  pure := done
  bind := andThen

def fail {α : Type} (e : ParseError) : Counting α := fun tr => some (.error e, tr)

/-- The current token is not what is expected. -/
def unexpected {α : Type} (expected : String) : Counting α := fun tr =>
  some (.error (tr.stream.unexpected expected), tr)

def peek : Counting Token := fun tr => some (.ok tr.stream.current, tr)

def next : Counting Token := fun tr => some (.ok tr.stream.current, tr.pass)

/-- Pass the current token if its kind is one of those given. -/
def accept (kinds : List TokenKind) : Counting (Option Token) := do
  let t ← peek
  if kinds.contains t.kind then
    let t ← next
    pure (some t)
  else pure none

def expect (kind : TokenKind) (expected : String) : Counting Token := do
  let t ← peek
  if t.kind == kind then next else unexpected expected

/-! ## The counter -/

/-- One more level, if the limit is not reached. -/
def descend (limit : Nat) : Counting Unit := fun tr =>
  if tr.depth < limit then some (.ok (), tr.count (tr.depth + 1))
  else some (.error ⟨.tooDeep tr.stream.current.text limit, tr.stream.current.location⟩, tr)

/-- At the end, whatever it is, one level less. -/
def ascending {α : Type} (p : Counting α) : Counting α := fun tr =>
  (p tr).map fun (out, tr') => (out, tr'.count (tr'.depth - 1))

/-- One level further in. -/
def nested {α : Type} (limit : Nat) (p : Counting α) : Counting α := do
  descend limit
  ascending p

/-- At the end, whatever it is, the counter goes back to where it stood. -/
def leftNested {α : Type} (p : Counting α) : Counting α := fun tr =>
  (p tr).map fun (out, tr') => (out, tr'.count tr.depth)

/-! ## Variables in strings -/

def embeddedOffset : Counting Expr := do
  let t ← next
  match t.kind with
  | .minus => do
    let digits ← expect .integer "integer"
    pure (.unary t (.literal digits))
  | .integer | .fragment => pure (.literal t)
  | .variable => pure (.variable t)
  | _ => fail ⟨.unexpectedToken t.text "array offset", t.location⟩

def embeddedVariable (var : Token) : Counting Expr := do
  match ← accept [.lbracket] with
  | some bracket =>
    let offset ← embeddedOffset
    let _ ← expect .rbracket "']'"
    pure (.access (.variable var) bracket offset)
  | none =>
    match ← accept [.arrow] with
    | some op =>
      let name ← expect .identifier "property name"
      pure (.property (.variable var) op false (.literal name))
    | none => pure (.variable var)

end Counting

/-! ## Routines -/

/-- Whether a routine leaves the counter where it stood, or higher. -/
inductive Scope where
  | kept | raised
deriving DecidableEq

/-- The functions of the parser, and their loops as functions that call themselves. -/
inductive Routine : Scope → Type → Type where
  | nested (r : Routine .kept Expr) : Routine .kept Expr
  | leftNested (r : Routine .raised Expr) : Routine .kept Expr
  /-- A whole input. -/
  | source : Routine .kept Expr
  | assignment : Routine .kept Expr
  /-- The rules of a list, the loosest one first, over unary operands. -/
  | level (rs : List Rule) : Routine .kept Expr
  | chain (ops : List TokenKind) (tighter : List Rule) : Routine .raised Expr
  | moreChain (ops : List TokenKind) (tighter : List Rule) (left : Expr) : Routine .raised Expr
  | instanceOf : Routine .raised Expr
  | moreInstanceOf (value : Expr) : Routine .raised Expr
  /-- An operand with its suffixes. -/
  | operand : Routine .raised Expr
  | moreSuffixes (e : Expr) : Routine .raised Expr
  | primary : Routine .kept Expr
  | memberName (op : Token) (isStatic : Bool) : Routine .kept Expr
  | member (target : Expr) (op : Token) (isStatic : Bool) : Routine .kept Expr
  | arguments : Routine .kept (List Argument)
  | argumentItems : Routine .kept (List Argument)
  | arrayElements (close : TokenKind) (expected : String) : Routine .kept (List Element)
  | elementItems (close : TokenKind) : Routine .kept (List Element)
  | interpolation (opening : Token) : Routine .kept Expr
  | partItems : Routine .kept (List Expr)

namespace Routine

open Counting

/-- Any expression. -/
def expression : Routine .kept Expr := .nested .assignment

/-- Signs, negations and casts before an operand. -/
def unary : Routine .kept Expr := .level []

/-- What a routine does, given what the routines that it calls do. -/
def body (limit : Nat) (call : ∀ {σ : Scope} {α : Type}, Routine σ α → Counting α) :
    {σ : Scope} → {α : Type} → Routine σ α → Counting α
  | _, _, .nested r => Counting.nested limit (call r)
  | _, _, .leftNested r => Counting.leftNested (call r)
  | _, _, .source => do
    let e ← call expression
    let t ← peek
    if t.kind = .eof then pure e else unexpected "end of input"
  | _, _, .assignment => do
    let target ← call (.level rules.reverse)
    match ← accept [.assign] with
    | some op =>
      let value ← call (.nested .assignment)
      pure (.assign target op value)
    | none => pure target
  | _, _, .level [] => do
    match ← accept [.minus, .plus, .bang] with
    | some op =>
      let e ← call (.nested unary)
      pure (.unary op e)
    | none =>
      match ← accept [.cast] with
      | some op =>
        match CastType.ofText? op.text with
        | some type =>
          let e ← call (.nested unary)
          pure (.cast op type e)
        | none => fail ⟨.unexpectedToken op.text "cast type", op.location⟩
      | none => call (.leftNested .instanceOf)
  | _, _, .level (.left ops :: tighter) => call (.leftNested (.chain ops tighter))
  | _, _, .level (.right op :: tighter) => do
    let e ← call (.level tighter)
    match ← accept [op] with
    | some t =>
      let right ← call (.nested (.level (.right op :: tighter)))
      pure (.binary e t right)
    | none => pure e
  | _, _, .level (.ternary :: tighter) => do
    let e ← call (.level tighter)
    match ← accept [.question] with
    | some t =>
      let yes ← call (.nested (.level (.ternary :: tighter)))
      let _ ← expect .colon "':'"
      let no ← call (.nested (.level (.ternary :: tighter)))
      pure (.ternary e t yes no)
    | none => pure e
  | _, _, .chain ops tighter => do
    let e ← call (.level tighter)
    call (.moreChain ops tighter e)
  | _, _, .moreChain ops tighter left => do
    match ← accept ops with
    | some op =>
      descend limit
      let right ← call (.level tighter)
      call (.moreChain ops tighter (.binary left op right))
    | none => pure left
  | _, _, .instanceOf => do
    let e ← call (.leftNested .operand)
    call (.moreInstanceOf e)
  | _, _, .moreInstanceOf value => do
    match ← accept [.instanceOf] with
    | some op =>
      descend limit
      let cls ← match ← accept [.identifier] with
        | some name => pure (.literal name)
        | none => call (.leftNested .operand)
      call (.moreInstanceOf (.instanceOf value op cls))
    | none => pure value
  | _, _, .operand => do
    let e ← call .primary
    call (.moreSuffixes e)
  | _, _, .moreSuffixes e => do
    let t ← peek
    if suffixStarts.contains t.kind then
      descend limit
      let t ← next
      let whole ← match t.kind with
        | .doubleColon => call (.member e t true)
        | .arrow => call (.member e t false)
        | .lbracket => do
          let offset ← call expression
          let _ ← expect .rbracket "']'"
          pure (.access e t offset)
        | _ => do
          let args ← call .arguments
          pure (.call e t args)
      call (.moreSuffixes whole)
    else pure e
  | _, _, .primary => do
    let t ← peek
    match t.kind with
    | .integer | .float | .string | .bool | .null =>
      let _ ← next
      pure (.literal t)
    | .variable =>
      let _ ← next
      pure (.variable t)
    | .lparen =>
      let _ ← next
      let e ← call expression
      let _ ← expect .rparen "')'"
      pure e
    | .quote =>
      let _ ← next
      call (.interpolation t)
    | .lbracket =>
      let _ ← next
      let elements ← call (.arrayElements .rbracket "',' or ']'")
      pure (.array t elements)
    | .array =>
      let _ ← next
      let _ ← expect .lparen "'(' after 'array'"
      let elements ← call (.arrayElements .rparen "',' or ')'")
      pure (.array t elements)
    | .identifier =>
      let _ ← next
      let follower ← peek
      if follower.kind = .lparen ∨ follower.kind = .doubleColon then pure (.literal t)
      else unexpected ("'(' or '::' after name '" ++ t.text ++ "'")
    | _ => unexpected "expression"
  | _, _, .memberName op isStatic => do
    let t ← peek
    if t.kind.isWord then
      let _ ← next
      pure (.literal t)
    else if !isStatic && t.kind == .variable then
      let _ ← next
      pure (.variable t)
    else if !isStatic && t.kind == .lbrace then
      let _ ← next
      let name ← call expression
      let _ ← expect .rbrace "'\x7d'"
      pure name
    else unexpected ("identifier after '" ++ op.text ++ "'")
  | _, _, .member target op isStatic => do
    let name ← call (.memberName op isStatic)
    match ← accept [.lparen] with
    | some _ =>
      let args ← call .arguments
      pure (.methodCall target op isStatic name args)
    | none => pure (.property target op isStatic name)
  | _, _, .arguments => do
    let args ← call .argumentItems
    let _ ← expect .rparen "',' or ')'"
    pure args
  | _, _, .argumentItems => do
    let t ← peek
    if t.kind = .rparen then pure []
    else
      let mark ← accept [.ampersand]
      let value ← call expression
      let arg := Argument.mk mark.isSome value
      match ← accept [.comma] with
      | none => pure [arg]
      | some _ =>
        let rest ← call .argumentItems
        pure (arg :: rest)
  | _, _, .arrayElements close expected => do
    let elements ← call (.elementItems close)
    let _ ← expect close expected
    pure elements
  | _, _, .elementItems close => do
    let t ← peek
    if t.kind = close then pure []
    else
      let first ← call expression
      let element ← match ← accept [.doubleArrow] with
        | some _ => do
          let value ← call expression
          pure (Element.pair first value)
        | none => pure (Element.item first)
      match ← accept [.comma] with
      | none => pure [element]
      | some _ =>
        let rest ← call (.elementItems close)
        pure (element :: rest)
  | _, _, .interpolation opening => do
    let parts ← call .partItems
    let _ ← expect .quote "closing '\"'"
    pure (.interpolation opening parts)
  | _, _, .partItems => do
    let t ← peek
    match t.kind with
    | .fragment =>
      let _ ← next
      let rest ← call .partItems
      pure (.literal t :: rest)
    | .variable =>
      let _ ← next
      let part ← embeddedVariable t
      let rest ← call .partItems
      pure (part :: rest)
    | .lbrace =>
      let _ ← next
      let part ← call expression
      let _ ← expect .rbrace "'\x7d'"
      let rest ← call .partItems
      pure (part :: rest)
    | _ => pure []

/-- Run a routine with the given number of calls, one within another. -/
def execute (limit : Nat) : (calls : Nat) → {σ : Scope} → {α : Type} → Routine σ α → Counting α
  | 0, _, _, _ => fun _ => none
  | calls + 1, _, _, r => body limit (fun r' => execute limit calls r') r

/-! ## Routines and the grammar -/

/-- The parser that a routine stands for, with `depth` levels of nesting to go. -/
def parser (limit : Nat) : {σ : Scope} → {α : Type} → Routine σ α → (depth : Nat) → Parser α
  | _, _, .nested _, 0 => tooDeep limit
  | _, _, .nested r, depth + 1 => r.parser limit depth
  | _, _, .leftNested r, depth => r.parser limit depth
  | _, _, .source, depth => fun s => (do
    let e ← Grammar.expression (ofDepth limit depth)
    let t ← Parser.peek
    if t.kind = .eof then pure e else Parser.unexpected "end of input" : Parser Expr) s
  | _, _, .assignment, depth => Grammar.assignment (ofDepth limit depth)
  | _, _, .level rs, depth => Grammar.level (ofDepth limit depth) rs
  | _, _, .chain ops tighter, depth => Grammar.level (ofDepth limit depth) (.left ops :: tighter)
  | _, _, .moreChain ops tighter left, depth =>
    Grammar.moreChain (ofDepth limit depth) ops tighter left
  | _, _, .instanceOf, depth => Grammar.instanceOf (ofDepth limit depth)
  | _, _, .moreInstanceOf value, depth => Grammar.moreInstanceOf (ofDepth limit depth) value
  | _, _, .operand, depth => Grammar.operand (ofDepth limit depth)
  | _, _, .moreSuffixes e, depth => Grammar.moreSuffixes (ofDepth limit depth) e
  | _, _, .primary, depth => Grammar.primary (ofDepth limit depth)
  | _, _, .memberName op isStatic, depth => Grammar.memberName (ofDepth limit depth) op isStatic
  | _, _, .member target op isStatic, depth =>
    Grammar.member (ofDepth limit depth) target op isStatic
  | _, _, .arguments, depth => Grammar.arguments (ofDepth limit depth)
  | _, _, .argumentItems, depth => fun s =>
    Grammar.argumentItems (ofDepth limit depth) (s.ahead.length + 1) s
  | _, _, .arrayElements close expected, depth =>
    Grammar.arrayElements (ofDepth limit depth) close expected
  | _, _, .elementItems close, depth => fun s =>
    Grammar.elementItems (ofDepth limit depth) close (s.ahead.length + 1) s
  | _, _, .interpolation opening, depth => Grammar.interpolation (ofDepth limit depth) opening
  | _, _, .partItems, depth => fun s =>
    Grammar.partItems (ofDepth limit depth) (s.ahead.length + 1) s

/-- The rules are those of the grammar, and no list is closed by the end of the input. -/
def InGrammar : {σ : Scope} → {α : Type} → Routine σ α → Prop
  | _, _, .nested r => r.InGrammar
  | _, _, .leftNested r => r.InGrammar
  | _, _, .level rs => rs ⊆ rules
  | _, _, .chain ops tighter => .left ops ∈ rules ∧ tighter ⊆ rules
  | _, _, .moreChain ops tighter _ => .left ops ∈ rules ∧ tighter ⊆ rules
  | _, _, .arrayElements close _ => close ≠ .eof
  | _, _, .elementItems close => close ≠ .eof
  | _, _, _ => True

/-- Whether a routine that succeeds has passed a token. Only loops may find nothing to go on
with. -/
def advances : {σ : Scope} → {α : Type} → Routine σ α → Bool
  | _, _, .nested r => r.advances
  | _, _, .leftNested r => r.advances
  | _, _, .moreChain .. => false
  | _, _, .moreInstanceOf _ => false
  | _, _, .moreSuffixes _ => false
  | _, _, .argumentItems => false
  | _, _, .elementItems _ => false
  | _, _, .partItems => false
  | _, _, _ => true

/-- The token that a routine ends with, if it is always one of a kind. -/
def closer? : {σ : Scope} → {α : Type} → Routine σ α → Option TokenKind
  | _, _, .arguments => some .rparen
  | _, _, .arrayElements close _ => some close
  | _, _, .interpolation _ => some .quote
  | _, _, _ => none

end Routine

end GuardedExpr
