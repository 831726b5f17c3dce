/-
Highlighting — the source in coloured segments.

Every token is a segment of the colour of its kind, and what lies between tokens
is plain. A source that is not made of tokens is plain as a whole. The source is cut
at offsets only, so that nothing but slices of it is shown.
-/
import GuardedExpr.Token.Scanner

namespace GuardedExpr

/-- What a token is to a reader. -/
inductive TokenClass where
  | plain | keyword | constant | number | string | function | variable
deriving DecidableEq, Repr

/-- The colour of a class. -/
inductive Colour where
  | white | magenta | cyan | green | blue | red
deriving DecidableEq, Repr

def TokenClass.colour : TokenClass → Colour
  | .plain => .white
  | .keyword => .magenta
  | .constant | .number => .cyan
  | .string => .green
  | .function => .blue
  | .variable => .red

def TokenKind.tokenClass : TokenKind → TokenClass
  | .integer | .float => .number
  | .bool | .null => .constant
  | .string | .quote | .fragment => .string
  | .identifier => .function
  | .variable => .variable
  | .and | .or | .xor | .array | .instanceOf | .cast => .keyword
  | _ => .plain

/-- A stretch of source of one class. -/
structure Segment where
  tokenClass : TokenClass
  text : String
deriving DecidableEq, Repr

/-- The offsets between which the source is of one class. -/
structure Span where
  tokenClass : TokenClass
  first : Nat
  stop : Nat
deriving DecidableEq, Repr

/-- The text of the source between the offsets. -/
def Span.segment (source : String) (s : Span) : Segment :=
  ⟨s.tokenClass, sliceText source s.first s.stop⟩

def Token.span (t : Token) : Span := ⟨t.kind.tokenClass, t.location.offset, t.location.stop⟩

/-- The plain span between two offsets, if there is anything between. -/
def gap (first stop : Nat) : List Span := if first < stop then [⟨.plain, first, stop⟩] else []

/-- The spans of the tokens and of the gaps before them, in a source of `size` bytes from an offset
on; a gap after the last token goes up to the end of the source. A token that starts before what
has been reached, or ends behind the source, is passed over. -/
def spansFrom (size offset : Nat) : List Token → List Span
  | [] => gap offset size
  | t :: ts =>
    if t.location.offset < offset ∨ size < t.location.stop then spansFrom size offset ts
    else gap offset t.location.offset ++ t.span :: spansFrom size t.location.stop ts

/-- The offsets at which the source is cut, each stretch with its class. -/
def spans (source : String) : List Span :=
  match tokenize source with
  | .error _ => [⟨.plain, 0, source.utf8ByteSize⟩]
  | .ok ts => spansFrom source.utf8ByteSize 0 (ts.filter fun t => t.kind != .eof)

/-- The source in segments. -/
def highlight (source : String) : List Segment := (spans source).map (Span.segment source)

end GuardedExpr
