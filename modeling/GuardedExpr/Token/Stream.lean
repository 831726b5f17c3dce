/-
Token streams — a cursor over tokens with one token of lookahead.

A stream is a list with a focus: the tokens passed, the current one, and those to
come. The cursor moves forward only, and never off the end of the input.
-/
import GuardedExpr.ParseError
import GuardedExpr.Token.Basic

namespace GuardedExpr

/-- Tokens with a focus; the last token passed comes first in `passed`. -/
structure TokenStream where
  passed : List Token
  current : Token
  ahead : List Token
deriving DecidableEq, Repr

namespace TokenStream

/-- The stream at the first token. Without tokens it stands at the end of an empty input. -/
def ofList : List Token → TokenStream
  | [] => ⟨[], ⟨.eof, "", .ofPosition .start 0⟩, []⟩
  | t :: ts => ⟨[], t, ts⟩

/-- All tokens, wherever the cursor stands. -/
def toList (s : TokenStream) : List Token := s.passed.reverse ++ s.current :: s.ahead

def length (s : TokenStream) : Nat := s.passed.length + s.ahead.length + 1

/-- The number of tokens passed. -/
def position (s : TokenStream) : Nat := s.passed.length

def previous? (s : TokenStream) : Option Token := s.passed.head?

def atEnd (s : TokenStream) : Bool := s.current.kind == .eof

def check (s : TokenStream) (kind : TokenKind) : Bool := s.current.kind == kind

/-- Move past the current token, unless it is the end of the input. -/
def advance (s : TokenStream) : TokenStream :=
  if s.current.kind = .eof then s
  else
    match s.ahead with
    | [] => s
    | t :: ts => ⟨s.current :: s.passed, t, ts⟩

/-- The fault of finding the current token where something else is expected. -/
def unexpected (s : TokenStream) (expected : String) : ParseError :=
  let t := s.current
  let fault := if t.kind = .eof then .unexpectedEnd expected else .unexpectedToken t.text expected
  ⟨fault, t.location⟩

/-- The current token and the stream behind it, if its kind is one of those given. -/
def take? (s : TokenStream) (kinds : List TokenKind) : Option (Token × TokenStream) :=
  if kinds.contains s.current.kind then some (s.current, s.advance) else none

/-- The current token and the stream behind it; another kind is a fault. -/
def expect (s : TokenStream) (kind : TokenKind) (expected : String) :
    Except ParseError (Token × TokenStream) :=
  if s.check kind then .ok (s.current, s.advance) else .error (s.unexpected expected)

end TokenStream

end GuardedExpr
