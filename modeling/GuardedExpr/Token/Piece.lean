/-
Pieces — the source cut into blanks and token texts.

Scanning first cuts the source into pieces; placing the pieces one behind the
other then gives every token its location. A fault keeps the rest of the source
from the place where it was noticed, so it needs no offset of its own.
-/
import GuardedExpr.ParseError
import GuardedExpr.Token.Basic

namespace GuardedExpr

/-- Blanks, or the text of one token. -/
inductive Piece where
  | blank (text : List Char)
  | lexeme (kind : TokenKind) (text : List Char)
deriving DecidableEq, Repr

/-- A lexical fault, with the source from the fault on. -/
structure ScanFault where
  fault : ParseFault
  rest : List Char
deriving DecidableEq, Repr

namespace Piece

def text : Piece → List Char
  | .blank text | .lexeme _ text => text

/-- The characters that some pieces cover. -/
def textLength (ps : List Piece) : Nat :=
  @List.sum Nat _ Zero.ofOfNat0 (ps.map fun p => p.text.length)

/-- The tokens of some pieces that start at `p`, and the end of the input behind them. -/
def place (p : Position) : List Piece → List Token
  | [] => [⟨.eof, "", .ofPosition p 0⟩]
  | .blank text :: ps => place (p.after text) ps
  | .lexeme kind text :: ps =>
    ⟨kind, String.ofList text, .ofPosition p (Text.byteLength text)⟩ :: place (p.after text) ps

end Piece

namespace ScanFault

/-- The parse error of a fault in the source `cs`: it covers the text found. -/
def toParseError (f : ScanFault) (cs : List Char) : ParseError :=
  let p := Position.start.after (cs.take (cs.length - f.rest.length))
  ⟨f.fault, .ofPosition p f.fault.found.utf8ByteSize⟩

/-- The first character of the source does not belong here. -/
def unexpected (cs : List Char) : ScanFault :=
  ⟨.unexpectedCharacter (String.ofList (cs.take 1)), cs⟩

/-- The string whose opening quote starts the source has no closing quote. -/
def unterminated (cs : List Char) : ScanFault :=
  ⟨.unterminatedString (String.ofList (cs.take 1)), cs⟩

end ScanFault

end GuardedExpr
