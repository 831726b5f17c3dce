/-
Balance — whether a source is still open.

While brackets or a string are open, more lines may follow.
-/
import GuardedExpr.Token.Scanner

namespace GuardedExpr

namespace TokenKind

def opens : TokenKind → Bool
  | .lparen | .lbracket | .lbrace => true
  | _ => false

def closes : TokenKind → Bool
  | .rparen | .rbracket | .rbrace => true
  | _ => false

end TokenKind

/-- How many brackets are open; an unterminated string counts as one. There is no answer for a
source with another lexical fault. -/
def openDepth? (source : String) : Option Nat :=
  match tokenize source with
  | .ok ts => some (ts.countP (·.kind.opens) - ts.countP (·.kind.closes))
  | .error ⟨.unterminatedString _, _⟩ => some 1
  | .error _ => none

/-- Whether a source is not to be continued: nothing is open, or its fault will be reported. -/
def isComplete (source : String) : Bool := (openDepth? source).getD 0 == 0

end GuardedExpr
