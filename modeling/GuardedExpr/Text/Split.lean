/-
Splitting — a text cut at the occurrences of a separator.

Occurrences are found from left to right and do not overlap. Joining the pieces
with the separator gives the text back.
-/
import GuardedExpr.Text.Ascii

namespace GuardedExpr.Text

/-- The pieces of the text, cut at most `cuts` times. `done` are the pieces before, the latest
first, `piece` the characters of the current one, the latest first; `skip` characters still belong
to the separator just found. -/
def splitChars (sep : List Char) (cuts : Nat) (done : List String) (piece : List Char) (skip : Nat) :
    List Char → List String
  | [] => (String.ofList piece.reverse :: done).reverse
  | c :: cs =>
    match skip with
    | skip + 1 => splitChars sep cuts done piece skip cs
    | 0 =>
      if 0 < cuts && sep.isPrefixOf (c :: cs) then
        splitChars sep (cuts - 1) (String.ofList piece.reverse :: done) [] (sep.length - 1) cs
      else splitChars sep cuts done (c :: piece) 0 cs

/-- Cut a text at the first occurrences of a separator, which is not empty, at most `cuts` of
them. -/
def splitAtMost (cuts : Nat) (sep s : String) : List String :=
  splitChars sep.toList cuts [] [] 0 s.toList

/-- Cut a text at all occurrences of a separator, which is not empty. -/
def splitAll (sep s : String) : List String := splitAtMost s.length sep s

/-- Whether a text contains another; the empty text is everywhere. -/
def containsText (s part : String) : Bool :=
  part.isEmpty || 1 < (splitAtMost 1 part s).length

end GuardedExpr.Text
