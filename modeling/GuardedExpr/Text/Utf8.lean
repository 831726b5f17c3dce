/-
Bytes of a text — cutting a string at byte offsets.

Strings are counted and cut in bytes although they hold characters. A cut may
fall inside a character; what is left of it there reads as replacement
characters: one for each stray byte at the front, one for the unfinished
character at the back.
-/
import GuardedExpr.Text.Ascii

namespace GuardedExpr.Text

/-- The replacement character. -/
def replacement : Char := '\ufffd'

/-- The characters that the bytes from `first` up to `stop` spell, behind those in `taken`, the
latest first. The offsets count from the first character of the list; `first ≤ stop`. -/
def sliceChars (taken : List Char) (first stop : Nat) : List Char → List Char
  | [] => taken.reverse
  | c :: cs =>
    let size := c.utf8Size
    if size ≤ first then sliceChars taken (first - size) (stop - size) cs
    else if stop = 0 then taken.reverse
    else if 0 < first then
      -- The front of this character is cut off: its other bytes are stray ones.
      sliceChars (List.replicate (min size stop - first) replacement ++ taken) 0 (stop - size) cs
    else if stop < size then (replacement :: taken).reverse
    else sliceChars (c :: taken) 0 (stop - size) cs

/-- The bytes of a text from `first` up to `stop`, read as text again. -/
def sliceBytes (s : String) (first stop : Nat) : String :=
  String.ofList (sliceChars [] first stop s.toList)

end GuardedExpr.Text
