/-
Line index — where the lines of a source start.

The index is made once, from the line-feed bytes of the source. It then turns byte
offsets into lines and columns: a binary search finds the line, and only the
characters of that line before the offset are counted. An offset at which the
source cannot be cut has no place.
-/
import GuardedExpr.Text.Location

namespace GuardedExpr

/-- The parts of a text before and behind a byte offset, where it may be cut there: between two
characters or at an end. -/
def splitAt? : Nat → List Char → Option (List Char × List Char)
  | 0, cs => some ([], cs)
  | _ + 1, [] => none
  | n + 1, c :: cs =>
    if c.utf8Size ≤ n + 1 then do
      let (before, behind) ← splitAt? (n + 1 - c.utf8Size) cs
      return (c :: before, behind)
    else none

/-- The part of a text between two byte offsets, where it may be cut at both and the first is not
behind the second. -/
def slice? (first stop : Nat) (cs : List Char) : Option (List Char) := do
  let (before, _) ← splitAt? stop cs
  let (_, part) ← splitAt? first before
  return part

/-- What a search in an ascending array finds: the index of the number itself, or the index at
which it could be put in. -/
inductive Sought where
  | hit (i : Nat)
  | gap (i : Nat)
deriving DecidableEq, Repr

/-- Binary search for `x` among the elements from index `low` up to index `high`. -/
def searchBetween (xs : Array Nat) (x low high : Nat) (h : high ≤ xs.size) : Sought :=
  if hlow : low < high then
    let middle := low + (high - low) / 2
    have : middle < xs.size := by omega
    match compare xs[middle] x with
    | .lt => searchBetween xs x (middle + 1) high h
    | .eq => .hit middle
    | .gt => searchBetween xs x low middle (by omega)
  else .gap low
termination_by high - low

/-- Binary search for `x` in the whole array. -/
def search (xs : Array Nat) (x : Nat) : Sought :=
  searchBetween xs x 0 xs.size (Nat.le_refl _)

/-- The offsets at which the lines of a source start. -/
structure LineIndex where
  starts : Array Nat

namespace LineIndex

/-- The offsets behind the line feeds of a text, whose first byte stands at `offset`. -/
def startsBehind (offset : Nat) (bytes : List UInt8) : List Nat :=
  ((bytes.zipIdx offset).filter (·.1 == 10)).map (·.2 + 1)

/-- The index of a source: its first line starts with it, each other one behind a line feed. -/
def ofText (source : String) : LineIndex :=
  ⟨(0 :: startsBehind 0 source.toUTF8.data.toList).toArray⟩

/-- The number of the line, from zero, that an offset stands in: the line that starts there, or the
last one that starts before it. -/
def line? (index : LineIndex) (offset : Nat) : Option Nat :=
  match search index.starts offset with
  | .hit line => some line
  | .gap 0 => none
  | .gap (line + 1) => some line

/-- The location of `length` bytes at a byte offset of the source. -/
def locate? (index : LineIndex) (source : String) (offset length : Nat) : Option Location := do
  let line ← index.line? offset
  let first ← index.starts[line]?
  let passed ← slice? first offset source.toList
  return ⟨offset, length, line + 1, passed.length + 1⟩

end LineIndex

end GuardedExpr
