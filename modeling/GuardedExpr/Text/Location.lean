/-
Source locations — byte offsets with the line and column that belong to them.

A position is what a reader has after some characters of the source: the bytes
passed, the line reached and the column of the next character. `Position.after`
runs over the characters one by one; everything else is stated through it, so
offsets and columns cannot drift apart.
-/
namespace GuardedExpr

/-- A place in the source: bytes before it, and its line and column counted from one.
Columns count characters. -/
structure Position where
  offset : Nat
  line : Nat
  column : Nat
deriving DecidableEq, Repr

namespace Position

/-- The place before the first character. -/
def start : Position := ⟨0, 1, 1⟩

/-- The place behind the character `c`. -/
def advance (p : Position) (c : Char) : Position :=
  if c = '\n' then ⟨p.offset + c.utf8Size, p.line + 1, 1⟩
  else ⟨p.offset + c.utf8Size, p.line, p.column + 1⟩

/-- The place behind the characters `cs`. -/
def after (p : Position) (cs : List Char) : Position :=
  cs.foldl advance p

@[simp] theorem after_nil (p : Position) : p.after [] = p := rfl

@[simp] theorem after_cons (p : Position) (c : Char) (cs : List Char) :
    p.after (c :: cs) = (p.advance c).after cs := rfl

@[simp] theorem after_append (p : Position) (cs ds : List Char) :
    p.after (cs ++ ds) = (p.after cs).after ds := List.foldl_append

end Position

/-- A stretch of source text: where it starts and how many bytes it takes. -/
structure Location where
  offset : Nat
  length : Nat
  line : Nat
  column : Nat
deriving DecidableEq, Repr, Inhabited

namespace Location

/-- The stretch of `length` bytes at a position. -/
def ofPosition (p : Position) (length : Nat) : Location :=
  ⟨p.offset, length, p.line, p.column⟩

/-- The offset behind the stretch. -/
def stop (l : Location) : Nat := l.offset + l.length

/-- The line and column as messages give them. -/
def describe (l : Location) : String := s!"line {l.line}, column {l.column}"

end Location

/-- The characters of the text before a byte offset; a character across the offset is left out. -/
def charsBefore (offset : Nat) : List Char → List Char
  | [] => []
  | c :: cs => if c.utf8Size ≤ offset then c :: charsBefore (offset - c.utf8Size) cs else []

/-- The location of `length` bytes at a byte offset of the source. -/
def locate (source : String) (offset length : Nat) : Location :=
  let p := Position.start.after (charsBefore offset source.toList)
  ⟨offset, length, p.line, p.column⟩

/-- The text between two byte offsets of the source. -/
def sliceText (source : String) (first stop : Nat) : String :=
  let before := charsBefore first source.toList
  String.ofList ((charsBefore stop source.toList).drop before.length)

end GuardedExpr
