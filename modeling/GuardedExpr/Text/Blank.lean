/-
Blank characters — the Unicode property White_Space.

Trimming a name from the command line and reading the type between the
parentheses of a cast use this class; the scanner's own blanks are ASCII
(`Text.isTokenBlank`), and so are those around a numeric string.
-/
namespace GuardedExpr.Text

/-- The ranges of characters that carry the property White_Space. -/
def blankRanges : List (Nat × Nat) :=
  [(0x9, 0xd), (0x20, 0x20), (0x85, 0x85), (0xa0, 0xa0), (0x1680, 0x1680),
   (0x2000, 0x200a), (0x2028, 0x2029), (0x202f, 0x202f), (0x205f, 0x205f), (0x3000, 0x3000)]

def isBlank (c : Char) : Bool :=
  blankRanges.any fun (low, high) => low ≤ c.toNat && c.toNat ≤ high

/-- The list without the leading elements that satisfy `p`. -/
def trimLeft (p : Char → Bool) (cs : List Char) : List Char :=
  cs.dropWhile p

/-- The list without the trailing elements that satisfy `p`. -/
def trimRight (p : Char → Bool) (cs : List Char) : List Char :=
  (cs.reverse.dropWhile p).reverse

/-- The list without the elements at either end that satisfy `p`. -/
def trimBoth (p : Char → Bool) (cs : List Char) : List Char :=
  trimRight p (trimLeft p cs)

/-- The text without the blanks at its ends. -/
def trimBlanks (s : String) : String :=
  String.ofList (trimBoth isBlank s.toList)

end GuardedExpr.Text
