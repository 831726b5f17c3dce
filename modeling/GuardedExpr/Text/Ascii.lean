/-
Character classes — ASCII letters, digits and names.

The language folds case and recognises digits in ASCII only; every character
beyond ASCII is a name character and nothing else. Core's `Char.isAlpha`,
`Char.isDigit`, `Char.toLower` and `Char.toUpper` are ASCII functions, so they
are used as they stand.
-/
namespace GuardedExpr.Text

/-- A name starts with an ASCII letter, an underscore or any non-ASCII character. -/
def isNameStart (c : Char) : Bool :=
  c.isAlpha || c == '_' || 128 ≤ c.toNat

/-- A name goes on with whatever may start one, or an ASCII digit. -/
def isNameChar (c : Char) : Bool :=
  isNameStart c || c.isDigit

/-- The blanks that separate tokens. A vertical tab is not one of them. -/
def isTokenBlank (c : Char) : Bool :=
  c == ' ' || c == '\t' || c == '\n' || c == '\x0c' || c == '\r'

/-- The value of a digit in bases up to sixteen, letters in either case. -/
def digitValue (c : Char) : Option Nat :=
  if c.isDigit then some (c.toNat - '0'.toNat)
  else if 'a' ≤ c ∧ c ≤ 'f' then some (c.toNat - 'a'.toNat + 10)
  else if 'A' ≤ c ∧ c ≤ 'F' then some (c.toNat - 'A'.toNat + 10)
  else none

/-- The value of a digit of the given base. -/
def digitIn? (base : Nat) (c : Char) : Option Nat :=
  (digitValue c).filter (· < base)

/-- Whether a character is a digit of the given base. -/
def isDigitIn (base : Nat) (c : Char) : Bool :=
  (digitIn? base c).isSome

/-- A number with one more digit behind it; a character that is no digit counts as zero. -/
def withDigit (base : Nat) (n : Nat) (c : Char) : Nat :=
  n * base + (digitIn? base c).getD 0

/-- The number that a list of digits spells. -/
def numberIn (base : Nat) (digits : List Char) : Nat :=
  digits.foldl (withDigit base) 0

/-- The digits from the first that is not zero. -/
def significant (digits : List Char) : List Char :=
  digits.dropWhile (· == '0')

/-- The text with its ASCII letters in lower case. -/
def lower (s : String) : String :=
  String.ofList (s.toList.map Char.toLower)

/-- The text with its ASCII letters in upper case. -/
def upper (s : String) : String :=
  String.ofList (s.toList.map Char.toUpper)

/-- Two names that differ at most in the case of ASCII letters. -/
def sameFolded (a b : String) : Bool :=
  lower a == lower b

/-- The text without its first character when that is `c`. -/
def dropOne (c : Char) (s : String) : String :=
  match s.toList with
  | d :: rest => if d = c then String.ofList rest else s
  | [] => s

/-- Nothing is dropped exactly if the text does not start with the character. -/
theorem dropOne_eq_self_iff {c : Char} {s : String} :
    dropOne c s = s ↔ s.toList.head? ≠ some c := by
  unfold dropOne
  cases hs : s.toList with
  | nil => simp
  | cons d rest =>
      dsimp only
      split
      · next hd =>
          subst hd
          refine iff_of_false ?_ (by simp)
          intro heq
          have hlist : rest = s.toList := by rw [← heq, String.toList_ofList]
          rw [hs] at hlist
          exact List.ne_cons_self hlist
      · next hd => simpa using hd

/-- The bytes that a list of characters takes in UTF-8. -/
def byteLength (cs : List Char) : Nat :=
  @List.sum Nat _ Zero.ofOfNat0 (cs.map Char.utf8Size)

/-- Ascending order of character codes, which is also the order of the UTF-8 bytes. -/
def sortNames (names : List String) : List String :=
  names.mergeSort (fun a b => !(b < a))

end GuardedExpr.Text
