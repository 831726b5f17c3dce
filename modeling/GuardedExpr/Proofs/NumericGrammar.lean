/-
# The grammar of numeric strings

    blank* [+-]? (digit+ [. digit*] | . digit+) ([eE] [+-]? digit+)? blank*

The grammar is written down as a language, without reference to the reader.  Its
middle part is the language of the texts of well-formed numerals (`mem_numeral_iff`), each
part of a numeral being one factor of it.
-/
import GuardedExpr.Proofs.Numerals
import Mathlib.Computability.Language

namespace GuardedExpr.NumericGrammar

open Computability

/-- One character of a class. -/
def oneOf (p : Char → Prop) : Language Char := {cs | ∃ c, p c ∧ cs = [c]}

/-- A space, tab, newline, carriage return, vertical tab or form feed. -/
def blank : Language Char := oneOf (· ∈ [' ', '\t', '\n', '\r', '\x0b', '\x0c'])

def sign : Language Char := 1 + oneOf (· ∈ ['+', '-'])

def digit : Language Char := oneOf (·.isDigit = true)

def digits : Language Char := digit * digit∗

def point : Language Char := oneOf (· = '.')

def mantissa : Language Char := digits * (1 + point * digit∗) + point * digits

def exponent : Language Char := oneOf (· ∈ ['e', 'E']) * sign * digits

def numeral : Language Char := sign * mantissa * (1 + exponent)

def numericText : Language Char := blank∗ * numeral * blank∗

variable {p : Char → Prop} {cs : List Char}

/-! ## Characters and runs of them -/

theorem singleton_mem_oneOf {c : Char} : [c] ∈ oneOf p ↔ p c := by
  constructor
  · rintro ⟨d, hd, ⟨⟩⟩
    exact hd
  · exact fun hc => ⟨c, hc, rfl⟩

theorem mem_kstar_oneOf : cs ∈ (oneOf p)∗ ↔ ∀ c ∈ cs, p c := by
  rw [Language.mem_kstar]
  constructor
  · rintro ⟨parts, rfl, hparts⟩ c hc
    obtain ⟨part, hpart, hc⟩ := List.mem_flatten.mp hc
    obtain ⟨d, hd, rfl⟩ := hparts part hpart
    obtain rfl := List.mem_singleton.mp hc
    exact hd
  · intro h
    refine ⟨cs.map fun c => [c], (List.flatMap_singleton' cs).symm, fun part hpart => ?_⟩
    obtain ⟨c, hc, rfl⟩ := List.mem_map.mp hpart
    exact singleton_mem_oneOf.mpr (h c hc)

theorem isNumericBlank_iff {c : Char} :
    isNumericBlank c = true ↔ c ∈ [' ', '\t', '\n', '\r', '\x0b', '\x0c'] := by
  simp [isNumericBlank, or_assoc]

theorem singleton_mem_blank_iff {c : Char} : [c] ∈ blank ↔ isNumericBlank c = true :=
  singleton_mem_oneOf.trans isNumericBlank_iff.symm

theorem mem_blanks_iff : cs ∈ blank∗ ↔ ∀ c ∈ cs, isNumericBlank c = true := by
  rw [blank, mem_kstar_oneOf]
  simp only [isNumericBlank_iff]

theorem mem_digits_iff : cs ∈ digits ↔ cs ≠ [] ∧ ∀ c ∈ cs, c.isDigit = true := by
  rw [digits, Language.mem_mul]
  constructor
  · rintro ⟨_, ⟨c, hc, rfl⟩, ds, hds, rfl⟩
    exact ⟨by simp, List.forall_mem_cons.mpr ⟨hc, mem_kstar_oneOf.mp hds⟩⟩
  · rintro ⟨hne, h⟩
    obtain ⟨c, ds, rfl⟩ := List.exists_cons_of_ne_nil hne
    rw [List.forall_mem_cons] at h
    exact ⟨[c], singleton_mem_oneOf.mpr h.1, ds, mem_kstar_oneOf.mpr h.2, rfl⟩

/-! ## The parts of a numeral -/

section Parts

open Numeral

theorem mem_sign_iff : cs ∈ sign ↔ ∃ s, (∀ c ∈ s, isSign c = true) ∧ signChars s = cs := by
  rw [sign, Language.mem_add, Language.mem_one]
  constructor
  · rintro (rfl | ⟨c, hc, rfl⟩)
    · exact ⟨none, nofun, rfl⟩
    · refine ⟨some c, ?_, rfl⟩
      rintro d ⟨⟩
      simpa [isSign] using hc
  · rintro ⟨s, hs, rfl⟩
    cases s with
    | none => exact .inl rfl
    | some c => exact .inr (singleton_mem_oneOf.mpr (by simpa [isSign] using hs c rfl))

theorem mem_mantissa_iff : cs ∈ mantissa ↔ ∃ whole fraction,
    (∀ c ∈ whole, c.isDigit = true) ∧ (∀ ds ∈ fraction, ∀ c ∈ ds, c.isDigit = true) ∧
      (whole ≠ [] ∨ fraction.getD [] ≠ []) ∧ whole ++ fractionChars fraction = cs := by
  rw [mantissa, Language.mem_add, Language.mem_mul, Language.mem_mul]
  constructor
  · rintro (⟨whole, hwhole, _, htail, rfl⟩ | ⟨_, ⟨_, rfl, rfl⟩, ds, hds, rfl⟩)
    · obtain ⟨hne, hwhole⟩ := mem_digits_iff.mp hwhole
      rcases htail with rfl | ⟨_, ⟨_, rfl, rfl⟩, ds, hds, rfl⟩
      · exact ⟨whole, none, hwhole, nofun, .inl hne, rfl⟩
      · refine ⟨whole, some ds, hwhole, ?_, .inl hne, rfl⟩
        rintro ds' ⟨⟩
        exact mem_kstar_oneOf.mp hds
    · obtain ⟨hne, hds⟩ := mem_digits_iff.mp hds
      refine ⟨[], some ds, nofun, ?_, .inr hne, rfl⟩
      rintro ds' ⟨⟩
      exact hds
  · rintro ⟨whole, fraction, hwhole, hfraction, hne, rfl⟩
    have hpoint : ['.'] ∈ point := singleton_mem_oneOf.mpr rfl
    by_cases hnil : whole = []
    · subst hnil
      cases fraction with
      | none => simp at hne
      | some ds =>
          have hds : ds ≠ [] := by simpa using hne
          exact .inr ⟨['.'], hpoint, ds, mem_digits_iff.mpr ⟨hds, hfraction ds rfl⟩, rfl⟩
    · refine .inl ⟨whole, mem_digits_iff.mpr ⟨hnil, hwhole⟩, fractionChars fraction, ?_, rfl⟩
      cases fraction with
      | none => exact .inl rfl
      | some ds => exact .inr ⟨['.'], hpoint, ds, mem_kstar_oneOf.mpr (hfraction ds rfl), rfl⟩

theorem mem_exponent_iff : cs ∈ 1 + exponent ↔
    ∃ e : Option Exponent, (∀ x ∈ e, x.WellFormed) ∧ exponentChars e = cs := by
  rw [Language.mem_add, Language.mem_one, exponent, Language.mem_mul]
  constructor
  · rintro (rfl | ⟨_, ⟨_, ⟨letter, hletter, rfl⟩, _, hsign, rfl⟩, ds, hds, rfl⟩)
    · exact ⟨none, nofun, rfl⟩
    · obtain ⟨s, hs, rfl⟩ := mem_sign_iff.mp hsign
      obtain ⟨hne, hds⟩ := mem_digits_iff.mp hds
      refine ⟨some ⟨letter, s, ds⟩, ?_, rfl⟩
      rintro e ⟨⟩
      exact ⟨by simpa using hletter, hs, hne, hds⟩
  · rintro ⟨e, he, rfl⟩
    cases e with
    | none => exact .inl rfl
    | some e =>
        obtain ⟨hletter, hsign, hne, hds⟩ := he e rfl
        refine .inr ⟨e.letter :: signChars e.sign, ?_, e.digits, mem_digits_iff.mpr ⟨hne, hds⟩, rfl⟩
        exact ⟨[e.letter], singleton_mem_oneOf.mpr (by simpa using hletter), _,
          mem_sign_iff.mpr ⟨e.sign, hsign, rfl⟩, rfl⟩

/-- **The texts of well-formed numerals are the language of numerals.** -/
theorem mem_numeral_iff : cs ∈ numeral ↔ ∃ n : Numeral, n.WellFormed ∧ n.chars = cs := by
  rw [numeral, Language.mem_mul]
  constructor
  · rintro ⟨_, ⟨_, hsign, _, hmantissa, rfl⟩, _, hexponent, rfl⟩
    obtain ⟨s, hs, rfl⟩ := mem_sign_iff.mp hsign
    obtain ⟨whole, fraction, hwhole, hfraction, hne, rfl⟩ := mem_mantissa_iff.mp hmantissa
    obtain ⟨e, he, rfl⟩ := mem_exponent_iff.mp hexponent
    exact ⟨⟨s, whole, fraction, e⟩, ⟨hs, hwhole, hfraction, hne, he⟩, by simp [chars]⟩
  · rintro ⟨n, hn, rfl⟩
    refine ⟨signChars n.sign ++ (n.whole ++ fractionChars n.fraction), ?_,
      exponentChars n.exponent, mem_exponent_iff.mpr ⟨_, hn.exponent, rfl⟩, by simp [chars]⟩
    exact ⟨_, mem_sign_iff.mpr ⟨_, hn.sign, rfl⟩, _,
      mem_mantissa_iff.mpr ⟨_, _, hn.whole, hn.fraction, hn.nonempty, rfl⟩, rfl⟩

end Parts

end GuardedExpr.NumericGrammar
