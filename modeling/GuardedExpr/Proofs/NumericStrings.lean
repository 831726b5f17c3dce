/-
# Numeric strings — one grammar, and readers that agree

Three readers take a number out of a string.  The first takes a whole string, blanks at
its ends apart (`parseNumeric?`); casts take the numeral at the start, behind the leading
blanks (`numericHead`); and a string that is used as a key is an integer if it is
written as one (`Key.ofString`).

What the first one reads is the grammar of numeric strings: the characters of a numeral
are no blanks, so trimming finds its ends.  Casts read the longest beginning that is a
numeral, which for a numeric string is all of it, since a blank never goes on with a
numeral.  The text that an integer is written in is read by all three as that integer.
-/
import GuardedExpr.Proofs.IntegerLiterals
import GuardedExpr.Proofs.NumericGrammar

namespace GuardedExpr

open Computability NumericGrammar Numeral Text

/-! ## Blanks at the ends -/

namespace Text

variable {p : Char → Bool} {before cs after : List Char}

theorem trimLeft_append (hbefore : ∀ c ∈ before, p c = true)
    (hcs : ∀ c ∈ cs.head?, p c = false) : trimLeft p (before ++ cs) = cs := by
  rw [trimLeft, List.dropWhile_append_of_pos hbefore]
  cases cs with
  | nil => rfl
  | cons c cs => exact List.dropWhile_cons_of_neg (by simp [hcs c rfl])

theorem exists_trimLeft (p : Char → Bool) (cs : List Char) :
    ∃ before, before ++ trimLeft p cs = cs ∧ (∀ c ∈ before, p c = true) ∧
      ∀ c ∈ (trimLeft p cs).head?, p c = false := by
  refine ⟨cs.takeWhile p, List.takeWhile_append_dropWhile, ?_, ?_⟩
  · exact List.all_eq_true.mp List.all_takeWhile
  · intro c hc
    have hhead := List.head?_dropWhile_not p cs
    rw [trimLeft, Option.mem_def] at hc
    rwa [hc] at hhead

theorem trimRight_append (hafter : ∀ c ∈ after, p c = true) (hcs : ∀ c ∈ cs, p c = false) :
    trimRight p (cs ++ after) = cs := by
  have hright : trimLeft p (after.reverse ++ cs.reverse) = cs.reverse := by
    apply trimLeft_append
    · simpa using hafter
    · intro c hc
      exact hcs c (List.mem_reverse.mp (List.mem_of_head? hc))
  rw [trimLeft, ← List.reverse_append] at hright
  rw [trimRight, hright, List.reverse_reverse]

theorem trimBoth_append (hbefore : ∀ c ∈ before, p c = true) (hafter : ∀ c ∈ after, p c = true)
    (hcs : ∀ c ∈ cs, p c = false) (hne : cs ≠ []) :
    trimBoth p (before ++ (cs ++ after)) = cs := by
  have hleft : trimLeft p (before ++ (cs ++ after)) = cs ++ after := by
    apply trimLeft_append hbefore
    intro c hc
    rw [List.head?_append_of_ne_nil _ hne] at hc
    exact hcs c (List.mem_of_head? hc)
  rw [trimBoth, hleft, trimRight_append hafter hcs]

theorem exists_trimBoth (p : Char → Bool) (cs : List Char) :
    ∃ before after, before ++ (trimBoth p cs ++ after) = cs ∧ (∀ c ∈ before, p c = true) ∧
      ∀ c ∈ after, p c = true := by
  obtain ⟨before, hbefore, hblank, -⟩ := exists_trimLeft p cs
  obtain ⟨after, hafter, hblank', -⟩ := exists_trimLeft p (trimLeft p cs).reverse
  have hright : trimBoth p cs ++ after.reverse = trimLeft p cs := by
    rw [← List.reverse_inj, List.reverse_append, List.reverse_reverse, ← hafter]
    simp [trimBoth, trimRight, trimLeft]
  refine ⟨before, after.reverse, ?_, hblank, by simpa using hblank'⟩
  rw [hright, hbefore]

end Text

/-! ## Numerals among blanks -/

namespace Numeral

variable {n : Numeral} {c : Char}

theorem WellFormed.chars_ne_nil (h : n.WellFormed) : n.chars ≠ [] := by
  obtain ⟨c, more, hbody, -⟩ := h.body_head
  rw [chars_eq, hbody]
  simp

theorem isSign_of_mem_signChars {sign : Option Char} (h : ∀ c ∈ sign, isSign c = true)
    (hc : c ∈ signChars sign) : isSign c = true := by
  cases sign with
  | none => cases hc
  | some s => exact h c (congrArg some (List.mem_singleton.mp hc).symm)

theorem WellFormed.of_mem_chars (h : n.WellFormed) (hc : c ∈ n.chars) :
    isSign c = true ∨ c.isDigit = true ∨ c = '.' ∨ (c == 'e' || c == 'E') = true := by
  rw [chars_eq, List.mem_append, List.mem_append, List.mem_append] at hc
  rcases hc with hc | hc | hc | hc
  · exact .inl (isSign_of_mem_signChars h.sign hc)
  · exact .inr (.inl (h.whole c hc))
  · cases hfraction : n.fraction with
    | none => simp [hfraction, fractionChars] at hc
    | some ds =>
        rw [hfraction, fractionChars, List.mem_cons] at hc
        exact .inr (hc.elim (fun hpoint => .inr (.inl hpoint))
          fun hds => .inl (h.fraction ds hfraction c hds))
  · cases hexponent : n.exponent with
    | none => simp [hexponent, exponentChars] at hc
    | some e =>
        have he := h.exponent e hexponent
        rw [hexponent, exponentChars, List.cons_append, List.mem_cons, List.mem_append] at hc
        rcases hc with rfl | hc | hc
        · exact .inr (.inr (.inr he.letter))
        · exact .inl (isSign_of_mem_signChars he.sign hc)
        · exact .inr (.inl (he.digits c hc))

/-- A blank is in no part of a numeral. -/
theorem not_part_of_blank (h : isNumericBlank c = true) :
    ¬ (isSign c = true ∨ c.isDigit = true ∨ c = '.' ∨ (c == 'e' || c == 'E') = true) := by
  simp only [isNumericBlank, Bool.or_eq_true, beq_iff_eq, or_assoc] at h
  rcases h with rfl | rfl | rfl | rfl | rfl | rfl <;> decide

/-- No character of a numeral is a blank. -/
theorem WellFormed.not_blank (h : n.WellFormed) : ∀ c ∈ n.chars, isNumericBlank c = false := by
  intro c hc
  rw [Bool.eq_false_iff]
  intro hblank
  exact not_part_of_blank hblank (h.of_mem_chars hc)

/-- A blank does not go on with a numeral. -/
theorem ends_of_blanks {after : List Char} (h : ∀ c ∈ after, isNumericBlank c = true) :
    n.Ends after := by
  cases after with
  | nil => exact ends_nil n
  | cons c after =>
      obtain ⟨-, hdigit, hpoint, hletter⟩ : _ ∧ _ ∧ _ ∧ _ := by
        simpa only [not_or] using not_part_of_blank (h c List.mem_cons_self)
      refine ⟨?_, ?_, ?_⟩
      · rintro d ⟨⟩
        exact Bool.eq_false_iff.mpr hdigit
      · rintro - - d ⟨⟩
        exact hpoint
      · intro
        rw [scanExponent, if_neg hletter]

end Numeral

/-! ## Whole strings -/

section Whole

variable {s : String} {m : Number}

/-- **A numeric string is a numeral with blanks around it,** and its number is that of the
numeral. -/
theorem parseNumeric?_eq_some_iff : parseNumeric? s = some m ↔ ∃ before after, ∃ n : Numeral,
    (∀ c ∈ before, isNumericBlank c = true) ∧ (∀ c ∈ after, isNumericBlank c = true) ∧
      n.WellFormed ∧ before ++ (n.chars ++ after) = s.toList ∧ n.value = m := by
  constructor
  · intro h
    obtain ⟨before, after, htext, hbefore, hafter⟩ := exists_trimBoth isNumericBlank s.toList
    unfold parseNumeric? at h
    split at h
    · next n hscan =>
        obtain ⟨hn, hchars⟩ := wellFormed_of_scan? hscan
        rw [List.append_nil] at hchars
        refine ⟨before, after, n, hbefore, hafter, hn, ?_, Option.some.inj h⟩
        rw [hchars, htext]
    · cases h
  · rintro ⟨before, after, n, hbefore, hafter, hn, htext, rfl⟩
    have htrim := trimBoth_append hbefore hafter hn.not_blank hn.chars_ne_nil
    rw [parseNumeric?, ← htext, htrim, hn.scan?_chars]

/-- The text of a numeral is a numeric string. -/
theorem parseNumeric?_chars {n : Numeral} (h : n.WellFormed) :
    parseNumeric? (String.ofList n.chars) = some n.value :=
  parseNumeric?_eq_some_iff.mpr ⟨[], [], n, nofun, nofun, h, by simp, rfl⟩

theorem exists_parseNumeric?_iff : (∃ m, parseNumeric? s = some m) ↔ s.toList ∈ numericText := by
  rw [numericText, mul_assoc, Language.mem_mul]
  constructor
  · rintro ⟨m, hm⟩
    obtain ⟨before, after, n, hbefore, hafter, hn, htext, -⟩ := parseNumeric?_eq_some_iff.mp hm
    refine ⟨before, mem_blanks_iff.mpr hbefore, n.chars ++ after, ?_, htext⟩
    exact ⟨_, mem_numeral_iff.mpr ⟨n, hn, rfl⟩, _, mem_blanks_iff.mpr hafter, rfl⟩
  · rintro ⟨before, hbefore, _, ⟨_, hnumeral, after, hafter, rfl⟩, htext⟩
    obtain ⟨n, hn, rfl⟩ := mem_numeral_iff.mp hnumeral
    exact ⟨n.value, parseNumeric?_eq_some_iff.mpr
      ⟨before, after, n, mem_blanks_iff.mp hbefore, mem_blanks_iff.mp hafter, hn, htext, rfl⟩⟩

end Whole

/-! ## Beginnings of strings -/

/-- The longest beginning of the text that is in the language. -/
structure IsLongest (L : Language Char) (cs longest : List Char) : Prop where
  mem : longest ∈ L
  starts : longest <+: cs
  maximal : ∀ other ∈ L, other <+: cs → other.length ≤ longest.length

/-- The number at the start of a text: of the longest beginning that is a numeral, or zero if no
beginning is one. -/
inductive StartsWith (cs : List Char) : Number → Prop
  | numeral {longest : List Char} {m : Number} : IsLongest numeral cs longest →
      parseNumeric? (String.ofList longest) = some m → StartsWith cs m
  | zero : (∀ other ∈ numeral, ¬ other <+: cs) → StartsWith cs (.int 0)

theorem startsWith_of_scan?_eq_none {cs : List Char} (h : scan? cs = none) :
    StartsWith cs (.int 0) := by
  apply StartsWith.zero
  rintro _ hother ⟨more, rfl⟩
  obtain ⟨n, hn, rfl⟩ := mem_numeral_iff.mp hother
  obtain ⟨m, rest, hscan, -⟩ := hn.exists_scan? more
  rw [h] at hscan
  cases hscan

theorem startsWith_of_scan?_eq_some {cs rest : List Char} {n : Numeral}
    (h : scan? cs = some (n, rest)) : StartsWith cs n.value := by
  obtain ⟨hn, hchars⟩ := wellFormed_of_scan? h
  have hlongest : IsLongest numeral cs n.chars := by
    refine ⟨mem_numeral_iff.mpr ⟨n, hn, rfl⟩, ⟨rest, hchars⟩, ?_⟩
    rintro _ hother ⟨more, rfl⟩
    obtain ⟨n', hn', rfl⟩ := mem_numeral_iff.mp hother
    obtain ⟨m, rest', hscan, hlength⟩ := hn'.exists_scan? more
    rw [h] at hscan
    cases hscan
    exact hlength
  exact .numeral hlongest (parseNumeric?_chars hn)

/-- **Casts read the longest numeral at the start,** behind the leading blanks. -/
theorem exists_startsWith (s : String) : ∃ before rest, before ++ rest = s.toList ∧
    before ∈ blank∗ ∧ (∀ c ∈ rest.head?, [c] ∉ blank) ∧ StartsWith rest (numericHead s) := by
  obtain ⟨before, htext, hbefore, hrest⟩ := exists_trimLeft isNumericBlank s.toList
  refine ⟨before, _, htext, mem_blanks_iff.mpr hbefore, ?_, ?_⟩
  · intro c hc hblank
    rw [singleton_mem_blank_iff, hrest c hc] at hblank
    cases hblank
  · unfold numericHead
    split
    · next hscan => exact startsWith_of_scan?_eq_some hscan
    · next hscan => exact startsWith_of_scan?_eq_none hscan

/-- **Both readers agree on numeric strings.** -/
theorem numericHead_of_parseNumeric? {s : String} {m : Number} (h : parseNumeric? s = some m) :
    numericHead s = m := by
  obtain ⟨before, after, n, hbefore, hafter, hn, htext, rfl⟩ := parseNumeric?_eq_some_iff.mp h
  have hhead : ∀ c ∈ (n.chars ++ after).head?, isNumericBlank c = false := by
    intro c hc
    rw [List.head?_append_of_ne_nil _ hn.chars_ne_nil] at hc
    exact hn.not_blank c (List.mem_of_head? hc)
  have hread : scan? (trimLeft isNumericBlank s.toList) = some (n, after) := by
    rw [← htext, trimLeft_append hbefore hhead]
    exact hn.scan?_append (ends_of_blanks hafter)
  rw [numericHead, hread]

/-! ## Integers -/

/-- Digits behind a sign, with blanks around them and no point or exponent, and the integer that
they count. -/
inductive SpellsInteger : List Char → Int → Prop
  | intro {before mark after : List Char} {ds : List Nat} : before ∈ blank∗ →
      mark ∈ NumericGrammar.sign → ds ≠ [] → (∀ d ∈ ds, d < 10) → after ∈ blank∗ →
      SpellsInteger (before ++ ((mark ++ ds.map Nat.digitChar) ++ after))
        (if mark = ['-'] then -(Nat.ofDigits 10 ds.reverse : Nat)
          else (Nat.ofDigits 10 ds.reverse : Nat))

theorem exists_digitChars {cs : List Char} (h : ∀ c ∈ cs, c.isDigit = true) :
    ∃ ds : List Nat, (∀ d ∈ ds, d < 10) ∧ ds.map Nat.digitChar = cs := by
  induction cs with
  | nil => exact ⟨[], nofun, rfl⟩
  | cons c cs ih =>
      rw [List.forall_mem_cons] at h
      obtain ⟨ds, hds, rfl⟩ := ih h.2
      have hin : isDigitIn 10 c = true := by
        rw [isDigitIn, digitIn?_of_isDigit h.1]
        rfl
      obtain ⟨d, hd⟩ := exists_spellsDigit hin
      refine ⟨d :: ds, List.forall_mem_cons.mpr ⟨hd.1, hds⟩, ?_⟩
      rw [List.map_cons, ← hd.toLower_eq (by decide), toLower_of_isDigit h.1]

theorem value_eq_int_iff {n : Numeral} {i : Int64} : n.value = .int i ↔
    n.fraction = none ∧ n.exponent = none ∧ integerIn? 10 (isMinus n.sign) n.whole = some i := by
  unfold value isIntegral
  cases n.fraction with
  | some ds => simp
  | none =>
      cases n.exponent with
      | some e => simp
      | none => cases integerIn? 10 (isMinus n.sign) n.whole <;> simp

theorem isMinus_iff {mark : Option Char} : isMinus mark = true ↔ signChars mark = ['-'] := by
  cases mark <;> simp [isMinus, signChars]

/-- **A numeric string is an integer exactly if it has neither point nor exponent and fits.** -/
theorem parseNumeric?_eq_int_iff {s : String} {i : Int64} :
    parseNumeric? s = some (.int i) ↔ SpellsInteger s.toList i.toInt := by
  rw [parseNumeric?_eq_some_iff]
  constructor
  · rintro ⟨before, after, n, hbefore, hafter, hn, htext, hvalue⟩
    obtain ⟨hfraction, hexponent, hinteger⟩ := value_eq_int_iff.mp hvalue
    obtain ⟨ds, hds, hwhole⟩ := exists_digitChars hn.whole
    have hne : ds ≠ [] := by
      rintro rfl
      have hnonempty := hn.nonempty
      simp [← hwhole, hfraction] at hnonempty
    rw [← hwhole, integerIn?_digitChars (by decide) hds, fit64?_eq_some_iff] at hinteger
    simp only [isMinus_iff] at hinteger
    have hchars : n.chars = signChars n.sign ++ ds.map Nat.digitChar := by
      simp [chars, hfraction, hexponent, fractionChars, exponentChars, hwhole]
    rw [← htext, hchars, ← hinteger]
    exact .intro (mem_blanks_iff.mpr hbefore) (mem_sign_iff.mpr ⟨_, hn.sign, rfl⟩) hne hds
      (mem_blanks_iff.mpr hafter)
  · intro h
    generalize htext : s.toList = cs at h
    generalize hvalue : i.toInt = v at h
    cases h with
    | @intro before mark after ds hbefore hmark hne hds hafter =>
        obtain ⟨sign, hsign, rfl⟩ := mem_sign_iff.mp hmark
        have hdigits := isDigit_digitChars hds
        have hn : WellFormed ⟨sign, ds.map Nat.digitChar, none, none⟩ :=
          ⟨hsign, hdigits, by simp, .inl (by simpa using hne), by simp⟩
        refine ⟨before, after, _, mem_blanks_iff.mp hbefore, mem_blanks_iff.mp hafter, hn, ?_, ?_⟩
        · simp [chars, fractionChars, exponentChars]
        · rw [value_eq_int_iff]
          refine ⟨rfl, rfl, ?_⟩
          rw [integerIn?_digitChars (by decide) hds, fit64?_eq_some_iff, hvalue]
          simp only [isMinus_iff]

/-! ## The text of an integer -/

/-- The decimal text of an integer spells it. -/
theorem spellsInteger_intDigits (n : Int) : SpellsInteger (intDigits n) n := by
  obtain ⟨ds, hne, hds, hdigits, hvalue⟩ := exists_digits_toDigits n.natAbs
  have hspells {mark : List Char} (hmark : mark ∈ NumericGrammar.sign) :
      SpellsInteger (mark ++ ds.map Nat.digitChar)
        (if mark = ['-'] then -(n.natAbs : Int) else n.natAbs) := by
    have hnil : [] ∈ blank∗ := Language.nil_mem_kstar blank
    have hintro := SpellsInteger.intro hnil hmark hne hds hnil
    rwa [List.nil_append, List.append_nil, hvalue] at hintro
  unfold intDigits
  rw [hdigits]
  split
  · next hneg =>
      have hminus := hspells (mem_sign_iff.mpr ⟨some '-', by simp [isSign], rfl⟩)
      rwa [signChars, if_pos rfl, show -(n.natAbs : Int) = n by omega] at hminus
  · next hpos =>
      have hplain := hspells (mem_sign_iff.mpr ⟨none, by simp, rfl⟩)
      rwa [signChars, if_neg (by simp), show (n.natAbs : Int) = n by omega] at hplain

/-- Digits without leading zeros, behind a minus unless they are zero, are read as they are. -/
theorem readInt?_digits {negative : Bool} {digits : List Char} (hne : digits ≠ [])
    (hdigits : ∀ c ∈ digits, c.isDigit = true) (hzero : digits = ['0'] ∨ digits.head? ≠ some '0')
    (hminus : negative = true → digits ≠ ['0']) :
    readInt? ((if negative then ['-'] else []) ++ digits) = integerIn? 10 negative digits := by
  have hcanonical : (!digits.isEmpty && digits.all Char.isDigit
      && (digits == ['0'] || digits.head? != some '0')
      && !(negative && digits == ['0'])) = true := by
    have hall : digits.all Char.isDigit = true := List.all_eq_true.mpr hdigits
    cases negative <;> simp_all
  unfold readInt?
  split
  next negative' digits' hsplit =>
    obtain ⟨rfl, rfl⟩ : negative = negative' ∧ digits = digits' := by
      cases negative with
      | true => exact Prod.mk.inj hsplit
      | false =>
          rw [if_neg nofun, List.nil_append] at hsplit
          split at hsplit
          · cases hdigits '-' List.mem_cons_self
          · exact Prod.mk.inj hsplit
    rw [hcanonical, if_pos rfl]

/-- Keys read the decimal text of an integer as that integer. -/
theorem readInt?_intDigits (n : Int64) : readInt? (intDigits n.toInt) = some n := by
  obtain ⟨ds, hne, hds, hdigits, hvalue⟩ := exists_digits_toDigits n.toInt.natAbs
  have hdigit : ∀ c ∈ Nat.toDigits 10 n.toInt.natAbs, c.isDigit = true := by
    rw [hdigits]
    exact isDigit_digitChars hds
  have hread {negative : Bool} (hminus : negative = true → n.toInt.natAbs ≠ 0) :
      readInt? ((if negative then ['-'] else []) ++ Nat.toDigits 10 n.toInt.natAbs) =
        fit64? (if negative then -(n.toInt.natAbs : Int) else n.toInt.natAbs) := by
    rw [readInt?_digits (by simpa [hdigits] using hne) hdigit (toDigits_cases _)]
    · rw [hdigits, integerIn?_digitChars (by decide) hds, hvalue]
    · intro hnegative hzero
      have hhead := head?_toDigits_ne_zero (hminus hnegative)
      rw [hzero] at hhead
      exact hhead rfl
  unfold intDigits
  split
  · next hneg =>
      have hnegative := hread fun _ : true = true => by omega
      rw [if_pos rfl, if_pos rfl, show -(n.toInt.natAbs : Int) = n.toInt by omega] at hnegative
      rw [← fit64?_toInt n, ← hnegative]
      rfl
  · next hpos =>
      have hplain := hread (nofun : false = true → _)
      rw [if_neg nofun, if_neg nofun, show (n.toInt.natAbs : Int) = n.toInt by omega] at hplain
      rw [← fit64?_toInt n, ← hplain]
      rfl

/-- **Numeric strings are their grammar, and all readers agree.**  A string is read as a number
exactly if it is a numeric string, and as an integer exactly if it spells one that fits.
Casts read the longest numeral behind the leading blanks, which on numeric strings is the
same number; and the decimal text of every integer is that integer to all readers. -/
theorem numeric_strings_are_their_grammar (s : String) :
    ((∃ m, parseNumeric? s = some m) ↔ s.toList ∈ numericText) ∧
    (∀ i, parseNumeric? s = some (.int i) ↔ SpellsInteger s.toList i.toInt) ∧
    (∃ before rest m, before ++ rest = s.toList ∧ before ∈ blank∗ ∧
      (∀ c ∈ rest.head?, [c] ∉ blank) ∧ StartsWith rest m ∧
      (Value.str s).toInt? = some m.toInt ∧ (Value.str s).toFloat? = some m.toFloat) ∧
    (∀ m, parseNumeric? s = some m →
      (Value.str s).toInt? = some m.toInt ∧ (Value.str s).toFloat? = some m.toFloat) ∧
    (∀ n : Int64, parseNumeric? (intText n) = some (.int n) ∧
      (Value.str (intText n)).toInt? = some n ∧ Key.ofString (intText n) = .int n) := by
  have hcast {s : String} {m : Number} (h : parseNumeric? s = some m) :
      (Value.str s).toInt? = some m.toInt ∧ (Value.str s).toFloat? = some m.toFloat := by
    rw [← numericHead_of_parseNumeric? h]
    exact ⟨rfl, rfl⟩
  refine ⟨exists_parseNumeric?_iff, fun i => parseNumeric?_eq_int_iff, ?_, fun m => hcast, ?_⟩
  · obtain ⟨before, rest, htext, hbefore, hrest, hstart⟩ := exists_startsWith s
    exact ⟨before, rest, _, htext, hbefore, hrest, hstart, rfl, rfl⟩
  · intro n
    have hread : parseNumeric? (intText n) = some (.int n) := by
      rw [parseNumeric?_eq_int_iff, intText, String.toList_ofList]
      exact spellsInteger_intDigits n.toInt
    refine ⟨hread, (hcast hread).1, ?_⟩
    rw [Key.ofString, intText, String.toList_ofList, readInt?_intDigits]

/-- An integer with blanks around it. -/
theorem padded_integer_is_read : parseNumeric? " -12\n" = some (.int (-12)) ∧
    (Value.str " -12\n").toInt? = some (-12) := by
  obtain ⟨-, -, -, hcast, -⟩ := numeric_strings_are_their_grammar " -12\n"
  have hread : parseNumeric? " -12\n" = some (.int (-12)) := rfl
  exact ⟨hread, (hcast _ hread).1⟩

end GuardedExpr
