/-
# Integer texts — how integers are written, and what they mean

    12_500              decimal, with no zero in front of more digits
    0xFf  0b1_0  0o17   behind the letter of a base, in either case
    017                 octal behind a zero

`IntegerText base ds text` says that the text spells the digits `ds`, the most
significant in front, in one of these ways.  The scanner takes it for an integer
(`IntegerText.readAs`).  The evaluator takes the marks out and the letters down before
it looks for the base, so it splits another text than the scanner did; that both mean
the same digits is `IntegerText.splitBase_eq`.  Their value is then computed by
Horner's rule, with the limit of 64 bits in between (`IntegerText.exists_ofInteger`).
-/
import GuardedExpr.Proofs.Numerals
import GuardedExpr.Proofs.Rescanning
import GuardedExpr.Token.Constant
import Mathlib.Data.List.TakeWhile
import Mathlib.Data.Nat.Digits.Lemmas

namespace GuardedExpr

open Text Lexeme

/-! ## How integers are written -/

/-- The character is the digit `d` of the base, in either case. -/
def SpellsDigit (base d : Nat) (c : Char) : Prop :=
  d < base ∧ (c = d.digitChar ∨ c = d.digitChar.toUpper)

/-- Digits of the base, with at most one mark between two of them. -/
inductive DigitText (base : Nat) : List Nat → List Char → Prop
  | last {d : Nat} {c : Char} : SpellsDigit base d c → DigitText base [d] [c]
  | next {d : Nat} {c : Char} {ds : List Nat} {cs : List Char} :
      SpellsDigit base d c → DigitText base ds cs → DigitText base (d :: ds) (c :: cs)
  | mark {d : Nat} {c : Char} {ds : List Nat} {cs : List Char} :
      SpellsDigit base d c → DigitText base ds cs → DigitText base (d :: ds) (c :: '_' :: cs)

/-- An integer: decimal, behind the letter of its base, or octal behind a zero. -/
inductive IntegerText : (base : Nat) → List Nat → List Char → Prop
  | decimal {ds : List Nat} {cs : List Char} : DigitText 10 ds cs →
      ds = [0] ∨ ds.head? ≠ some 0 → IntegerText 10 ds cs
  | marked {base : Nat} {letter : Char} {ds : List Nat} {cs : List Char} :
      (base, letter) ∈ [(16, 'x'), (16, 'X'), (2, 'b'), (2, 'B'), (8, 'o'), (8, 'O')] →
      DigitText base ds cs → IntegerText base ds ('0' :: letter :: cs)
  | octal {ds : List Nat} {cs : List Char} : ds ≠ [] → DigitText 8 (0 :: ds) cs →
      IntegerText 8 (0 :: ds) cs

/-- The value of an integer: an integer while it fits in 64 bits, and a float beyond. -/
inductive IsNumber (n : Nat) : Value → Prop
  | int {i : Int64} : i.toInt = n → IsNumber n (.int i)
  | float {x : Float} : Int64.maxValue.toInt < n → IsNumber n (.float x)

/-! ## Digits -/

/-- A decimal digit as the readers see it. -/
theorem digitIn?_of_isDigit {c : Char} (h : c.isDigit = true) :
    digitIn? 10 c = some (c.toNat - '0'.toNat) := by
  have hlt : c.toNat - 48 < 10 := by
    simp only [Char.isDigit, Bool.and_eq_true, decide_eq_true_eq, ge_iff_le,
      UInt32.le_iff_toNat_le] at h
    have hle : c.toNat ≤ 57 := h.2
    omega
  simp [digitIn?, digitValue, h, hlt]

section SpellsDigit

variable {base d : Nat} {c : Char}

/-- What holds of the sixteen digits in both cases. -/
theorem SpellsDigit.elim {p : Nat → Char → Bool}
    (hp : ∀ d < 16, (p d d.digitChar && p d d.digitChar.toUpper) = true) (hbase : base ≤ 16)
    (h : SpellsDigit base d c) : p d c = true := by
  have hd := hp d (Nat.lt_of_lt_of_le h.1 hbase)
  rw [Bool.and_eq_true] at hd
  rcases h.2 with rfl | rfl
  · exact hd.1
  · exact hd.2

theorem SpellsDigit.isAlphanum (hbase : base ≤ 16) (h : SpellsDigit base d c) :
    c.isAlphanum = true :=
  h.elim (p := fun _ c => c.isAlphanum) (by decide) hbase

theorem SpellsDigit.ne_mark (hbase : base ≤ 16) (h : SpellsDigit base d c) : c ≠ '_' := by
  rintro rfl
  cases h.isAlphanum hbase

/-- In lower case there is one character for each digit. -/
theorem SpellsDigit.toLower_eq (hbase : base ≤ 16) (h : SpellsDigit base d c) :
    c.toLower = d.digitChar :=
  beq_iff_eq.mp (h.elim (p := fun d c => c.toLower == d.digitChar) (by decide) hbase)

theorem SpellsDigit.digitIn?_eq (hbase : base ≤ 16) (h : SpellsDigit base d c) :
    digitIn? base c = some d := by
  have hvalue : digitValue c = some d :=
    beq_iff_eq.mp (h.elim (p := fun d c => digitValue c == some d) (by decide) hbase)
  simp [digitIn?, hvalue, h.1]

theorem SpellsDigit.isDigitIn (hbase : base ≤ 16) (h : SpellsDigit base d c) :
    isDigitIn base c = true := by
  rw [Text.isDigitIn, h.digitIn?_eq hbase]
  rfl

/-- A digit of a base up to ten is one of a decimal number. -/
theorem SpellsDigit.isDigit (hbase : base ≤ 10) (h : SpellsDigit base d c) : c.isDigit = true := by
  have hsmall := h.elim (p := fun d c => decide (10 ≤ d) || c.isDigit) (by decide)
    (Nat.le_trans hbase (by decide))
  have hd : ¬ 10 ≤ d := Nat.not_le_of_lt (Nat.lt_of_lt_of_le h.1 hbase)
  simpa [hd] using hsmall

theorem SpellsDigit.eq_zero (hbase : base ≤ 16) (h : SpellsDigit base d '0') : d = 0 := by
  have hd := h.digitIn?_eq hbase
  have hzero : digitIn? base '0' = some 0 := by
    have hpos : 0 < base := Nat.zero_lt_of_lt h.1
    simp [digitIn?, digitValue, hpos]
  exact Option.some.inj (hd.symm.trans hzero)

end SpellsDigit

theorem isDigit_digitChars {ds : List Nat} (h : ∀ d ∈ ds, d < 10) :
    ∀ c ∈ ds.map Nat.digitChar, c.isDigit = true := by
  intro c hc
  obtain ⟨d, hd, rfl⟩ := List.mem_map.mp hc
  have hspelt : SpellsDigit 10 d d.digitChar := ⟨h d hd, .inl rfl⟩
  exact hspelt.isDigit (by decide)

/-! ## Texts of digits -/

section DigitText

variable {base : Nat} {ds : List Nat} {cs : List Char}

/-- Digits without marks. -/
theorem digitText_digitChars (hne : ds ≠ []) (h : ∀ d ∈ ds, d < base) :
    DigitText base ds (ds.map Nat.digitChar) := by
  induction ds with
  | nil => exact absurd rfl hne
  | cons d ds ih =>
      rw [List.forall_mem_cons] at h
      have hd : SpellsDigit base d d.digitChar := ⟨h.1, .inl rfl⟩
      cases ds with
      | nil => exact .last hd
      | cons => exact .next hd (ih nofun h.2)

theorem DigitText.lt (h : DigitText base ds cs) : ∀ d ∈ ds, d < base := by
  induction h with
  | last hd => simpa using hd.1
  | next hd _ ih | mark hd _ ih =>
      rw [List.forall_mem_cons]
      exact ⟨hd.1, ih⟩

/-- A text of digits starts with the first of them, and ends with it if there are no more. -/
theorem DigitText.exists_cons (h : DigitText base ds cs) :
    ∃ d c ds' cs', ds = d :: ds' ∧ cs = c :: cs' ∧ SpellsDigit base d c ∧ (ds' = [] ↔ cs' = []) := by
  cases h with
  | last hd => exact ⟨_, _, _, _, rfl, rfl, hd, by simp⟩
  | next hd hmore =>
      refine ⟨_, _, _, _, rfl, rfl, hd, ?_⟩
      constructor
      · rintro rfl
        cases hmore
      · rintro rfl
        cases hmore
  | mark hd hmore =>
      refine ⟨_, _, _, _, rfl, rfl, hd, ?_⟩
      constructor
      · rintro rfl
        cases hmore
      · intro hnil
        cases hnil

/-- What holds of digits and of the mark holds of the whole text. -/
theorem DigitText.forall_mem {p : Char → Prop} (h : DigitText base ds cs)
    (hdigit : ∀ d c, SpellsDigit base d c → p c) (hmark : p '_') : ∀ c ∈ cs, p c := by
  induction h with
  | last hd => simpa using hdigit _ _ hd
  | next hd _ ih =>
      rw [List.forall_mem_cons]
      exact ⟨hdigit _ _ hd, ih⟩
  | mark hd _ ih =>
      rw [List.forall_mem_cons, List.forall_mem_cons]
      exact ⟨hdigit _ _ hd, hmark, ih⟩

theorem DigitText.digit_or_mark (hbase : base ≤ 16) (h : DigitText base ds cs) :
    ∀ c ∈ cs, (c == '_' || isDigitIn base c) = true := by
  refine h.forall_mem (fun d c hd => ?_) rfl
  rw [hd.isDigitIn hbase, Bool.or_true]

theorem DigitText.isDigitOrMark (hbase : base ≤ 10) (h : DigitText base ds cs) :
    ∀ c ∈ cs, isDigitOrMark c = true := by
  refine h.forall_mem (fun d c hd => ?_) rfl
  rw [Lexeme.isDigitOrMark, hd.isDigit hbase, Bool.true_or]

/-- Marks stand between two digits, whatever stands in front. -/
theorem DigitText.marksSeparate (hbase : base ≤ 16) (h : DigitText base ds cs)
    (before : Option Char) : marksSeparate before cs = true := by
  induction h generalizing before with
  | last hd => simp [Lexeme.marksSeparate, hd.ne_mark hbase]
  | next hd _ ih => simp [Lexeme.marksSeparate, hd.ne_mark hbase, ih]
  | mark hd hmore ih =>
      have htail := ih (some '_')
      obtain ⟨d, c, ds, cs, -, rfl, hnext, -⟩ := hmore.exists_cons
      rw [Lexeme.marksSeparate, Lexeme.marksSeparate, htail]
      simp [hd.ne_mark hbase, hd.isAlphanum hbase, hnext.isAlphanum hbase]

/-- What is left when marks are taken out and letters put in lower case. -/
theorem DigitText.filter_map (hbase : base ≤ 16) (h : DigitText base ds cs) :
    (cs.filter (· != '_')).map Char.toLower = ds.map Nat.digitChar := by
  induction h with
  | last hd => simp [hd.ne_mark hbase, hd.toLower_eq hbase]
  | next hd _ ih | mark hd _ ih => simp [hd.ne_mark hbase, hd.toLower_eq hbase, ih]

end DigitText

/-! ## What the scanner takes -/

/-- No digit or mark is the letter of a base. -/
theorem radix?_of_isDigitOrMark {cs : List Char} (h : ∀ c ∈ cs, isDigitOrMark c = true) :
    radix? cs = none := by
  unfold radix?
  split
  · next c cs =>
      have hletter : ∀ x : Char, isDigitOrMark x = false → (c == x) = false := by
        intro x hx
        refine beq_eq_false_iff_ne.mpr ?_
        rintro rfl
        exact Bool.false_ne_true (hx.symm.trans (h c (by simp)))
      simp [hletter 'x' rfl, hletter 'X' rfl, hletter 'b' rfl, hletter 'B' rfl, hletter 'o' rfl,
        hletter 'O' rfl]
  · rfl

/-- Digits with marks between them are an integer unless a zero leads them. -/
theorem number_of_isDigitOrMark {cs : List Char} (h : ∀ c ∈ cs, isDigitOrMark c = true)
    (hmarks : marksSeparate none cs = true) (hoctal : octalInOrder cs = true) :
    number cs = .ok (.lexeme .integer cs) := by
  have hwhole : cs.takeWhile isDigitOrMark = cs := List.takeWhile_eq_self_iff.mpr h
  rw [number, radix?_of_isDigitOrMark h]
  dsimp only
  unfold decimalNumber
  dsimp only
  rw [hwhole, List.drop_length]
  simp [fractionText, exponentText, hmarks, hoctal]

section Scanned

variable {base : Nat} {ds : List Nat} {text : List Char}

theorem IntegerText.base_le (h : IntegerText base ds text) : 2 ≤ base ∧ base ≤ 16 := by
  cases h with
  | decimal | octal => decide
  | marked hletter =>
      simp only [List.mem_cons, Prod.mk.injEq, List.not_mem_nil, or_false] at hletter
      omega

/-- Decimal digits are an integer unless a zero stands in front of more. -/
theorem DigitText.integerText (h : DigitText 10 ds text)
    (hzero : text = ['0'] ∨ text.head? ≠ some '0') : IntegerText 10 ds text := by
  refine .decimal h ?_
  obtain ⟨d, c, ds, cs, rfl, rfl, hd, hend⟩ := h.exists_cons
  by_cases hdzero : d = 0
  · subst hdzero
    have hc : c = '0' := hd.2.elim id id
    obtain rfl : cs = [] := by simpa [hc] using hzero
    exact .inl (congrArg (0 :: ·) (hend.mpr rfl))
  · exact .inr (by simpa using hdzero)

/-- A decimal number starts with a zero only if it is zero. -/
theorem octalInOrder_of_digitText (h : DigitText 10 ds text)
    (hzero : ds = [0] ∨ ds.head? ≠ some 0) : octalInOrder text = true := by
  obtain ⟨d, c, ds, cs, rfl, rfl, hd, hend⟩ := h.exists_cons
  rcases hzero with hzero | hzero
  · obtain rfl := hend.mp (List.cons.inj hzero).2
    rfl
  · have hc : c ≠ '0' := by
      rintro rfl
      exact hzero (congrArg some (hd.eq_zero (by decide)))
    simp [octalInOrder, hc]

/-- **The texts of integers are integers to the scanner.** -/
theorem IntegerText.number_eq (h : IntegerText base ds text) :
    number text = .ok (.lexeme .integer text) := by
  cases h with
  | decimal hds hzero =>
      exact number_of_isDigitOrMark (hds.isDigitOrMark (by decide))
        (hds.marksSeparate (by decide) none) (octalInOrder_of_digitText hds hzero)
  | octal _ hds =>
      refine number_of_isDigitOrMark (hds.isDigitOrMark (by decide))
        (hds.marksSeparate (by decide) none) ?_
      rw [octalInOrder, List.all_eq_true.mpr (hds.digit_or_mark (by decide)), Bool.or_true]
  | @marked _ letter ds cs hletter hds =>
      have hradix : radix? ('0' :: letter :: cs) = some base := by
        simp only [List.mem_cons, Prod.mk.injEq, List.not_mem_nil, or_false] at hletter
        rcases hletter with ⟨rfl, rfl⟩ | ⟨rfl, rfl⟩ | ⟨rfl, rfl⟩ | ⟨rfl, rfl⟩ | ⟨rfl, rfl⟩ |
          ⟨rfl, rfl⟩ <;> rfl
      have hbase : base ≤ 16 := (IntegerText.marked hletter hds).base_le.2
      have hname : ∀ c ∈ cs, isNameChar c = true := by
        refine hds.forall_mem (fun d c hd => ?_) rfl
        have hc := hd.isAlphanum hbase
        rw [Char.isAlphanum, Bool.or_eq_true] at hc
        rcases hc with hc | hc <;> simp [isNameChar, isNameStart, hc]
      have hwhole : cs.takeWhile isNameChar = cs := List.takeWhile_eq_self_iff.mpr hname
      have hne : cs.isEmpty = false := by
        obtain ⟨-, c, -, cs, -, rfl, -, -⟩ := hds.exists_cons
        rfl
      rw [number, hradix]
      dsimp only
      rw [radixNumber, show ('0' :: letter :: cs).drop 2 = cs from rfl, hwhole]
      simp [hne, hds.marksSeparate hbase none, List.all_eq_true.mpr (hds.digit_or_mark hbase)]

theorem IntegerText.readAs (h : IntegerText base ds text) :
    ReadAs text (.lexeme .integer text) := by
  have hnumber := h.number_eq
  obtain ⟨c, cs, rfl, hc⟩ : ∃ c cs, text = c :: cs ∧ c.isDigit = true := by
    cases h with
    | decimal hds | octal _ hds =>
        obtain ⟨d, c, -, cs, -, rfl, hd, -⟩ := hds.exists_cons
        exact ⟨c, cs, rfl, hd.isDigit (by decide)⟩
    | marked => exact ⟨'0', _, rfl, rfl⟩
  exact .numeral (by rw [hc, Bool.true_or]) hnumber

end Scanned

/-! ## What the digits count -/

/-- Leading zeros count for nothing, in whatever base. -/
theorem numberIn_significant (base : Nat) (ds : List Char) :
    numberIn base (significant ds) = numberIn base ds := by
  induction ds with
  | nil => rfl
  | cons c ds ih =>
      by_cases hc : c = '0'
      · subst hc
        have hzero : withDigit base 0 '0' = 0 := by
          cases base <;> simp [withDigit, digitIn?, digitValue, Option.filter]
        rw [numberIn, numberIn, List.foldl_cons, hzero]
        exact ih
      · rw [significant, List.dropWhile_cons_of_neg (by simpa using hc)]

section Value

variable {base : Nat} {ds : List Nat}

/-- Horner's rule over the digits gives their positional value. -/
theorem numberIn_digitChars (hbase : base ≤ 16) (h : ∀ d ∈ ds, d < base) :
    numberIn base (ds.map Nat.digitChar) = Nat.ofDigits base ds.reverse := by
  induction ds using List.reverseRecOn with
  | nil => rfl
  | append_singleton ds d ih =>
      rw [List.forall_mem_append, List.forall_mem_singleton] at h
      have hd : digitIn? base d.digitChar = some d :=
        SpellsDigit.digitIn?_eq hbase ⟨h.2, .inl rfl⟩
      have hmore := ih h.1
      rw [numberIn] at hmore
      rw [numberIn, List.map_append, List.foldl_append, hmore, List.reverse_append,
        List.reverse_singleton, List.singleton_append, Nat.ofDigits_cons, List.map_singleton,
        List.foldl_cons, List.foldl_nil, withDigit, hd, Option.getD_some]
      ring

theorem significant_digitChars (hbase : base ≤ 16) (h : ∀ d ∈ ds, d < base) :
    significant (ds.map Nat.digitChar) = (ds.dropWhile (· == 0)).map Nat.digitChar := by
  induction ds with
  | nil => rfl
  | cons d ds ih =>
      rw [List.forall_mem_cons] at h
      by_cases hd : d = 0
      · subst hd
        exact ih h.2
      · have hc : d.digitChar ≠ '0' := by
          intro hc
          have hspelt : SpellsDigit base d '0' := ⟨h.1, .inl hc.symm⟩
          exact hd (hspelt.eq_zero hbase)
        rw [significant, List.map_cons, List.dropWhile_cons_of_neg (by simpa using hc),
          List.dropWhile_cons_of_neg (by simpa using hd), List.map_cons]

/-- A number of more than 64 significant digits does not fit, in whatever base. -/
theorem two_pow_le_ofDigits (hbase : 2 ≤ base) (h : 64 < (ds.dropWhile (· == 0)).length) :
    2 ^ 64 ≤ Nat.ofDigits base (ds.dropWhile (· == 0)).reverse := by
  obtain ⟨b, rfl⟩ := Nat.exists_eq_add_of_le' hbase
  have hne : (ds.dropWhile (· == 0)).reverse ≠ [] := by
    intro hnil
    rw [List.reverse_eq_nil_iff] at hnil
    simp [hnil] at h
  have hlast : (ds.dropWhile (· == 0)).reverse.getLast hne ≠ 0 := by
    rw [List.getLast_reverse]
    simpa using List.head_dropWhile_not (· == 0) (mt List.reverse_eq_nil_iff.mpr hne)
  have hpow := Nat.pow_length_le_mul_ofDigits (b := b) hne hlast
  rw [List.length_reverse] at hpow
  have hlong : (b + 2) * (b + 2) ^ 64 ≤ (b + 2) ^ (ds.dropWhile (· == 0)).length := by
    rw [← Nat.pow_succ']
    exact Nat.pow_le_pow_right (by omega) h
  calc 2 ^ 64 ≤ (b + 2) ^ 64 := Nat.pow_le_pow_left (by omega) 64
    _ ≤ _ := Nat.le_of_mul_le_mul_left (hlong.trans hpow) (by omega)

/-- The evaluator finds the integer as long as it fits, with either sign. -/
theorem integerIn?_digitChars (hbase : 2 ≤ base ∧ base ≤ 16) (h : ∀ d ∈ ds, d < base)
    (negative : Bool) :
    integerIn? base negative (ds.map Nat.digitChar) =
      fit64? (if negative then -(Nat.ofDigits base ds.reverse : Nat)
        else (Nat.ofDigits base ds.reverse : Nat)) := by
  have hvalue := numberIn_significant base (ds.map Nat.digitChar)
  rw [numberIn_digitChars hbase.2 h] at hvalue
  unfold integerIn?
  dsimp only
  rw [hvalue]
  split
  · next hlong =>
      rw [significant_digitChars hbase.2 h] at hlong hvalue
      have hsignificant : ∀ d ∈ ds.dropWhile (· == 0), d < base :=
        fun d hd => h d ((List.dropWhile_suffix _).mem hd)
      rw [numberIn_digitChars hbase.2 hsignificant] at hvalue
      have hlarge := two_pow_le_ofDigits hbase.1 (by simpa using hlong)
      rw [hvalue] at hlarge
      rw [fit64?, Int64.toInt_minValue, Int64.toInt_maxValue, if_neg]
      split <;> omega
  · rfl

theorem scanSign_digitChars (hbase : base ≤ 16) (h : ∀ d ∈ ds, d < base) :
    Numeral.scanSign (ds.map Nat.digitChar) = (none, ds.map Nat.digitChar) := by
  cases ds with
  | nil => rfl
  | cons d ds =>
      have hd : SpellsDigit base d d.digitChar := ⟨h d List.mem_cons_self, .inl rfl⟩
      have hsign : Numeral.isSign d.digitChar = false := by
        have hnone := hd.elim (p := fun _ c => !Numeral.isSign c) (by decide) hbase
        simpa using hnone
      rw [List.map_cons, Numeral.scanSign, hsign]
      rfl

/-- Reading digits of the base gives the integer, or finds it too large. -/
theorem readInteger_digitChars (hbase : 2 ≤ base ∧ base ≤ 16) (h : ∀ d ∈ ds, d < base)
    (hne : ds ≠ []) :
    Constant.readInteger base (ds.map Nat.digitChar) =
      match fit64? (Nat.ofDigits base ds.reverse : Nat) with
      | some n => .fits n
      | none => .tooLarge := by
  have hspelt : (ds.map Nat.digitChar).takeWhile (isDigitIn base) = ds.map Nat.digitChar := by
    refine List.takeWhile_eq_self_iff.mpr fun c hc => ?_
    obtain ⟨d, hd, rfl⟩ := List.mem_map.mp hc
    exact SpellsDigit.isDigitIn hbase.2 ⟨h d hd, .inl rfl⟩
  have hempty : (ds.map Nat.digitChar).isEmpty = false := by simpa using hne
  have hfits : integerIn? base false (ds.map Nat.digitChar) =
      fit64? (Nat.ofDigits base ds.reverse : Nat) := by
    simpa using integerIn?_digitChars hbase h false
  unfold Constant.readInteger
  rw [scanSign_digitChars hbase.2 h]
  dsimp only
  rw [hspelt, hempty, show Numeral.isMinus none = false from rfl, hfits]
  cases fit64? (Nat.ofDigits base ds.reverse : Nat) with
  | some n => simp
  | none => rfl

/-- A number that fits is an integer. -/
theorem isNumber_of_fit64 {n : Nat} {i : Int64} (h : fit64? n = some i) : IsNumber n (.int i) :=
  .int (toInt_of_fit64? h)

theorem lt_of_fit64_eq_none {n : Nat} (h : fit64? n = none) : Int64.maxValue.toInt < n := by
  by_contra hle
  rw [Int64.toInt_maxValue] at hle
  obtain ⟨i, hi⟩ := exists_fit64? (n := n) (by omega) (by omega)
  rw [hi] at h
  cases h

end Value

/-! ### Numbers that are too large -/

section TooLarge

variable {base : Nat} {ds : List Nat}

/-- Digits of any base are read as a float digit by digit. -/
theorem exists_floatInBase (hbase : base ≤ 16) (h : ∀ d ∈ ds, d < base) :
    ∃ x, Constant.floatInBase? base (ds.map Nat.digitChar) = some x := by
  suffices hall : ∀ x : Float, ∃ y, (ds.map Nat.digitChar).foldlM (fun x c =>
      (digitIn? base c).map fun d => x * base.toFloat + d.toFloat) x = some y from hall 0
  induction ds with
  | nil => exact fun x => ⟨x, rfl⟩
  | cons d ds ih =>
      intro x
      rw [List.forall_mem_cons] at h
      have hd : digitIn? base d.digitChar = some d :=
        SpellsDigit.digitIn?_eq hbase ⟨h.1, .inl rfl⟩
      rw [List.map_cons, List.foldlM_cons, hd]
      exact ih h.2 _

/-- Decimal digits are a numeral. -/
theorem readFloat?_digits {cs : List Char} (h : ∀ c ∈ cs, c.isDigit = true) (hne : cs ≠ []) :
    readFloat? cs = some (Numeral.toFloat ⟨none, cs, none, none⟩) := by
  have hwell : Numeral.WellFormed ⟨none, cs, none, none⟩ :=
    ⟨by simp, h, by simp, .inl hne, by simp⟩
  have hread := hwell.readFloat?_chars
  have hchars : Numeral.chars ⟨none, cs, none, none⟩ = cs := by
    simp [Numeral.chars, Numeral.signChars, Numeral.fractionChars, Numeral.exponentChars]
  rwa [hchars] at hread

end TooLarge

/-! ## What the evaluator reads -/

section Read

variable {base : Nat} {ds : List Nat} {text : List Char}

/-- Without a zero in front all digits are decimal. -/
theorem splitBase_of_head {cs : List Char} (h : cs.head? ≠ some '0') :
    Constant.splitBase cs = (10, cs) := by
  unfold Constant.splitBase
  split <;> first | rfl | exact absurd rfl h

/-- Digits behind a zero are octal. -/
theorem splitBase_octal {c : Char} (hc : c.isDigit = true) (cs : List Char) :
    Constant.splitBase ('0' :: c :: cs) = (8, c :: cs) := by
  unfold Constant.splitBase
  split
  · next heq =>
      cases heq
      cases hc
  · next heq =>
      cases heq
      cases hc
  · next heq =>
      cases heq
      cases hc
  · next heq => cases heq
  · next heq =>
      cases heq
      rfl
  · next hzero => exact absurd rfl (hzero _)

/-- **The scanner and the evaluator agree on the base.**  With the marks out and the letters down,
the text splits into its base and its digits; only a leading zero is gone. -/
theorem IntegerText.splitBase_eq (h : IntegerText base ds text) :
    ∃ es, Constant.splitBase ((Constant.withoutSeparators (String.ofList text)).map Char.toLower)
        = (base, es.map Nat.digitChar) ∧ es ≠ [] ∧ (∀ d ∈ es, d < base) ∧
      Nat.ofDigits base es.reverse = Nat.ofDigits base ds.reverse := by
  rw [Constant.withoutSeparators, String.toList_ofList]
  cases h with
  | decimal hds hzero =>
      rw [hds.filter_map (by decide)]
      obtain ⟨d, _, es, _, hcons, -, hd, -⟩ := hds.exists_cons
      refine ⟨ds, ?_, by simp [hcons], hds.lt, rfl⟩
      rcases hzero with rfl | hzero
      · rfl
      · have hstart : (ds.map Nat.digitChar).head? ≠ some '0' := by
          rw [hcons, List.map_cons]
          intro hhead
          have hspelt : SpellsDigit 10 d '0' := ⟨hd.1, .inl (Option.some.inj hhead).symm⟩
          exact hzero (by rw [hcons, hspelt.eq_zero (by decide)]; rfl)
        exact splitBase_of_head hstart
  | @octal es _ hne hds =>
      rw [hds.filter_map (by decide)]
      refine ⟨es, ?_, hne, fun d hd => hds.lt d (List.mem_cons_of_mem 0 hd), ?_⟩
      · obtain ⟨d, es, rfl⟩ := List.exists_cons_of_ne_nil hne
        have hd : SpellsDigit 8 d d.digitChar := ⟨hds.lt d (by simp), .inl rfl⟩
        exact splitBase_octal (hd.isDigit (by decide)) _
      · simp [Nat.ofDigits_append]
  | @marked _ letter ds cs hletter hds =>
      have hbase := (IntegerText.marked hletter hds).base_le.2
      obtain ⟨d, -, es, -, hcons, -, -, -⟩ := hds.exists_cons
      refine ⟨ds, ?_, by simp [hcons], hds.lt, rfl⟩
      have hdigits := hds.filter_map hbase
      simp only [List.mem_cons, Prod.mk.injEq, List.not_mem_nil, or_false] at hletter
      rcases hletter with ⟨rfl, rfl⟩ | ⟨rfl, rfl⟩ | ⟨rfl, rfl⟩ | ⟨rfl, rfl⟩ | ⟨rfl, rfl⟩ |
        ⟨rfl, rfl⟩ <;>
      · rw [← hdigits]
        rfl

/-- **The text of an integer is read as its value.** -/
theorem IntegerText.exists_ofInteger (h : IntegerText base ds text) :
    ∃ v, IsNumber (Nat.ofDigits base ds.reverse) v ∧
      Constant.ofInteger (String.ofList text) = .ok v := by
  obtain ⟨es, hsplit, hne, hlt, hvalue⟩ := h.splitBase_eq
  rw [← hvalue]
  have hreading := readInteger_digitChars h.base_le hlt hne
  unfold Constant.ofInteger
  rw [hsplit]
  dsimp only
  rw [hreading]
  cases hfits : fit64? (Nat.ofDigits base es.reverse : Nat) with
  | some i => exact ⟨.int i, isNumber_of_fit64 hfits, rfl⟩
  | none =>
      have hlarge := lt_of_fit64_eq_none hfits
      dsimp only
      split
      · next hten =>
          subst hten
          rw [Constant.readFloat, readFloat?_digits (isDigit_digitChars hlt) (by simpa using hne)]
          exact ⟨_, .float hlarge, rfl⟩
      · obtain ⟨x, hx⟩ := exists_floatInBase h.base_le.2 hlt
        rw [hx]
        exact ⟨_, .float hlarge, rfl⟩

end Read

end GuardedExpr
