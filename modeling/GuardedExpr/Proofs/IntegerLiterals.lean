/-
# Integer literals — every integer of a source has its positional value

The texts that `IntegerText` describes are literals: one token each, which denotes the
value of its digits.  They are also the only ones; whatever else the scanner takes for
an integer stands between the brackets behind an embedded variable.

The text that is printed for an integer is such a literal, or a minus in front of one.
The least integer is the exception, since the digits alone are too large.
-/
import GuardedExpr.Proofs.IntegerTexts
import GuardedExpr.Proofs.Literals
import GuardedExpr.Proofs.Separators

namespace GuardedExpr

open Text Lexeme

/-! ## What the scanner takes for an integer -/

section Scanned

variable {base d : Nat} {c : Char} {cs text : List Char}

/-- Digits are ASCII, so that a table of them can be gone through. -/
theorem toNat_lt_of_digitValue (h : digitValue c = some d) : c.toNat < 103 := by
  have hbound : c.isDigit = true ∨ ('a' ≤ c ∧ c ≤ 'f') ∨ ('A' ≤ c ∧ c ≤ 'F') := by
    by_contra hnone
    rw [not_or, not_or] at hnone
    simp [digitValue, hnone.1, hnone.2.1, hnone.2.2] at h
  simp only [Char.isDigit, Char.le_def, Bool.and_eq_true, decide_eq_true_eq, ge_iff_le,
    UInt32.le_iff_toNat_le] at hbound
  have hnine : '9'.val.toNat = 57 := rfl
  have hf : 'f'.val.toNat = 102 := rfl
  have hF : 'F'.val.toNat = 70 := rfl
  have hc : c.toNat = c.val.toNat := rfl
  rcases hbound with ⟨-, h⟩ | ⟨-, h⟩ | ⟨-, h⟩ <;> omega

/-- Every digit that the readers know is one. -/
theorem exists_spellsDigit (h : isDigitIn base c = true) : ∃ d, SpellsDigit base d c := by
  obtain ⟨d, hd⟩ := Option.isSome_iff_exists.mp h
  rw [digitIn?, Option.filter_eq_some_iff, decide_eq_true_eq] at hd
  obtain ⟨hvalue, hlt⟩ := hd
  have htable : ∀ n < 103, ∀ d ∈ digitValue (Char.ofNat n),
      Char.ofNat n = d.digitChar ∨ Char.ofNat n = d.digitChar.toUpper := by decide
  have hspelt := htable c.toNat (toNat_lt_of_digitValue hvalue) d
  rw [Char.ofNat_toNat] at hspelt
  exact ⟨d, hlt, hspelt hvalue⟩

/-- Behind other characters too, digits with single marks between them are a text of digits as
long as no mark starts it. -/
theorem exists_digitText_behind {before : Option Char}
    (hclass : ∀ c ∈ cs, (c == '_' || isDigitIn base c) = true)
    (hmarks : Lexeme.marksSeparate before cs = true) (hne : cs ≠ []) (hhead : cs.head? ≠ some '_') :
    ∃ ds, DigitText base ds cs := by
  have hdigit : ∀ {c}, c ≠ '_' → (c == '_' || isDigitIn base c) = true →
      ∃ d, SpellsDigit base d c := by
    intro c hc h
    rw [beq_eq_false_iff_ne.mpr hc, Bool.false_or] at h
    exact exists_spellsDigit h
  induction cs using List.twoStepInduction generalizing before with
  | nil => exact absurd rfl hne
  | singleton c =>
      obtain ⟨d, hd⟩ := hdigit (by simpa using hhead) (hclass c List.mem_cons_self)
      exact ⟨[d], .last hd⟩
  | cons_cons c b cs ih ih' =>
      obtain ⟨d, hd⟩ := hdigit (by simpa using hhead) (hclass c List.mem_cons_self)
      rw [List.forall_mem_cons, List.forall_mem_cons] at hclass
      obtain ⟨-, hb, hclass⟩ := hclass
      rw [Lexeme.marksSeparate, Bool.and_eq_true] at hmarks
      by_cases hmark : b = '_'
      · subst hmark
        obtain ⟨-, hmore⟩ := hmarks
        rw [Lexeme.marksSeparate, Bool.and_eq_true] at hmore
        obtain ⟨hbeside, hmore⟩ := hmore
        simp only [bne_self_eq_false, Bool.false_or, Bool.and_eq_true] at hbeside
        have hstart : cs ≠ [] ∧ cs.head? ≠ some '_' := by
          cases cs with
          | nil => cases hbeside.2
          | cons a cs =>
              refine ⟨List.cons_ne_nil _ _, ?_⟩
              rintro ⟨⟩
              cases hbeside.2
        obtain ⟨ds, hds⟩ := ih hclass hmore hstart.1 hstart.2
        exact ⟨d :: ds, .mark hd hds⟩
      · obtain ⟨ds, hds⟩ := ih' b (List.forall_mem_cons.mpr ⟨hb, hclass⟩) hmarks.2
          (List.cons_ne_nil _ _) (by simpa using hmark)
        exact ⟨d :: ds, .next hd hds⟩

theorem exists_digitText (hclass : ∀ c ∈ cs, (c == '_' || isDigitIn base c) = true)
    (hmarks : Lexeme.marksSeparate none cs = true) (hne : cs ≠ []) :
    ∃ ds, DigitText base ds cs := by
  refine exists_digitText_behind hclass hmarks hne fun hhead => ?_
  obtain ⟨more, rfl⟩ := List.head?_eq_some_iff.mp hhead
  simp [Lexeme.marksSeparate] at hmarks

/-- Behind the letter of a base stands a text of its digits. -/
theorem exists_integerText_radix (h : radixNumber base text = .ok (.lexeme .integer text))
    (hbase : radix? text = some base) : ∃ ds, IntegerText base ds text := by
  obtain ⟨c, digits, -, rfl, hradix⟩ := exists_isRadix hbase h
  have hne : digits ≠ [] := by
    rintro rfl
    cases h
  obtain ⟨ds, hds⟩ := exists_digitText hradix.digits hradix.marks hne
  exact ⟨ds, .marked hradix.letter hds⟩

/-- Digits and marks without such a letter are decimal or octal. -/
theorem exists_integerText_decimal (hdigits : ∀ c ∈ text, isDigitOrMark c = true)
    (hmarks : marksSeparate none text = true) (hoctal : octalInOrder text = true)
    (hne : text ≠ []) : ∃ base ds, IntegerText base ds text := by
  have hten : ∀ c ∈ text, (c == '_' || isDigitIn 10 c) = true := by
    intro c hc
    have hmark := hdigits c hc
    rw [isDigitOrMark, Bool.or_comm, Bool.or_eq_true] at hmark
    rw [Bool.or_eq_true]
    refine hmark.imp_right fun hdigit => ?_
    rw [isDigitIn, digitIn?_of_isDigit hdigit]
    rfl
  obtain ⟨ds, hds⟩ := exists_digitText hten hmarks hne
  obtain ⟨c, more, rfl⟩ := List.exists_cons_of_ne_nil hne
  by_cases hzero : c = '0' ∧ more ≠ []
  · obtain ⟨rfl, hmore⟩ := hzero
    have height : ∀ c ∈ '0' :: more, (c == '_' || isDigitIn 8 c) = true := by
      rw [← List.all_eq_true]
      simpa [octalInOrder, hmore] using hoctal
    obtain ⟨es, hes⟩ := exists_digitText height hmarks hne
    obtain ⟨d, c, es, cs, rfl, heq, hd, hend⟩ := hes.exists_cons
    obtain ⟨rfl, rfl⟩ := List.cons.inj heq
    obtain rfl := hd.eq_zero (by decide)
    exact ⟨8, 0 :: es, .octal (mt hend.mp hmore) hes⟩
  · have hstart : c :: more = ['0'] ∨ (c :: more).head? ≠ some '0' := by
      rw [not_and_or, not_not] at hzero
      rcases hzero with hc | rfl
      · exact .inr (by simpa using hc)
      · by_cases hc : c = '0'
        · exact .inl (congrArg ([·]) hc)
        · exact .inr (by simpa using hc)
    exact ⟨10, ds, hds.integerText hstart⟩

/-- **Every integer that the scanner takes is the text of one.** -/
theorem exists_integerText (h : number text = .ok (.lexeme .integer text)) (hne : text ≠ []) :
    ∃ base ds, IntegerText base ds text := by
  unfold number at h
  split at h
  · next base hbase =>
      obtain ⟨ds, hds⟩ := exists_integerText_radix h hbase
      exact ⟨base, ds, hds⟩
  · obtain ⟨whole, fraction, exponent, hparts, hdecimal⟩ := exists_isDecimal h
    obtain ⟨rfl, rfl, hoctal⟩ := hdecimal.integer (by decide)
    have hmarks := hdecimal.marks
    rw [List.append_nil, List.append_nil] at hparts hmarks
    subst hparts
    exact exists_integerText_decimal hdecimal.digits hmarks hoctal hne

end Scanned

/-! ## Integer literals -/

/-- **Integer literals have their positional value.**  Every text of an integer, in whatever base
and case and with whatever marks, is one integer token with the end of the input behind it, and
denotes the value of its digits: an integer while it fits in 64 bits, and a float beyond. -/
theorem integer_literal_has_positional_value {base : Nat} {ds : List Nat} {text : List Char}
    (h : IntegerText base ds text) :
    ∃ v, IsNumber (Nat.ofDigits base ds.reverse) v ∧
      IsLiteral .integer (String.ofList text) v := by
  obtain ⟨v, hnumber, hv⟩ := h.exists_ofInteger
  refine ⟨v, hnumber, ?_⟩
  have hread := h.readAs
  refine isLiteral_of_spelt (Scanner.isLexeme_of_readAs hread) (hread.spelt rfl) (by simp) ?_
  intro t hkind htext
  rw [Constant.ofToken, hkind, htext]
  exact hv

/-- Letters in both cases, behind a letter in upper case. -/
theorem hexadecimal_literal_value : IntegerText 16 [15, 15, 15] "0XF_fF".toList ∧
    ∃ v, IsNumber 4095 v ∧ IsLiteral .integer "0XF_fF" v := by
  have hf : SpellsDigit 16 15 'f' := ⟨by decide, .inl rfl⟩
  have hF : SpellsDigit 16 15 'F' := ⟨by decide, .inr rfl⟩
  have htext : IntegerText 16 [15, 15, 15] "0XF_fF".toList :=
    @IntegerText.marked 16 'X' _ _ (by decide) (.mark hF (.next hf (.last hF)))
  exact ⟨htext, integer_literal_has_positional_value htext⟩

/-! ## Printed integers -/

/-- The digits of the least integer, which are too large without the sign. -/
theorem isExpression_least : IsExpression 2 (intText Int64.minValue).toList
    (Expr.Gives 2 (.float (-9223372036854775808))) := by
  have hdigits : IsOperand 0 (Nat.toDigits 10 9223372036854775808)
      (Expr.Gives 1 (Number.float 9223372036854775808).toValue) := by
    refine (isOperand_literal (spelt_toDigits _) (by decide)).imp ?_
    rintro e ⟨t, ht, rfl⟩
    refine gives_literal ?_
    have hkind : t.kind = .integer := congrArg Prod.fst ht
    have htext : t.text = String.ofList (Nat.toDigits 10 9223372036854775808) :=
      congrArg Prod.snd ht
    rw [Constant.ofToken, hkind, htext]
    rfl
  exact isExpression_minus hdigits

/-- **Integers print and evaluate back**, all but the least one: its digits are too large for an
integer, and the minus in front of them gives a float. -/
theorem integer_text_denotes (n : Int64) :
    Denotes 2 (intText n) (if n = Int64.minValue then .float (-9223372036854775808) else .int n) := by
  split
  · next hn =>
      subst hn
      have hleast := isExpression_least.denotes
      rwa [String.ofList_toList] at hleast
  · next hn =>
      have hint := (isExpression_int hn).denotes
      rwa [String.ofList_toList] at hint

/-- The text of the least integer gives no integer. -/
theorem least_integer_evaluates_to_float :
    ¬ ∀ n : Int64, ∃ code, Engine.standard.compile (intText n) = .ok code ∧
      ((Engine.standard.run code .empty .absent).run []).1 = .ok (.int n) := by
  intro hclaim
  obtain ⟨code, hcode, hint⟩ := hclaim Int64.minValue
  have hleast := isExpression_least.denotes
  rw [String.ofList_toList] at hleast
  obtain ⟨code', hcode', hfloat⟩ := hleast Engine.standard (by decide) (by decide)
  obtain rfl : code = code' := Except.ok.inj (hcode.symm.trans hcode')
  rw [hfloat] at hint
  cases hint

end GuardedExpr
