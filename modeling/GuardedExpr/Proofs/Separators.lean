/-
# Separators — the underscores between the digits of a number

An underscore in a number has a digit of its base before it.  Behind it stands a digit
of the base as well, with one exception: one helper checks the numbers of all shapes
and takes any letter for a digit, so the letter of an exponent passes, as in `1_e5`.
In the other shapes a letter that is no digit of the base is refused on its own.

    0x, 0b, 0o    the digits are those of the base, letters among them in base 16
    decimal       digits only, so no letter comes into question
    leading zero  octal digits only
    float         digits, one point, and one exponent that starts with a letter
-/
import GuardedExpr.Proofs.Legible
import GuardedExpr.Proofs.PrintedValues

namespace GuardedExpr

open Text Lexeme

/-! ## Characters beside a mark -/

theorem marksSeparate_append {before : List Char} {first : Option Char} {after : List Char}
    (h : marksSeparate first (before ++ '_' :: after) = true) :
    (before.getLast?.or first).any Char.isAlphanum = true ∧
      after.head?.any Char.isAlphanum = true := by
  induction before generalizing first with
  | nil =>
      rw [List.nil_append, marksSeparate, Bool.and_eq_true] at h
      simpa using h.1
  | cons c before ih =>
      rw [List.cons_append, marksSeparate, Bool.and_eq_true] at h
      obtain ⟨hbefore, hafter⟩ := ih h.2
      refine ⟨?_, hafter⟩
      cases before with
      | nil => exact hbefore
      | cons d before =>
          rw [List.getLast?_cons_cons]
          rw [List.getLast?_cons] at hbefore ⊢
          exact hbefore

/-- Letters and digits around a mark are of the class that the text is made of. -/
theorem beside_mark {text before after : List Char} {p : Char → Bool}
    (hmarks : marksSeparate none text = true)
    (hclass : ∀ c ∈ text, c.isAlphanum = true → p c = true)
    (h : text = before ++ '_' :: after) :
    before.getLast?.any p = true ∧ after.head?.any p = true := by
  subst h
  obtain ⟨hbefore, hafter⟩ := marksSeparate_append hmarks
  rw [Option.or_none, Option.any_eq_true] at hbefore
  rw [Option.any_eq_true] at hafter
  obtain ⟨c, hc, hcalnum⟩ := hbefore
  obtain ⟨d, hd, hdalnum⟩ := hafter
  have hcmem : c ∈ before ++ '_' :: after :=
    List.mem_append_left _ (List.mem_of_getLast? hc)
  have hdmem : d ∈ before ++ '_' :: after :=
    List.mem_append_right _ (List.mem_cons_of_mem _ (List.mem_of_head? hd))
  exact ⟨Option.any_eq_true _ _ |>.mpr ⟨c, hc, hclass c hcmem hcalnum⟩,
    Option.any_eq_true _ _ |>.mpr ⟨d, hd, hclass d hdmem hdalnum⟩⟩

theorem isDigitIn_of_isAlphanum {base : Nat} {c : Char} (hc : c.isAlphanum = true)
    (h : (c == '_' || isDigitIn base c) = true) : isDigitIn base c = true := by
  rcases Bool.or_eq_true _ _ ▸ h with h | h
  · rw [beq_iff_eq.mp h] at hc
    cases hc
  · exact h

theorem isDigitIn_of_isDigitOrMark {c : Char} (hc : c.isAlphanum = true)
    (h : isDigitOrMark c = true) : isDigitIn 10 c = true := by
  refine isDigitIn_of_isAlphanum hc ?_
  rw [isDigitOrMark, Bool.or_comm] at h
  refine Bool.or_eq_true _ _ ▸ (Bool.or_eq_true _ _ ▸ h).imp_right fun hdigit => ?_
  rw [isDigitIn, digitIn?_of_isDigit hdigit]
  rfl

/-! ## The shapes of numbers -/

/-- The base in which the evaluator reads the number. -/
def Token.radix (t : Token) : Nat :=
  if t.kind = .float then 10
  else (Constant.splitBase ((Constant.withoutSeparators t.text).map Char.toLower)).1

/-- The letter that announces an exponent. -/
def isExponentLetter (c : Char) : Bool := c == 'e' || c == 'E'

/-- A number without a base of its own: digits, a fraction, an exponent. -/
structure IsDecimal (k : TokenKind) (whole fraction exponent : List Char) : Prop where
  digits : ∀ c ∈ whole, isDigitOrMark c = true
  isFraction : IsFraction fraction
  isExponent : IsExponent exponent
  marks : marksSeparate none (whole ++ fraction ++ exponent) = true
  integer : k ≠ .float → fraction = [] ∧ exponent = [] ∧ octalInOrder whole = true

theorem exists_isDecimal {cs text : List Char} {k : TokenKind}
    (h : decimalNumber cs = .ok (.lexeme k text)) :
    ∃ whole fraction exponent, text = whole ++ fraction ++ exponent ∧
      IsDecimal k whole fraction exponent := by
  unfold decimalNumber at h
  dsimp only at h
  split at h
  · next hvalid =>
      obtain ⟨hkind, htext⟩ := Piece.lexeme.inj (Except.ok.inj h)
      simp only [Bool.and_eq_true] at hvalid
      obtain ⟨⟨-, hmarks⟩, hoctal⟩ := hvalid
      refine ⟨_, _, _, htext.symm, List.all_eq_true.mp List.all_takeWhile,
        isFraction_fractionText _, isExponent_exponentText _, hmarks, fun hinteger => ?_⟩
      split at hkind
      · exact absurd hkind.symm hinteger
      · next hfloat =>
          simp only [Bool.or_eq_true, Bool.not_eq_true', List.isEmpty_eq_false_iff, not_or,
            not_not] at hfloat
          obtain ⟨hfraction, hexponent⟩ := hfloat
          refine ⟨hfraction, hexponent, ?_⟩
          rw [hexponent, hfraction] at hoctal
          simpa using hoctal
  · cases h

/-- A number with a base of its own: the letter of the base and the digits behind it. -/
structure IsRadix (base : Nat) (c : Char) (digits : List Char) : Prop where
  letter : (base, c) ∈ [(16, 'x'), (16, 'X'), (2, 'b'), (2, 'B'), (8, 'o'), (8, 'O')]
  marks : marksSeparate none digits = true
  digits : ∀ d ∈ digits, (d == '_' || isDigitIn base d) = true

theorem exists_isRadix {cs text : List Char} {k : TokenKind} {base : Nat}
    (hbase : radix? cs = some base) (h : radixNumber base cs = .ok (.lexeme k text)) :
    ∃ c digits, k = .integer ∧ text = '0' :: c :: digits ∧ IsRadix base c digits := by
  unfold radix? at hbase
  split at hbase
  · next c cs =>
      unfold radixNumber at h
      dsimp only at h
      split at h
      · next hvalid =>
          cases h
          simp only [Bool.and_eq_true, List.all_eq_true] at hvalid
          refine ⟨c, _, rfl, rfl, ?_, hvalid.1.2, hvalid.2⟩
          simp only [Bool.or_eq_true, beq_iff_eq] at hbase
          split at hbase
          · next hc => rcases hc with rfl | rfl <;> cases hbase <;> decide
          · split at hbase
            · next hc => rcases hc with rfl | rfl <;> cases hbase <;> decide
            · split at hbase
              · next hc => rcases hc with rfl | rfl <;> cases hbase <;> decide
              · cases hbase
      · cases h
  · cases hbase

/-! ## Integers -/

section Integers

variable {t : Token}

theorem Token.radix_eq (hk : t.kind = .integer) :
    t.radix = (Constant.splitBase ((Constant.withoutSeparators t.text).map Char.toLower)).1 := by
  rw [Token.radix, hk]
  rfl

/-- The base that the scanner read the digits in is the one that the evaluator reads them in. -/
theorem IsRadix.radix_eq {base : Nat} {c : Char} {digits : List Char} (h : IsRadix base c digits)
    (hk : t.kind = .integer) (htext : t.text.toList = '0' :: c :: digits) : t.radix = base := by
  rw [t.radix_eq hk, Constant.withoutSeparators, htext]
  have hletter := h.letter
  simp only [List.mem_cons, Prod.mk.injEq, List.not_mem_nil, or_false] at hletter
  rcases hletter with ⟨rfl, rfl⟩ | ⟨rfl, rfl⟩ | ⟨rfl, rfl⟩ | ⟨rfl, rfl⟩ | ⟨rfl, rfl⟩ | ⟨rfl, rfl⟩
  all_goals rfl

/-- A mark between the digits of a base stands behind the letter of the base. -/
theorem IsRadix.beside {base : Nat} {c : Char} {digits before after : List Char}
    (h : IsRadix base c digits) (htext : '0' :: c :: digits = before ++ '_' :: after) :
    before.getLast?.any (isDigitIn base) = true ∧ after.head?.any (isDigitIn base) = true := by
  have hc : c ≠ '_' := by
    rintro rfl
    simpa using h.letter
  rcases before with _ | ⟨a, _ | ⟨b, before⟩⟩
  · cases htext
  · exact absurd (List.cons.inj (List.cons.inj htext).2).1 hc
  · obtain ⟨hbefore, hafter⟩ := beside_mark h.marks
      (fun d hd halnum => isDigitIn_of_isAlphanum halnum (h.digits d hd))
      (List.cons.inj (List.cons.inj htext).2).2
    refine ⟨?_, hafter⟩
    cases before with
    | nil => cases hbefore
    | cons d before =>
        rw [List.cons_append] at htext
        simpa using hbefore

theorem map_toLower_withoutSeparators (h : ∀ c ∈ t.text.toList, isDigitOrMark c = true) :
    (Constant.withoutSeparators t.text).map Char.toLower = Constant.withoutSeparators t.text := by
  refine (List.map_congr_left fun c hc => ?_).trans (List.map_id _)
  obtain ⟨hmem, hmark⟩ := List.mem_filter.mp hc
  refine toLower_of_isDigit ?_
  have hdigit := h c hmem
  rw [isDigitOrMark, Bool.or_eq_true] at hdigit
  exact hdigit.resolve_right fun heq => absurd hmark (by simp [beq_iff_eq.mp heq])

/-- Without a letter of a base, digits are decimal, or octal behind a zero. -/
theorem splitBase_of_digits {ds : List Char} (h : ∀ c ∈ ds, isDigitOrMark c = true) :
    (Constant.splitBase ds).1 = 10 ∨
      (Constant.splitBase ds).1 = 8 ∧ ∃ d more, ds = '0' :: d :: more := by
  have hletter : ∀ c more, ds = '0' :: c :: more → c ≠ 'x' ∧ c ≠ 'b' ∧ c ≠ 'o' := by
    rintro c more rfl
    have hc := h c (by simp)
    refine ⟨?_, ?_, ?_⟩ <;> rintro rfl <;> exact absurd hc (by decide)
  unfold Constant.splitBase
  split
  · exact absurd rfl (hletter _ _ rfl).1
  · exact absurd rfl (hletter _ _ rfl).2.1
  · exact absurd rfl (hletter _ _ rfl).2.2
  · exact .inl rfl
  · next more _ _ _ hone =>
      refine .inr ⟨rfl, ?_⟩
      cases more with
      | nil => exact absurd rfl hone
      | cons d more => exact ⟨d, more, rfl⟩
  · exact .inl rfl

/-- The digits of a decimal integer are digits of its base. -/
theorem isDigitIn_radix (hk : t.kind = .integer)
    (hdigits : ∀ c ∈ t.text.toList, isDigitOrMark c = true)
    (hmarks : marksSeparate none t.text.toList = true) (hoctal : octalInOrder t.text.toList = true)
    {c : Char} (hc : c ∈ t.text.toList) (halnum : c.isAlphanum = true) :
    isDigitIn t.radix c = true := by
  rw [t.radix_eq hk, map_toLower_withoutSeparators hdigits]
  have hkept : ∀ c ∈ Constant.withoutSeparators t.text, isDigitOrMark c = true :=
    fun c hc => hdigits c (List.mem_filter.mp hc).1
  rcases splitBase_of_digits hkept with hten | ⟨height, d, more, hzero⟩
  · rw [hten]
    exact isDigitIn_of_isDigitOrMark halnum (hdigits c hc)
  · rw [height]
    refine isDigitIn_of_isAlphanum halnum ?_
    -- the zero in front of the digits is in front of the text, where no mark stands
    rw [Constant.withoutSeparators] at hzero
    obtain ⟨first, rest, htext⟩ := List.exists_cons_of_ne_nil (List.ne_nil_of_mem hc)
    have hfirst : (first != '_') = true := by
      rw [htext, marksSeparate, Bool.and_eq_true] at hmarks
      simpa using hmarks.1
    have hfilter : (first :: rest).filter (· != '_') = first :: rest.filter (· != '_') :=
      List.filter_cons_of_pos hfirst
    rw [htext, hfilter, List.cons.injEq] at hzero
    obtain ⟨rfl, hrest⟩ := hzero
    have hlong : ¬ t.text.toList.length ≤ 1 := by
      have hlength := (List.filter_sublist (l := rest) (p := (· != '_'))).length_le
      rw [hrest, List.length_cons] at hlength
      rw [htext, List.length_cons]
      omega
    rw [octalInOrder, decide_eq_false hlong, Bool.false_or, htext] at hoctal
    rw [htext] at hc
    exact List.all_eq_true.mp hoctal c hc

end Integers

/-! ## Floats -/

theorem isDigitIn_mantissa {k : TokenKind} {whole fraction exponent : List Char}
    (h : IsDecimal k whole fraction exponent) :
    ∀ c ∈ whole ++ fraction, c.isAlphanum = true → isDigitIn 10 c = true := by
  intro c hc halnum
  rcases List.mem_append.mp hc with hc | hc
  · exact isDigitIn_of_isDigitOrMark halnum (h.digits c hc)
  · cases h.isFraction with
    | nil => cases hc
    | point _ hds =>
        rcases List.mem_cons.mp hc with rfl | hc
        · cases halnum
        · exact isDigitIn_of_isDigitOrMark halnum (hds c hc)

theorem Lexeme.IsExponent.mark_notMem {exponent : List Char} (h : IsExponent exponent) :
    '_' ∉ exponent := by
  intro hmem
  cases h with
  | nil => cases hmem
  | @letter e sign ds he hsign _ hds =>
      rcases List.mem_cons.mp hmem with rfl | hmem
      · cases he
      · rcases List.mem_append.mp hmem with hmem | hmem
        · simp only [List.mem_cons, List.not_mem_nil, or_false] at hsign
          rcases hsign with rfl | rfl | rfl <;> simp at hmem
        · exact absurd (hds '_' hmem) (by decide)

/-- A mark stands in front of the exponent, and either a digit or the exponent is behind it. -/
theorem IsDecimal.beside {k : TokenKind} {whole fraction exponent before after : List Char}
    (h : IsDecimal k whole fraction exponent)
    (htext : whole ++ fraction ++ exponent = before ++ '_' :: after) :
    before.getLast?.any (isDigitIn 10) = true ∧
      (after.head?.any (isDigitIn 10) = true ↔ after.head?.any isExponentLetter = false) := by
  obtain ⟨mantissa, hmantissa, rfl⟩ : ∃ mantissa, whole ++ fraction = before ++ '_' :: mantissa ∧
      after = mantissa ++ exponent := by
    rcases List.append_eq_append_iff.mp htext with ⟨more, -, hexponent⟩ | ⟨more, hmore, hafter⟩
    · have hmem : '_' ∈ exponent := by
        rw [hexponent]
        simp
      exact absurd hmem h.isExponent.mark_notMem
    · cases more with
      | nil =>
          have hmem : '_' ∈ exponent := by
            rw [List.nil_append] at hafter
            rw [← hafter]
            exact List.mem_cons_self
          exact absurd hmem h.isExponent.mark_notMem
      | cons c more =>
          obtain ⟨rfl, rfl⟩ := List.cons.inj hafter
          exact ⟨more, hmore, rfl⟩
  have hclass := isDigitIn_mantissa h
  have hmarks := h.marks
  rw [hmantissa] at hclass hmarks
  rw [List.append_assoc, List.cons_append] at hmarks
  obtain ⟨hbefore, hafter⟩ := marksSeparate_append hmarks
  rw [Option.or_none, Option.any_eq_true] at hbefore
  obtain ⟨c, hc, hcalnum⟩ := hbefore
  refine ⟨Option.any_eq_true _ _ |>.mpr ⟨c, hc, hclass c ?_ hcalnum⟩, ?_⟩
  · exact List.mem_append_left _ (List.mem_of_getLast? hc)
  · cases mantissa with
    | nil =>
        cases h.isExponent with
        | nil => cases hafter
        | @letter e _ _ he =>
            have hletter : isDigitIn 10 e = false := by
              rcases Bool.or_eq_true _ _ ▸ he with heq | heq <;>
              · rw [beq_iff_eq.mp heq]
                decide
            simp [hletter, show isExponentLetter e = true from he]
    | cons d mantissa =>
        have hd : isDigitIn 10 d = true := hclass d (by simp) hafter
        have hletter : isExponentLetter d = false := by
          rw [Bool.eq_false_iff]
          intro he
          rcases Bool.or_eq_true _ _ ▸ he with heq | heq <;>
          · rw [beq_iff_eq.mp heq] at hd
            exact absurd hd (by decide)
        simp [hd, hletter]

/-! ## The numbers of a source -/

/-- Only the reader of numbers gives numbers. -/
theorem Lexeme.ReadAs.number_eq {cs text : List Char} {k : TokenKind}
    (h : ReadAs cs (.lexeme k text)) (hk : k ∈ [TokenKind.integer, .float]) :
    ∃ c more, cs = c :: more ∧ (c.isDigit || (c == '.' && startsDigit more)) = true ∧
      number cs = .ok (.lexeme k text) := by
  generalize hp : Piece.lexeme k text = p at h
  cases h with
  | sigil =>
      rw [(Piece.lexeme.inj hp).1] at hk
      exact absurd hk (by decide)
  | numeral hc hnumber => exact ⟨_, _, rfl, hc, hnumber⟩
  | quoted hsingle =>
      unfold singleQuotedString at hsingle
      split at hsingle
      · rw [(Piece.lexeme.inj (hp.trans (Except.ok.inj hsingle).symm)).1] at hk
        exact absurd hk (by decide)
      · cases hsingle
  | @named c cs =>
      have hword := isWord_word (String.ofList (wordText (c :: cs)))
      rw [← (Piece.lexeme.inj hp).1] at hword
      simp only [List.mem_cons, List.not_mem_nil, or_false] at hk
      rcases hk with rfl | rfl <;> cases hword

/-- The text of an operand is read again on its own. -/
theorem Token.IsOperand.readAs {t : Token} (h : t.IsOperand) :
    ReadAs t.text.toList (.lexeme t.kind t.text.toList) := by
  obtain ⟨cs, hread⟩ := h
  have hagain := hread.again setOff_nil
  rwa [List.append_nil] at hagain

/-- Numbers of code start with a digit, or with a point and a digit, and are read as such. -/
theorem Token.InCode.number_eq {t : Token} (h : t.InCode)
    (hk : t.kind ∈ [TokenKind.integer, .float]) :
    ∃ c more, t.text.toList = c :: more ∧ (c.isDigit || (c == '.' && startsDigit more)) = true ∧
      number t.text.toList = .ok (.lexeme t.kind t.text.toList) := by
  have hoperand : t.IsOperand := by
    refine h.isOperand ?_
    simp only [List.mem_cons, List.not_mem_nil, or_false] at hk
    rcases hk with h | h <;> simp [h]
  exact hoperand.readAs.number_eq hk

/-- The numbers among the tokens of an embedded variable are digits alone, and none is a string. -/
theorem Embedded.isDigits {us : List Token} {t : Token} (h : Embedded us) (ht : t ∈ us)
    (hk : t.kind ∈ [TokenKind.integer, .float, .string]) : t.IsDigits := by
  have hne : ∀ {k : TokenKind}, k ∉ [TokenKind.integer, .float, .string] → t.kind ≠ k := by
    rintro k hnot rfl
    exact hnot hk
  cases h with
  | alone hv => simp_all [Token.IsVariable]
  | @offset v bracket o close hv hbracket _ ho hclose =>
      simp only [List.mem_cons, List.not_mem_nil, or_false] at ht
      rcases ht with rfl | rfl | rfl | rfl
      · exact absurd hv.1 (hne (by decide))
      · exact absurd hbracket (hne (by decide))
      · cases ho with
        | digits h => exact h
        | sigil h => exact absurd h.1 (hne (by decide))
        | word h => exact absurd h (hne (by decide))
      · exact absurd hclose (hne (by decide))
  | negative hv hbracket _ hminus _ hds hclose =>
      simp only [List.mem_cons, List.not_mem_nil, or_false] at ht
      rcases ht with rfl | rfl | rfl | rfl | rfl
      · exact absurd hv.1 (hne (by decide))
      · exact absurd hbracket (hne (by decide))
      · exact absurd hminus (hne (by decide))
      · exact hds
      · exact absurd hclose (hne (by decide))
  | property hv harrow _ hname =>
      simp only [List.mem_cons, List.not_mem_nil, or_false] at ht
      rcases ht with rfl | rfl | rfl
      · exact absurd hv.1 (hne (by decide))
      · exact absurd harrow (hne (by decide))
      · exact absurd hname (hne (by decide))

/-- A number or a string is read in code, or it is one of the tokens of an embedded variable. -/
theorem Lexed.inCode_or_embedded {fs : List Frame} {ts : List Token} {t : Token} (h : Lexed fs ts)
    (ht : t ∈ ts) (hk : t.kind ∈ [TokenKind.integer, .float, .string]) :
    t.InCode ∨ ∃ before us after, ts = before ++ (us ++ after) ∧ Embedded us ∧ t ∈ us := by
  have hne : ∀ {k : TokenKind}, k ∉ [TokenKind.integer, .float, .string] → t.kind ≠ k := by
    rintro k hnot rfl
    exact hnot hk
  have hbehind : ∀ {u : Token} {ts : List Token},
      (t.InCode ∨ ∃ before us after, ts = before ++ (us ++ after) ∧ Embedded us ∧ t ∈ us) →
      t.InCode ∨ ∃ before us after, u :: ts = before ++ (us ++ after) ∧ Embedded us ∧ t ∈ us := by
    intro u ts hmore
    refine hmore.imp_right ?_
    rintro ⟨before, us, after, rfl, hus, hmem⟩
    exact ⟨u :: before, us, after, rfl, hus, hmem⟩
  induction h with
  | eof _ heof =>
      obtain rfl := List.mem_singleton.mp ht
      exact absurd heof (hne (by decide))
  | code _ hcode _ ih =>
      rcases List.mem_cons.mp ht with rfl | ht
      · exact .inl hcode
      · exact hbehind (ih ht)
  | brace _ hbrace _ ih =>
      rcases List.mem_cons.mp ht with rfl | ht
      · exact absurd rfl (hne fun hmem => by simp_all)
      · exact hbehind (ih ht)
  | opening _ hquote _ _ ih =>
      rcases List.mem_cons.mp ht with rfl | ht
      · exact absurd hquote.1 (hne (by decide))
      · exact hbehind (ih ht)
  | closing hquote _ ih =>
      rcases List.mem_cons.mp ht with rfl | ht
      · exact absurd hquote.1 (hne (by decide))
      · exact hbehind (ih ht)
  | run hrun _ _ ih =>
      rcases List.mem_cons.mp ht with rfl | ht
      · exact absurd hrun.1 (hne (by decide))
      · exact hbehind (ih ht)
  | hole hbrace _ _ ih =>
      rcases List.mem_cons.mp ht with rfl | ht
      · exact absurd hbrace (hne (by decide))
      · exact hbehind (ih ht)
  | @embedded fs v us ts hvar _ ih =>
      rw [← List.cons_append] at ht ⊢
      rcases List.mem_append.mp ht with ht | ht
      · exact .inr ⟨[], v :: us, ts, rfl, hvar, ht⟩
      · refine (ih ht).imp_right ?_
        rintro ⟨before, ws, after, rfl, hws, hmem⟩
        exact ⟨v :: us ++ before, ws, after, (List.append_assoc ..).symm, hws, hmem⟩

/-- A number is read as one, or it is digits between brackets in a string. -/
theorem Lexed.isDigits_or_number {fs : List Frame} {ts : List Token} {t : Token} (h : Lexed fs ts)
    (ht : t ∈ ts) (hk : t.kind ∈ [TokenKind.integer, .float]) :
    t.IsDigits ∨ ∃ cs, number cs = .ok (.lexeme t.kind t.text.toList) := by
  have hkind : t.kind ∈ [TokenKind.integer, .float, .string] :=
    List.mem_append_left [TokenKind.string] hk
  rcases h.inCode_or_embedded ht hkind with hcode | ⟨-, us, -, -, hus, hmem⟩
  · obtain ⟨-, -, -, -, hnumber⟩ := hcode.number_eq hk
    exact .inr ⟨_, hnumber⟩
  · exact .inl (hus.isDigits hmem hkind)

/-- **Where separators stand.**  An underscore in a number has a digit of the base of the number
before it.  Behind it stands a digit of this base too, if not the exponent of a float. -/
theorem separator_between_digits_iff {source : String} {ts : List Token} {t : Token}
    {before after : List Char} (h : tokenize source = .ok ts) (ht : t ∈ ts)
    (hk : t.kind = .integer ∨ t.kind = .float) (htext : t.text.toList = before ++ '_' :: after) :
    before.getLast?.any (isDigitIn t.radix) = true ∧
      (after.head?.any (isDigitIn t.radix) = true ↔
        ¬ (t.kind = .float ∧ after.head?.any isExponentLetter = true)) := by
  have hmem : t.kind ∈ [TokenKind.integer, .float] := by simpa using hk
  rcases (lexed_of_tokenize h).isDigits_or_number ht hmem with hdigits | ⟨cs, hnumber⟩
  · have hmark : '_' ∈ t.text.toList := by
      rw [htext]
      simp
    exact absurd (hdigits.2.2 '_' hmark) (by decide)
  unfold number at hnumber
  split at hnumber
  · next base hbase =>
      obtain ⟨c, digits, hinteger, hdigits, hradix⟩ := exists_isRadix hbase hnumber
      obtain ⟨hbefore, hafter⟩ := hradix.beside (hdigits.symm.trans htext)
      rw [hradix.radix_eq hinteger hdigits]
      simp [hbefore, hafter, hinteger]
  · obtain ⟨whole, fraction, exponent, hparts, hdecimal⟩ := exists_isDecimal hnumber
    rcases hk with hinteger | hfloat
    · obtain ⟨rfl, rfl, hoctal⟩ := hdecimal.integer (by simp [hinteger])
      have hmarks := hdecimal.marks
      rw [List.append_nil, List.append_nil] at hparts hmarks
      subst hparts
      obtain ⟨hbefore, hafter⟩ := beside_mark hmarks
        (fun c hc => isDigitIn_radix hinteger hdecimal.digits hmarks hoctal hc) htext
      simp [hbefore, hafter, hinteger]
    · obtain ⟨hbefore, hafter⟩ := hdecimal.beside (hparts.symm.trans htext)
      have hradix : t.radix = 10 := if_pos hfloat
      rw [hradix]
      simp [hbefore, hafter, hfloat]

/-- In `0xA_f` the mark stands between two digits of base 16. -/
theorem mark_in_hexadecimal_separates :
    ∃ ts t, tokenize "0xA_f" = .ok ts ∧ t ∈ ts ∧ t.text = "0xA_f" ∧ t.radix = 16 ∧
      "0xA".toList.getLast?.any (isDigitIn t.radix) = true ∧
      "f".toList.head?.any (isDigitIn t.radix) = true := by
  have hrun : tokenize "0xA_f" = .ok
      [⟨.integer, "0xA_f", ⟨0, 5, 1, 1⟩⟩, ⟨.eof, "", ⟨5, 0, 1, 6⟩⟩] := rfl
  obtain ⟨hbefore, hafter⟩ := @separator_between_digits_iff _ _ _ "0xA".toList "f".toList hrun
    List.mem_cons_self (.inl rfl) rfl
  exact ⟨_, _, hrun, List.mem_cons_self, rfl, by decide, hbefore, hafter.mpr (by simp)⟩

/-- In `1_e5` no digit stands behind the mark. -/
theorem mark_before_exponent_is_no_separator :
    ¬ ∀ ts, tokenize "1_e5" = .ok ts → ∀ t ∈ ts, t.kind = .integer ∨ t.kind = .float →
      ∀ before after, t.text.toList = before ++ '_' :: after →
        before.getLast?.any (isDigitIn t.radix) = true ∧
          after.head?.any (isDigitIn t.radix) = true := by
  intro hclaim
  have hrun : tokenize "1_e5" = .ok
      [⟨.float, "1_e5", ⟨0, 4, 1, 1⟩⟩, ⟨.eof, "", ⟨4, 0, 1, 5⟩⟩] := rfl
  have hafter := (hclaim _ hrun _ List.mem_cons_self (.inr rfl) "1".toList "e5".toList rfl).2
  exact absurd hafter (by decide)

end GuardedExpr
