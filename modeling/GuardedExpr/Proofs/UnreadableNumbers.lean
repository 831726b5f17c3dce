/-
# Unreadable numbers — the digits that spell no value

The scanner takes numbers in two places.  In code it checks them: digits behind a
leading zero are octal, marks stand between digits, and a float has a digit at its
point.  Between the brackets behind an embedded variable it takes digits as they come,
`"$a[08]"`, and leaves the leading zero to the evaluator, which reads the digits as
octal and finds none.

So a number is unreadable exactly if it stands there and its digits are out of order
(`Token.IsStray`).  Every other number has a value.  An evaluation finds a literal
unreadable only where the source has such a number.
-/
import GuardedExpr.Proofs.ErrorPlaces
import GuardedExpr.Proofs.IntegerLiterals

namespace GuardedExpr

open Text Lexeme

/-- Digits behind a leading zero, not all of them octal. -/
def Token.IsStray (t : Token) : Prop := t.IsDigits ∧ octalInOrder t.text.toList = false

/-! ## Floats -/

section Floats

theorem isDigit_of_mem_filter {cs : List Char} (h : ∀ c ∈ cs, isDigitOrMark c = true) :
    ∀ c ∈ cs.filter (· != '_'), c.isDigit = true := by
  intro c hc
  obtain ⟨hmem, hmark⟩ := List.mem_filter.mp hc
  have hdigit := h c hmem
  rw [isDigitOrMark, Bool.or_eq_true] at hdigit
  exact hdigit.resolve_right fun heq => absurd hmark (by simp [beq_iff_eq.mp heq])

/-- Taking out the marks leaves the digit in front. -/
theorem filter_ne_nil_of_startsDigit {cs : List Char} (h : startsDigit cs = true) :
    cs.filter (· != '_') ≠ [] := by
  cases cs with
  | nil => cases h
  | cons c cs =>
      have hc : c.isDigit = true := by simpa [startsDigit] using h
      have hmark : c ≠ '_' := by
        rintro rfl
        cases hc
      simp [hmark]

/-- A fraction without its marks is one of a numeral. -/
theorem Lexeme.IsFraction.exists_fractionChars {fraction : List Char} (h : IsFraction fraction) :
    ∃ part, fraction.filter (· != '_') = Numeral.fractionChars part ∧
      (∀ ds ∈ part, ∀ c ∈ ds, c.isDigit = true) ∧ (fraction ≠ [] → part.getD [] ≠ []) := by
  cases h with
  | nil => exact ⟨none, rfl, by simp, by simp⟩
  | @point ds hstart hds =>
      refine ⟨some (ds.filter (· != '_')), rfl, ?_, fun _ => filter_ne_nil_of_startsDigit hstart⟩
      rintro _ ⟨⟩
      exact isDigit_of_mem_filter hds

/-- An exponent has no marks and is one of a numeral. -/
theorem Lexeme.IsExponent.exists_exponentChars {exponent : List Char} (h : IsExponent exponent) :
    ∃ part, exponent.filter (· != '_') = Numeral.exponentChars part ∧
      ∀ e ∈ part, e.WellFormed := by
  have hkept : exponent.filter (· != '_') = exponent := by
    refine List.filter_eq_self.mpr fun c hc => ?_
    have hmark : c ≠ '_' := by
      rintro rfl
      exact h.mark_notMem hc
    simpa using hmark
  rw [hkept]
  cases h with
  | nil => exact ⟨none, rfl, by simp⟩
  | @letter e sign ds he hsign hne hds =>
      obtain ⟨part, rfl, hpart⟩ :
          ∃ part, sign = Numeral.signChars part ∧ ∀ c ∈ part, Numeral.isSign c = true := by
        simp only [List.mem_cons, List.not_mem_nil, or_false] at hsign
        rcases hsign with rfl | rfl | rfl
        · exact ⟨none, rfl, by simp⟩
        · exact ⟨some '+', rfl, by rintro _ ⟨⟩; rfl⟩
        · exact ⟨some '-', rfl, by rintro _ ⟨⟩; rfl⟩
      refine ⟨some ⟨e, part, ds⟩, rfl, ?_⟩
      rintro _ ⟨⟩
      exact ⟨he, hpart, hne, hds⟩

/-- What starts like a number has a digit in front of its exponent. -/
theorem IsDecimal.digit_in_mantissa {k : TokenKind} {whole fraction exponent more : List Char}
    {c : Char} (h : IsDecimal k whole fraction exponent)
    (htext : whole ++ fraction ++ exponent = c :: more)
    (hstart : (c.isDigit || (c == '.' && startsDigit more)) = true) :
    startsDigit whole = true ∨ fraction ≠ [] := by
  cases hwhole : whole with
  | cons d ds =>
      subst hwhole
      obtain ⟨rfl, -⟩ := List.cons.inj htext
      have hd := h.digits d List.mem_cons_self
      have hpoint : (d == '.') = false := by
        refine beq_eq_false_iff_ne.mpr ?_
        rintro rfl
        cases hd
      rw [hpoint, Bool.false_and, Bool.or_false] at hstart
      exact .inl (by simpa [startsDigit] using hstart)
  | nil =>
      refine .inr ?_
      rintro rfl
      -- no exponent starts like a number
      subst hwhole
      cases h.isExponent with
      | nil => cases htext
      | letter he =>
          obtain ⟨rfl, -⟩ := List.cons.inj htext
          rcases Bool.or_eq_true _ _ ▸ he with heq | heq <;>
          · rw [beq_iff_eq.mp heq] at hstart
            cases hstart

/-- Without its marks a number with a digit in its mantissa is a numeral. -/
theorem IsDecimal.exists_numeral {k : TokenKind} {whole fraction exponent : List Char}
    (h : IsDecimal k whole fraction exponent)
    (hdigit : startsDigit whole = true ∨ fraction ≠ []) :
    ∃ n : Numeral, n.WellFormed ∧
      n.chars = (whole ++ fraction ++ exponent).filter (· != '_') := by
  obtain ⟨part, hfraction, hdigits, hsome⟩ := h.isFraction.exists_fractionChars
  obtain ⟨tail, hexponent, htail⟩ := h.isExponent.exists_exponentChars
  refine ⟨⟨none, whole.filter (· != '_'), part, tail⟩, ?_, ?_⟩
  · exact ⟨by simp, isDigit_of_mem_filter h.digits, hdigits,
      hdigit.imp filter_ne_nil_of_startsDigit hsome, htail⟩
  · rw [List.filter_append, List.filter_append, hfraction, hexponent]
    rfl

/-- **Every float of code is read.** -/
theorem exists_ofFloat {c : Char} {more : List Char}
    (h : number (c :: more) = .ok (.lexeme .float (c :: more)))
    (hstart : (c.isDigit || (c == '.' && startsDigit more)) = true) :
    ∃ x, Constant.ofFloat (String.ofList (c :: more)) = .ok (.float x) := by
  have hdecimal : decimalNumber (c :: more) = .ok (.lexeme .float (c :: more)) := by
    unfold number at h
    split at h
    · next base hbase =>
        obtain ⟨-, -, hinteger, -⟩ := exists_isRadix hbase h
        cases hinteger
    · exact h
  obtain ⟨whole, fraction, exponent, htext, hparts⟩ := exists_isDecimal hdecimal
  obtain ⟨n, hn, hchars⟩ := hparts.exists_numeral (hparts.digit_in_mantissa htext.symm hstart)
  refine ⟨n.toFloat, ?_⟩
  rw [Constant.ofFloat, Constant.withoutSeparators, String.toList_ofList, htext, ← hchars,
    hn.readFloat?_chars]

end Floats

/-! ## Digits -/

section Digits

variable {base : Nat} {cs : List Char}

theorem marksSeparate_of_digits (h : ∀ c ∈ cs, c.isDigit = true)
    (before : Option Char) : marksSeparate before cs = true := by
  induction cs generalizing before with
  | nil => rfl
  | cons c cs ih =>
      have hc : c ≠ '_' := by
        rintro rfl
        cases h '_' List.mem_cons_self
      have hcs := ih (fun d hd => h d (List.mem_cons_of_mem c hd)) (some c)
      simp [marksSeparate, hc, hcs]

/-- Digits stay as they are when separators are left out and letters put in lower case. -/
theorem withoutSeparators_digits (h : ∀ c ∈ cs, c.isDigit = true) :
    (Constant.withoutSeparators (String.ofList cs)).map Char.toLower = cs := by
  have hkept : cs.filter (· != '_') = cs := by
    refine List.filter_eq_self.mpr fun c hc => ?_
    have hne : c ≠ '_' := by
      rintro rfl
      cases h '_' hc
    simpa using hne
  rw [Constant.withoutSeparators, String.toList_ofList, hkept]
  exact (List.map_congr_left fun c hc => toLower_of_isDigit (h c hc)).trans (List.map_id _)

/-- A character that is no digit of the base stops the reading of a float. -/
theorem floatInBase?_eq_none {c : Char} (hc : c ∈ cs) (hnone : digitIn? base c = none) :
    Constant.floatInBase? base cs = none := by
  suffices hall : ∀ x : Float, cs.foldlM (fun x c =>
      (digitIn? base c).map fun d => x * base.toFloat + d.toFloat) x = none from hall 0
  induction cs with
  | nil => cases hc
  | cons d cs ih =>
      intro x
      rw [List.foldlM_cons]
      rcases List.mem_cons.mp hc with rfl | hc
      · rw [hnone]
        rfl
      · cases digitIn? base d with
        | none => rfl
        | some n => exact ih hc _

/-- Digits out of order behind a leading zero, spelt out. -/
theorem exists_of_octalInOrder_eq_false (hdigits : ∀ c ∈ cs, c.isDigit = true)
    (h : octalInOrder cs = false) :
    ∃ d more, cs = '0' :: d :: more ∧ ∃ c ∈ d :: more, digitIn? 8 c = none := by
  simp only [octalInOrder, Bool.or_eq_false_iff, decide_eq_false_iff_not, Nat.not_le, bne_eq_false_iff_eq,
    List.all_eq_false] at h
  obtain ⟨⟨hlength, hhead⟩, c, hc, hoctal⟩ := h
  obtain ⟨more, rfl⟩ := List.head?_eq_some_iff.mp hhead
  cases more with
  | nil => simp at hlength
  | cons d more =>
      refine ⟨d, more, rfl, c, ?_, ?_⟩
      · refine (List.mem_cons.mp hc).resolve_left ?_
        rintro rfl
        exact hoctal rfl
      · simpa [isDigitIn] using (not_or.mp (mt (Bool.or_eq_true _ _).mpr hoctal)).2

/-- **Digits out of order have no value.**  The leading zero makes them octal, and where the
evaluator stops for a digit it reads nothing. -/
theorem ofInteger_of_octalInOrder_eq_false (hdigits : ∀ c ∈ cs, c.isDigit = true)
    (h : octalInOrder cs = false) :
    Constant.ofInteger (String.ofList cs) = .error (.unreadable (String.ofList cs)) := by
  obtain ⟨d, more, rfl, c, hc, hnone⟩ := exists_of_octalInOrder_eq_false hdigits h
  have hd : d.isDigit = true := hdigits d (by simp)
  have hshort : ((d :: more).takeWhile (isDigitIn 8)).length ≠ (d :: more).length := by
    intro hlength
    have hall := (List.takeWhile_prefix (isDigitIn 8)).eq_of_length hlength
    have hoctal := List.takeWhile_eq_self_iff.mp hall c hc
    rw [isDigitIn, hnone] at hoctal
    cases hoctal
  have hsign : Numeral.scanSign (d :: more) = (none, d :: more) := by
    rw [Numeral.scanSign, Numeral.isSign_of_isDigit hd]
    rfl
  unfold Constant.ofInteger
  rw [withoutSeparators_digits hdigits, splitBase_octal hd]
  dsimp only
  unfold Constant.readInteger
  rw [hsign]
  dsimp only
  cases integerIn? 8 (Numeral.isMinus none) ((d :: more).takeWhile (isDigitIn 8)) with
  | none =>
      -- too large by the digits in front, but not to be read as a float either
      simp [Numeral.isMinus, floatInBase?_eq_none hc hnone]
  | some n =>
      rw [List.isEmpty_cons, if_neg Bool.false_ne_true]
      dsimp only
      rw [if_neg hshort]

end Digits

/-! ## Tokens -/

section Tokens

variable {t : Token} {text : String}

theorem ofToken_of_isStray (h : t.IsStray) : Constant.ofToken t = .error (.unreadable t.text) := by
  obtain ⟨⟨hkind, -, hdigits⟩, hoctal⟩ := h
  have hunreadable := ofInteger_of_octalInOrder_eq_false hdigits hoctal
  rw [String.ofList_toList] at hunreadable
  rw [Constant.ofToken, hkind]
  exact hunreadable

theorem IntegerText.exists_ofToken {base : Nat} {ds : List Nat} (hkind : t.kind = .integer)
    (h : IntegerText base ds t.text.toList) : ∃ v, Constant.ofToken t = .ok v := by
  obtain ⟨v, -, hv⟩ := h.exists_ofInteger
  rw [String.ofList_toList] at hv
  exact ⟨v, by rw [Constant.ofToken, hkind]; exact hv⟩

/-- Digits in order are read, wherever they stand. -/
theorem Token.IsDigits.exists_ofToken (h : t.IsDigits) (hstray : ¬ t.IsStray) :
    ∃ v, Constant.ofToken t = .ok v := by
  obtain ⟨hkind, hne, hdigits⟩ := h
  have hoctal : octalInOrder t.text.toList = true := by
    by_contra hoctal
    exact hstray ⟨⟨hkind, hne, hdigits⟩, Bool.eq_false_iff.mpr hoctal⟩
  have hmarks : ∀ c ∈ t.text.toList, isDigitOrMark c = true := by
    intro c hc
    rw [isDigitOrMark, hdigits c hc, Bool.true_or]
  obtain ⟨base, ds, hds⟩ :=
    exists_integerText_decimal hmarks (marksSeparate_of_digits hdigits none) hoctal hne
  exact hds.exists_ofToken hkind

theorem Token.InCode.exists_integerText (h : t.InCode) (hkind : t.kind = .integer) :
    ∃ base ds, IntegerText base ds t.text.toList := by
  obtain ⟨c, more, htext, -, hnumber⟩ := h.number_eq (by simp [hkind])
  rw [hkind] at hnumber
  exact GuardedExpr.exists_integerText hnumber (by simp [htext])

/-- **Every number of code is read.** -/
theorem Token.InCode.exists_ofToken (h : t.InCode) (hk : t.kind ∈ [TokenKind.integer, .float]) :
    ∃ v, Constant.ofToken t = .ok v := by
  simp only [List.mem_cons, List.not_mem_nil, or_false] at hk
  rcases hk with hkind | hkind
  · obtain ⟨base, ds, hds⟩ := h.exists_integerText hkind
    exact hds.exists_ofToken hkind
  · obtain ⟨c, more, htext, hstart, hnumber⟩ := h.number_eq (by simp [hkind])
    rw [hkind, htext] at hnumber
    obtain ⟨x, hx⟩ := exists_ofFloat hnumber hstart
    rw [← htext, String.ofList_toList] at hx
    exact ⟨.float x, by rw [Constant.ofToken, hkind]; exact hx⟩

/-- No number of code is out of order: it would have no value. -/
theorem Token.IsStray.not_inCode (h : t.IsStray) : ¬ t.InCode := by
  intro hcode
  obtain ⟨v, hv⟩ := hcode.exists_ofToken (by simp [h.1.1])
  rw [ofToken_of_isStray h] at hv
  cases hv

end Tokens

/-! ### Strings -/

section Strings

/-- A string ends with the quote that closes it. -/
theorem Lexeme.singleQuoted?_getLast {cs text : List Char} (h : singleQuoted? cs = some text) :
    text.getLast? = some '\'' := by
  fun_induction singleQuoted? cs generalizing text with
  | case1 => cases h
  | case2 =>
      cases h
      rfl
  | case3 c cs ih | case4 c cs _ _ ih =>
      obtain ⟨more, hmore, rfl⟩ := Option.map_eq_some_iff.mp h
      have hlast := ih hmore
      obtain ⟨d, more, rfl⟩ : ∃ d ds, more = d :: ds := by
        cases more with
        | nil => cases hlast
        | cons d ds => exact ⟨d, ds, rfl⟩
      exact hlast

/-- A string that is read has its quotes. -/
theorem Lexeme.ReadAs.exists_singleQuoted? {cs text : List Char}
    (h : ReadAs cs (.lexeme .string text)) :
    ∃ ds body, text = '\'' :: body ∧ singleQuoted? ds = some body := by
  generalize hp : Piece.lexeme .string text = p at h
  cases h with
  | sigil => cases hp
  | numeral _ hnumber =>
      rw [← hp] at hnumber
      rcases number_kind hnumber with hk | hk <;> cases hk
  | quoted hsingle =>
      unfold singleQuotedString at hsingle
      split at hsingle
      · next body hbody =>
          obtain ⟨-, rfl⟩ := Piece.lexeme.inj (hp.trans (Except.ok.inj hsingle).symm)
          exact ⟨_, body, rfl, hbody⟩
      · cases hsingle
  | @named c cs =>
      have hword := isWord_word (String.ofList (wordText (c :: cs)))
      rw [← (Piece.lexeme.inj hp).1] at hword
      cases hword

theorem ofEscaped_ne_unreadable (inner text : String) :
    Constant.ofEscaped inner ≠ .error (.unreadable text) := by
  unfold Constant.ofEscaped
  split
  · intro h
    cases h
  · intro h
    cases h

/-- Strings have their quotes, so that only an escape can be wrong with them. -/
theorem Token.InCode.ofToken_ne_unreadable {t : Token} (h : t.InCode) (hkind : t.kind = .string)
    (text : String) : Constant.ofToken t ≠ .error (.unreadable text) := by
  rw [Constant.ofToken, hkind]
  dsimp only
  unfold Constant.ofQuoted
  have hk : (t.kind.isWord || [TokenKind.variable, .integer, .float, .string].contains t.kind)
      = true := by
    rw [hkind]
    rfl
  rcases h.operand_or_string hk with hoperand | ⟨-, run, -, hrun⟩
  · have hread := hoperand.readAs
    rw [hkind] at hread
    obtain ⟨ds, body, hbody, hsingle⟩ := hread.exists_singleQuoted?
    rw [hbody, betweenQuotes?_of_getLast (Lexeme.singleQuoted?_getLast hsingle)]
    intro hv
    cases hv
  · rw [hrun, betweenQuotes?_of_ne (by decide), betweenQuotes?_of_getLast (by simp)]
    exact ofEscaped_ne_unreadable _ text

end Strings

/-! ### Tokens of a source -/

section Sources

variable {fs : List Frame} {ts : List Token} {t : Token} {text : String}

/-- **What is unreadable is out of order.** -/
theorem Lexed.isStray_of_unreadable (h : Lexed fs ts) (ht : t ∈ ts)
    (hv : Constant.ofToken t = .error (.unreadable text)) : t.IsStray ∧ t.text = text := by
  by_cases hk : t.kind ∈ [TokenKind.integer, .float, .string]
  · have hstray : t.IsStray := by
      rcases h.inCode_or_embedded ht hk with hcode | ⟨-, us, -, -, hus, hmem⟩
      · by_cases hstring : t.kind = .string
        · exact absurd hv (hcode.ofToken_ne_unreadable hstring text)
        · obtain ⟨v, hok⟩ := hcode.exists_ofToken (by simpa [hstring] using hk)
          rw [hok] at hv
          cases hv
      · by_contra hstray
        obtain ⟨v, hok⟩ := (hus.isDigits hmem hk).exists_ofToken hstray
        rw [hok] at hv
        cases hv
    rw [ofToken_of_isStray hstray] at hv
    exact ⟨hstray, ConstantFault.unreadable.inj (Except.error.inj hv)⟩
  · simp only [List.mem_cons, List.not_mem_nil, or_false, not_or] at hk
    unfold Constant.ofToken at hv
    split at hv
    · next hkind => exact absurd hkind hk.1
    · next hkind => exact absurd hkind hk.2.1
    · next hkind => exact absurd hkind hk.2.2
    · exact absurd hv (ofEscaped_ne_unreadable _ text)
    · cases hv
    · cases hv
    · cases hv

/-- A number of a source is read unless it is out of order. -/
theorem Lexed.exists_ofToken_iff (h : Lexed fs ts) (ht : t ∈ ts)
    (hk : t.kind ∈ [TokenKind.integer, .float]) :
    (∃ v, Constant.ofToken t = .ok v) ↔ ¬ t.IsStray := by
  constructor
  · rintro ⟨v, hv⟩ hstray
    rw [ofToken_of_isStray hstray] at hv
    cases hv
  · intro hstray
    have hkind : t.kind ∈ [TokenKind.integer, .float, .string] :=
      List.mem_append_left [TokenKind.string] hk
    rcases h.inCode_or_embedded ht hkind with hcode | ⟨-, us, -, -, hus, hmem⟩
    · exact hcode.exists_ofToken hk
    · exact (hus.isDigits hmem hkind).exists_ofToken hstray

end Sources

/-! ## Evaluations -/

/-- An evaluation finds a literal unreadable only at a token with the property. -/
def Contract.readingTokens (P : Token → Prop) : Contract where
  call _ := True
  place _ := True
  fault f := ∀ text, f = .constant (.unreadable text) →
    ∃ t, P t ∧ Constant.ofToken t = .error (.unreadable text)

theorem Contract.readingTokens_admitsNodes (P : Token → Prop) (env : Environment) :
    (Contract.readingTokens P).AdmitsNodes env where
  call _ _ := trivial
  fault f hf := by
    rintro text rfl
    cases hf

theorem Contract.readingTokens_admitsOperator (P : Token → Prop) (e : Expr) :
    (Contract.readingTokens P).AdmitsOperator e := by
  rintro what - text ⟨⟩

theorem Contract.readingTokens_admitsLiteral {P : Token → Prop} {t : Token} (ht : P t) :
    (Contract.readingTokens P).AdmitsLiteral t := by
  rintro fault hfault text ⟨⟩
  exact ⟨t, ht, hfault⟩

/-- **An unreadable literal is a token of the tree.** -/
theorem Expr.Everywhere.exists_unreadable {P : Token → Prop} {e : Expr} (h : e.Everywhere P)
    {env : Environment} {limit : Nat} {past calls : List Call} {err : EvalError} {text : String}
    (hrun : (e.evaluate env limit).runOn past = (.error err, calls))
    (hfault : err.fault = .constant (.unreadable text)) :
    ∃ t, P t ∧ Constant.ofToken t = .error (.unreadable text) := by
  have hholds : (Contract.readingTokens P).Holds (e.evaluate env limit) := by
    refine Contract.holds_evaluateWithin_at_nodes (Contract.readingTokens_admitsNodes P env) ?_
      limit (fun _ _ => trivial) (fun x _ => Contract.readingTokens_admitsOperator P x)
      fun t ht => Contract.readingTokens_admitsLiteral (h _ ht)
    rintro text ⟨⟩
  obtain ⟨-, -, -, herror⟩ := hholds past
  exact (herror err (congrArg Prod.fst hrun)).2 text hfault

/-- Compiled code has the tokens of its source. -/
theorem Engine.everywhere_of_compile {engine : Engine} {source : String} {ts : List Token}
    {code : Compiled} (h : tokenize source = .ok ts) (hcompile : engine.compile source = .ok code) :
    code.tree.Everywhere (· ∈ ts) := by
  unfold Engine.compile Expr.parse at hcompile
  rw [h] at hcompile
  dsimp only at hcompile
  split at hcompile
  · next tree hparse =>
      cases hcompile
      exact (Expr.ofTokens_keeps_source h engine.limits.parsing).2 tree hparse
  · cases hcompile

/-- The failure of a run is that of the evaluation. -/
theorem Engine.evaluate_of_run {engine : Engine} {code : Compiled} {context : Context}
    {host : Host} {past calls : List Call} {err : EvalError}
    (h : (engine.run code context host).run past = (.error (.runtime err), calls)) :
    (code.tree.evaluate ⟨context, host, engine.denied⟩ engine.limits.evaluation).runOn past
      = (.error err, calls) := by
  have hrun : (engine.run code context host).run past
      = (fun outcome => (outcome.1.mapError Failure.ofEvalError, outcome.2))
          ((code.tree.evaluate ⟨context, host, engine.denied⟩ engine.limits.evaluation).runOn past) :=
    rfl
  rw [hrun] at h
  generalize (code.tree.evaluate ⟨context, host, engine.denied⟩
    engine.limits.evaluation).runOn past = outcome at h
  obtain ⟨result, after⟩ := outcome
  obtain ⟨hresult, rfl⟩ := Prod.mk.inj h
  cases result with
  | ok v => cases hresult
  | error e =>
      have he : Failure.ofEvalError e = .runtime err := Except.error.inj hresult
      unfold Failure.ofEvalError at he
      split at he
      · cases he
      · cases he
        rfl

/-- **Only offsets in strings are unreadable.**  Of the integers and floats of a source exactly
those fail to be read that are digits out of order behind a leading zero.  None of these can stand
in code: each belongs to a variable embedded in a string.  A run of the compiled source, with
whatever limits, deny-list, context and host, finds a literal unreadable only where the source has
such digits, and names them. -/
theorem unreadable_literals_are_embedded_offsets {source : String} {ts : List Token}
    (h : tokenize source = .ok ts) :
    (∀ t ∈ ts, t.kind = .integer ∨ t.kind = .float →
      ((∃ v, Constant.ofToken t = .ok v) ↔ ¬ t.IsStray)) ∧
    (∀ t ∈ ts, t.IsStray → ¬ t.InCode ∧
      ∃ before us after, ts = before ++ (us ++ after) ∧ Embedded us ∧ t ∈ us) ∧
    ∀ (engine : Engine) (code : Compiled), engine.compile source = .ok code →
      ∀ context host past calls err text,
        (engine.run code context host).run past = (.error (.runtime err), calls) →
        err.fault = .constant (.unreadable text) → ∃ t ∈ ts, t.IsStray ∧ t.text = text := by
  have hlexed := lexed_of_tokenize h
  refine ⟨?_, ?_, ?_⟩
  · intro t ht hk
    exact hlexed.exists_ofToken_iff ht (by simpa using hk)
  · intro t ht hstray
    have hcode := hstray.not_inCode
    exact ⟨hcode, (hlexed.inCode_or_embedded ht (by simp [hstray.1.1])).resolve_left hcode⟩
  · intro engine code hcompile context host past calls err text hrun hfault
    have htree := Engine.everywhere_of_compile h hcompile
    obtain ⟨t, ht, hv⟩ := htree.exists_unreadable (Engine.evaluate_of_run hrun) hfault
    exact ⟨t, ht, hlexed.isStray_of_unreadable ht hv⟩

/-- The tokens of `"$a[08]"`. -/
def strayOffsetTokens : List Token :=
  [⟨.quote, "\"", ⟨0, 1, 1, 1⟩⟩, ⟨.variable, "$a", ⟨1, 2, 1, 2⟩⟩, ⟨.lbracket, "[", ⟨3, 1, 1, 4⟩⟩,
   ⟨.integer, "08", ⟨4, 2, 1, 5⟩⟩, ⟨.rbracket, "]", ⟨6, 1, 1, 7⟩⟩, ⟨.quote, "\"", ⟨7, 1, 1, 8⟩⟩,
   ⟨.eof, "", ⟨8, 0, 1, 9⟩⟩]

/-- What `"$a[08]"` compiles to. -/
def strayOffset : Expr :=
  .interpolation ⟨.quote, "\"", ⟨0, 1, 1, 1⟩⟩
    [.access (.variable ⟨.variable, "$a", ⟨1, 2, 1, 2⟩⟩) ⟨.lbracket, "[", ⟨3, 1, 1, 4⟩⟩
      (.literal ⟨.integer, "08", ⟨4, 2, 1, 5⟩⟩)]

theorem tokenize_strayOffset : tokenize "\"$a[08]\"" = .ok strayOffsetTokens := rfl

theorem compile_strayOffset :
    Engine.standard.compile "\"$a[08]\"" = .ok ⟨"\"$a[08]\"", strayOffset⟩ := by
  unfold Engine.compile Expr.parse
  rw [tokenize_strayOffset]
  rfl

/-- Where the variable is bound, the evaluation reaches the offset. -/
theorem run_strayOffset (past : List Call) :
    (Engine.standard.run ⟨"\"$a[08]\"", strayOffset⟩ (.ofList [("a", .int 5)]) .absent).run past
      = (.error (.runtime ⟨.constant (.unreadable "08"), ⟨4, 2, 1, 5⟩⟩), past) := rfl

/-- The offset of `"$a[08]"` has no value, and a run says so. -/
theorem stray_offset_is_unreadable :
    tokenize "\"$a[08]\"" = .ok strayOffsetTokens ∧
      ∃ t ∈ strayOffsetTokens, t.IsStray ∧ t.text = "08" := by
  have hrun := run_strayOffset []
  exact ⟨tokenize_strayOffset, (unreadable_literals_are_embedded_offsets tokenize_strayOffset).2.2
    _ _ compile_strayOffset _ _ _ _ _ _ hrun rfl⟩

/-- A source that compiles need not have readable literals only. -/
theorem compiled_literal_may_be_unreadable :
    ¬ ∀ source code, Engine.standard.compile source = .ok code →
      ∀ context host past calls err,
        (Engine.standard.run code context host).run past = (.error (.runtime err), calls) →
        ∀ text, err.fault ≠ .constant (.unreadable text) := by
  intro hclaim
  exact hclaim _ _ compile_strayOffset _ _ [] _ _ (run_strayOffset []) "08" rfl

end GuardedExpr
