/-
# Rescanning — a token that is written again is scanned again

A token ends where no longer one can be read, so its text alone does not tell
whether it is scanned as it was: `1` behind `e` and in front of `5` is not.  But it
is wherever it is set off, which means that the next character is no part of a name,
no point and no backslash (`SetOff`).  `IsLexeme k cs` says so of a text; it holds of
every operand that the scanner has read (`isLexeme_of_readAs`, `isLexeme_doubleQuoted`).
-/
import GuardedExpr.Proofs.LineBreak

namespace GuardedExpr

open Text

/-- What follows does not go on with a word or a number. -/
def SetOff (rest : List Char) : Prop :=
  ∀ c ∈ rest.head?, isNameChar c = false ∧ c ≠ '.' ∧ c ≠ '\\'

theorem setOff_nil : SetOff [] := by
  intro c hc
  cases hc

theorem setOff_cons {c : Char} (hc : isNameChar c = false ∧ c ≠ '.' ∧ c ≠ '\\')
    (cs : List Char) : SetOff (c :: cs) := by
  intro d hd
  cases hd
  exact hc

section SetOff

variable {rest : List Char}

/-- Among the characters of names, none of a class is in front. -/
theorem SetOff.takeWhile_eq_nil (h : SetOff rest) {p : Char → Bool}
    (hp : ∀ c, p c = true → isNameChar c = true) : rest.takeWhile p = [] := by
  cases rest with
  | nil => rfl
  | cons c cs =>
      refine List.takeWhile_cons_of_neg fun hc => ?_
      exact Bool.false_ne_true ((h c rfl).1.symm.trans (hp c hc))

/-- A run of a class of name characters ends where the rest is set off. -/
theorem SetOff.takeWhile_append (h : SetOff rest) {p : Char → Bool}
    (hp : ∀ c, p c = true → isNameChar c = true) {cs : List Char} (hcs : ∀ c ∈ cs, p c = true) :
    (cs ++ rest).takeWhile p = cs := by
  rw [List.takeWhile_append_of_pos hcs, h.takeWhile_eq_nil hp, List.append_nil]

end SetOff

theorem isNameChar_of_isDigit {c : Char} (h : c.isDigit = true) : isNameChar c = true := by
  rw [isNameChar, h, Bool.or_true]

theorem isNameChar_of_isDigitOrMark {c : Char} (h : Lexeme.isDigitOrMark c = true) :
    isNameChar c = true := by
  rw [Lexeme.isDigitOrMark, Bool.or_eq_true, beq_iff_eq] at h
  rcases h with h | rfl
  · exact isNameChar_of_isDigit h
  · rfl

namespace Lexeme

/-! ## Words and variables -/

theorem wordText_setOff {text r rest : List Char} (h : wordText (text ++ r) = text)
    (hrest : SetOff rest) : wordText (text ++ rest) = text := by
  induction text with
  | nil =>
      cases rest with
      | nil => rfl
      | cons c cs =>
          obtain ⟨hname, -, hslash⟩ := hrest c rfl
          simp [wordText, hname, hslash]
  | cons c text ih =>
      rw [List.cons_append, wordText] at h ⊢
      split at h
      · next hc =>
          rw [List.cons.injEq] at h
          have htext := ih h.2
          have hstart : (isNameChar c || (c == '\\' && startsName (text ++ rest))) = true := by
            cases text with
            | cons d text => exact hc
            | nil =>
                -- a name that starts behind the backslash would have been part of the word
                simp only [Bool.or_eq_true, Bool.and_eq_true, List.nil_append] at hc ⊢
                refine hc.imp_right fun hslash => ?_
                cases r with
                | nil => cases hslash.2
                | cons d r =>
                    have hd : isNameChar d = true := by
                      rw [isNameChar, Bool.or_eq_true]
                      exact .inl hslash.2
                    simp [wordText, hd] at h
          rw [if_pos hstart, htext]
      · cases h

theorem variableText_setOff {c : Char} {cs text rest : List Char}
    (h : variableText (c :: cs) = text) (hrest : SetOff rest) :
    variableText (text ++ rest) = text := by
  subst h
  have hall : ∀ d ∈ cs.takeWhile isNameChar, isNameChar d = true :=
    List.all_eq_true.mp List.all_takeWhile
  exact congrArg (c :: ·) (hrest.takeWhile_append (fun _ hd => hd) hall)

/-! ## Numbers -/

/-- A fraction as it may stand in a number, or nothing. -/
inductive IsFraction : List Char → Prop
  | nil : IsFraction []
  | point {ds : List Char} : startsDigit ds = true → (∀ c ∈ ds, isDigitOrMark c = true) →
      IsFraction ('.' :: ds)

/-- An exponent as it may stand in a number, or nothing. -/
inductive IsExponent : List Char → Prop
  | nil : IsExponent []
  | letter {e : Char} {sign ds : List Char} : (e == 'e' || e == 'E') = true →
      sign ∈ [[], ['+'], ['-']] → ds ≠ [] → (∀ c ∈ ds, c.isDigit = true) →
      IsExponent (e :: (sign ++ ds))

theorem isFraction_fractionText (cs : List Char) : IsFraction (fractionText cs) := by
  unfold fractionText
  split
  · next cs =>
      split
      · next hdigit =>
          refine .point ?_ (List.all_eq_true.mp List.all_takeWhile)
          cases cs with
          | nil => cases hdigit
          | cons c cs =>
              have hc : c.isDigit = true := by simpa [startsDigit] using hdigit
              simp [startsDigit, isDigitOrMark, hc]
      · exact .nil
  · exact .nil

theorem isExponent_exponentText (cs : List Char) : IsExponent (exponentText cs) := by
  unfold exponentText
  split
  · next c cs =>
      dsimp only
      split
      · next hletter =>
          split
          · exact .nil
          · next hdigits =>
              refine .letter hletter ?_ (by simpa using hdigits)
                (List.all_eq_true.mp List.all_takeWhile)
              rcases cs with _ | ⟨d, cs⟩
              · exact List.mem_cons_self
              · by_cases hplus : d = '+'
                · subst hplus
                  simp
                · by_cases hminus : d = '-'
                  · subst hminus
                    simp
                  · simp [hplus, hminus]
      · exact .nil
  · exact .nil

section Parts

variable {rest : List Char} (hrest : SetOff rest)

include hrest

theorem exponentText_setOff {exponent : List Char} (h : IsExponent exponent) :
    exponentText (exponent ++ rest) = exponent := by
  cases h with
  | nil =>
      cases rest with
      | nil => rfl
      | cons c cs =>
          have hc : (c == 'e' || c == 'E') = false := by
            rw [Bool.eq_false_iff]
            intro hletter
            have hname := (hrest c rfl).1
            rcases Bool.or_eq_true _ _ ▸ hletter with h | h <;>
            · rw [beq_iff_eq.mp h] at hname
              cases hname
          simp [exponentText, hc]
  | @letter e sign ds he hsign hne hds =>
      obtain ⟨d, ds, rfl⟩ := List.exists_cons_of_ne_nil hne
      have hd : d.isDigit = true := hds d List.mem_cons_self
      have hplus : (d == '+') = false := by
        refine beq_eq_false_iff_ne.mpr ?_
        rintro rfl
        cases hd
      have hminus : (d == '-') = false := by
        refine beq_eq_false_iff_ne.mpr ?_
        rintro rfl
        cases hd
      have hdigits : (d :: (ds ++ rest)).takeWhile Char.isDigit = d :: ds := by
        rw [← List.cons_append]
        exact hrest.takeWhile_append (fun _ => isNameChar_of_isDigit) hds
      simp only [List.mem_cons, List.not_mem_nil, or_false] at hsign
      rcases hsign with rfl | rfl | rfl
      · simp [exponentText, he, hplus, hminus, hdigits]
      · simp [exponentText, he, hdigits]
      · simp [exponentText, he, hdigits]

theorem fractionText_setOff {fraction exponent : List Char} (hf : IsFraction fraction)
    (he : IsExponent exponent) : fractionText (fraction ++ (exponent ++ rest)) = fraction := by
  have hletter : ∀ c cs, exponent = c :: cs → (c == 'e' || c == 'E') = true := by
    rintro c cs rfl
    cases he with
    | letter h => exact h
  cases hf with
  | nil =>
      cases hexp : exponent with
      | nil =>
          cases rest with
          | nil => rfl
          | cons c cs =>
              have hc : c ≠ '.' := (hrest c rfl).2.1
              simp [fractionText, hc]
      | cons c cs =>
          have hc : c ≠ '.' := by
            rintro rfl
            cases hletter _ _ hexp
          simp [fractionText, hc]
  | @point ds hdigit hds =>
      have hstart : startsDigit (ds ++ (exponent ++ rest)) = true := by
        cases ds with
        | nil => cases hdigit
        | cons d ds => exact hdigit
      have hrun : (exponent ++ rest).takeWhile isDigitOrMark = [] := by
        cases hexp : exponent with
        | nil => exact hrest.takeWhile_eq_nil fun _ => isNameChar_of_isDigitOrMark
        | cons c cs =>
            refine List.takeWhile_cons_of_neg ?_
            rcases Bool.or_eq_true _ _ ▸ hletter _ _ hexp with h | h <;>
            · rw [beq_iff_eq.mp h]
              decide
      rw [List.cons_append, fractionText, if_pos hstart, List.takeWhile_append_of_pos hds, hrun,
        List.append_nil]

theorem wholeText_setOff {whole fraction exponent : List Char}
    (hw : ∀ c ∈ whole, isDigitOrMark c = true) (hf : IsFraction fraction)
    (he : IsExponent exponent) :
    (whole ++ (fraction ++ (exponent ++ rest))).takeWhile isDigitOrMark = whole := by
  have hrun : (fraction ++ (exponent ++ rest)).takeWhile isDigitOrMark = [] := by
    cases hf with
    | point => exact List.takeWhile_cons_of_neg (by decide)
    | nil =>
        cases he with
        | nil => exact hrest.takeWhile_eq_nil fun _ => isNameChar_of_isDigitOrMark
        | letter hletter =>
            refine List.takeWhile_cons_of_neg ?_
            rcases Bool.or_eq_true _ _ ▸ hletter with h | h <;>
            · rw [beq_iff_eq.mp h]
              decide
  rw [List.takeWhile_append_of_pos hw, hrun, List.append_nil]

theorem decimalNumber_setOff {cs text : List Char} {k : TokenKind}
    (h : decimalNumber cs = .ok (.lexeme k text)) :
    decimalNumber (text ++ rest) = .ok (.lexeme k text) := by
  unfold decimalNumber at h
  dsimp only at h
  split at h
  · next hvalid =>
      cases h
      -- the text is put together from parts that are found again
      have hw : ∀ c ∈ cs.takeWhile isDigitOrMark, isDigitOrMark c = true :=
        List.all_eq_true.mp List.all_takeWhile
      have hf := isFraction_fractionText (cs.drop (cs.takeWhile isDigitOrMark).length)
      have he := isExponent_exponentText (cs.drop (cs.takeWhile isDigitOrMark ++
        fractionText (cs.drop (cs.takeWhile isDigitOrMark).length)).length)
      simp only [Bool.and_eq_true] at hvalid
      obtain ⟨⟨-, hmarks⟩, hoctal⟩ := hvalid
      generalize cs.takeWhile isDigitOrMark = whole at *
      generalize fractionText (cs.drop whole.length) = fraction at *
      generalize exponentText (cs.drop (whole ++ fraction).length) = exponent at *
      have htail : rest.takeWhile isNameChar = [] := hrest.takeWhile_eq_nil fun _ hc => hc
      have hdropFraction : (whole ++ (fraction ++ (exponent ++ rest))).drop whole.length
          = fraction ++ (exponent ++ rest) := List.drop_left
      have hdropExponent : (whole ++ (fraction ++ (exponent ++ rest))).drop
          (whole ++ fraction).length = exponent ++ rest := by
        rw [← List.append_assoc, List.drop_left]
      have hdropRest : (whole ++ (fraction ++ (exponent ++ rest))).drop
          (whole ++ fraction ++ exponent).length = rest := by
        rw [← List.append_assoc, ← List.append_assoc, List.drop_left]
      have htext : whole ++ fraction ++ exponent ++ rest
          = whole ++ (fraction ++ (exponent ++ rest)) := by
        rw [List.append_assoc, List.append_assoc]
      unfold decimalNumber
      rw [htext]
      dsimp only
      rw [wholeText_setOff hrest hw hf he, hdropFraction, fractionText_setOff hrest hf he,
        hdropExponent, exponentText_setOff hrest he, hdropRest, htail, hmarks, hoctal]
      rfl
  · cases h

end Parts

/-- A letter that announces a base is part of the number. -/
theorem radix?_eq {text r r' : List Char} (hne : text ≠ [])
    (hr : ∀ c ∈ r.head?, isNameChar c = false) (hr' : ∀ c ∈ r'.head?, isNameChar c = false) :
    radix? (text ++ r') = radix? (text ++ r) := by
  rcases text with _ | ⟨c, _ | ⟨d, text⟩⟩
  · exact absurd rfl hne
  · have hnone : ∀ {cs : List Char}, (∀ c ∈ cs.head?, isNameChar c = false) →
        radix? (c :: cs) = none := by
      intro cs hcs
      unfold radix?
      split
      · next d ds hd =>
          obtain ⟨-, rfl⟩ := List.cons.inj hd
          have hletter : ∀ x : Char, isNameChar x = true → (d == x) = false := by
            intro x hx
            refine beq_eq_false_iff_ne.mpr ?_
            rintro rfl
            exact Bool.false_ne_true ((hcs d rfl).symm.trans hx)
          simp [hletter 'x' rfl, hletter 'X' rfl, hletter 'b' rfl, hletter 'B' rfl,
            hletter 'o' rfl, hletter 'O' rfl]
      · rfl
    rw [List.singleton_append, List.singleton_append, hnone hr, hnone hr']
  · by_cases hc : c = '0'
    · subst hc
      rfl
    · unfold radix?
      split <;> simp_all

/-- Behind a number that has been read, no name goes on. -/
theorem exists_of_decimalNumber {cs text : List Char} {k : TokenKind}
    (h : decimalNumber cs = .ok (.lexeme k text)) :
    ∃ r, cs = text ++ r ∧ ∀ c ∈ r.head?, isNameChar c = false := by
  have hfront : text <+: cs := by
    unfold decimalNumber at h
    dsimp only at h
    split at h
    · cases h
      refine isPrefix_append (isPrefix_append (List.takeWhile_prefix _) ?_) ?_
      · exact fractionText_isPrefix _
      · exact exponentText_isPrefix _
    · cases h
  obtain ⟨r, rfl⟩ := hfront
  refine ⟨r, rfl, ?_⟩
  unfold decimalNumber at h
  dsimp only at h
  split at h
  · next hvalid =>
      simp only [Bool.and_eq_true, List.isEmpty_iff] at hvalid
      have htext := (Piece.lexeme.inj (Except.ok.inj h)).2
      rw [htext, List.drop_left] at hvalid
      intro c hc
      cases r with
      | nil => cases hc
      | cons d r =>
          cases hc
          by_contra hname
          rw [Bool.not_eq_false] at hname
          simp [hname] at hvalid
  · cases h

theorem number_setOff {cs text rest : List Char} {k : TokenKind}
    (h : number cs = .ok (.lexeme k text)) (hne : text ≠ []) (hrest : SetOff rest) :
    number (text ++ rest) = .ok (.lexeme k text) := by
  unfold number at h
  split at h
  · next base hbase =>
      unfold radix? at hbase
      split at hbase
      · next c cs =>
          unfold radixNumber at h
          dsimp only at h
          split at h
          · next hvalid =>
              cases h
              have hall : ∀ d ∈ cs.takeWhile isNameChar, isNameChar d = true :=
                List.all_eq_true.mp List.all_takeWhile
              have hdigits : (cs.takeWhile isNameChar ++ rest).takeWhile isNameChar
                  = cs.takeWhile isNameChar := hrest.takeWhile_append (fun _ hc => hc) hall
              have hradix : radix? ('0' :: c :: (cs.takeWhile isNameChar ++ rest)) = some base :=
                hbase
              show number ('0' :: c :: (cs.takeWhile isNameChar ++ rest)) = _
              unfold number
              rw [hradix]
              dsimp only
              unfold radixNumber
              rw [show ('0' :: c :: (cs.takeWhile isNameChar ++ rest)).drop 2
                = cs.takeWhile isNameChar ++ rest from rfl, hdigits]
              exact if_pos hvalid
          · cases h
      · cases hbase
  · next hbase =>
      obtain ⟨r, rfl, hr⟩ := exists_of_decimalNumber h
      unfold number
      rw [radix?_eq hne hr fun c hc => (hrest c hc).1, hbase]
      exact decimalNumber_setOff hrest h

/-! ## Strings between single quotes -/

/-- The text of a string is found whatever stands behind it. -/
theorem singleQuoted?_setOff {cs text : List Char} (h : singleQuoted? cs = some text)
    (rest : List Char) : singleQuoted? (text ++ rest) = some text := by
  fun_induction singleQuoted? cs generalizing text with
  | case1 => cases h
  | case2 =>
      cases h
      rfl
  | case3 c cs ih =>
      obtain ⟨more, hmore, rfl⟩ := Option.map_eq_some_iff.mp h
      show (singleQuoted? (more ++ rest)).map ('\\' :: c :: ·) = _
      rw [ih hmore]
      rfl
  | case4 c cs hquote hescape ih =>
      obtain ⟨more, hmore, rfl⟩ := Option.map_eq_some_iff.mp h
      have hc : c ≠ '\\' := by
        rintro rfl
        cases cs with
        | nil => cases hmore
        | cons c' cs' => exact hescape c' cs' rfl rfl
      rw [List.cons_append, singleQuoted?_cons _ hquote hc, ih hmore]
      rfl

/-! ## The token at the front -/

section Read

variable {c : Char} {cs rest text : List Char} {k : TokenKind}

theorem isDigit_of_isNameStart (h : isNameStart c = true) : c.isDigit = false := by
  rw [Bool.eq_false_iff]
  intro hdigit
  simp only [Char.isDigit, Bool.and_eq_true, decide_eq_true_eq, ge_iff_le,
    UInt32.le_iff_toNat_le] at hdigit
  have hhigh : c.toNat ≤ '9'.toNat := hdigit.2
  have hletter : c.isAlpha = (decide (c.val ≥ 'A'.val ∧ c.val ≤ 'Z'.val)
      || (decide (c.val ≥ 'a'.val) && decide (c.val ≤ 'z'.val))) := rfl
  simp only [isNameStart, hletter, Bool.or_eq_true, Bool.and_eq_true, decide_eq_true_eq,
    beq_iff_eq, ge_iff_le, UInt32.le_iff_toNat_le] at h
  rcases h with ((⟨hlow, -⟩ | ⟨hlow, -⟩) | rfl) | hlow
  · exact absurd (Nat.le_trans hlow hhigh) (by decide)
  · exact absurd (Nat.le_trans hlow hhigh) (by decide)
  · exact absurd hhigh (by decide)
  · exact absurd (Nat.le_trans hlow hhigh) (by decide)

theorem read_variable (h : startsName cs = true) :
    read ('$' :: cs) = .ok (variableName ('$' :: cs)) := by
  simp [read, h]

theorem read_number (h : (c.isDigit || (c == '.' && startsDigit cs)) = true) :
    read (c :: cs) = number (c :: cs) := by
  have hc : (c == '$') = false := by
    refine beq_eq_false_iff_ne.mpr ?_
    rintro rfl
    cases h
  simp only [read, hc, Bool.false_and, Bool.false_eq_true, if_false]
  rw [if_pos h]

theorem read_word (h : (isNameStart c || (c == '\\' && startsName cs)) = true) :
    read (c :: cs) = .ok (word (c :: cs)) := by
  rcases Bool.or_eq_true _ _ ▸ h with hc | hc
  · have hne : ∀ d : Char, isNameStart d = false → (c == d) = false := by
      intro d hd
      refine beq_eq_false_iff_ne.mpr ?_
      rintro rfl
      exact Bool.false_ne_true (hd.symm.trans hc)
    simp [read, hne '$' rfl, hne '.' rfl, hne '\'' rfl, isDigit_of_isNameStart hc, hc]
  · simp only [Bool.and_eq_true, beq_iff_eq] at hc
    obtain ⟨rfl, hstart⟩ := hc
    simp only [read, hstart]
    rfl

/-- A number that starts with a point goes on with a digit. -/
theorem exists_of_number_point (hdigit : startsDigit cs = true)
    (h : number ('.' :: cs) = .ok (.lexeme k text)) :
    ∃ more, text = '.' :: more ∧ startsDigit more = true := by
  have hnumber : decimalNumber ('.' :: cs) = .ok (.lexeme k text) := h
  unfold decimalNumber at hnumber
  dsimp only at hnumber
  split at hnumber
  · cases hnumber
    have hwhole : ('.' :: cs).takeWhile isDigitOrMark = [] := List.takeWhile_cons_of_neg (by decide)
    have hfraction : fractionText ('.' :: cs) = '.' :: cs.takeWhile isDigitOrMark := by
      rw [fractionText, if_pos hdigit]
    rw [hwhole, List.length_nil, List.drop_zero, hfraction]
    refine ⟨_, rfl, ?_⟩
    cases cs with
    | nil => cases hdigit
    | cons d cs =>
        have hd : d.isDigit = true := by simpa [startsDigit] using hdigit
        simp [startsDigit, isDigitOrMark, hd]
  · cases hnumber

theorem keyword?_isWord {text : String} {k : TokenKind} (h : keyword? text = some k) :
    k.isWord = true := by
  unfold keyword? at h
  split at h <;> cases h <;> rfl

/-- The kind of a word is one of words. -/
theorem isWord_word (text : String) : ((keyword? text).getD .identifier).isWord = true := by
  cases hk : keyword? text with
  | none => rfl
  | some k => exact keyword?_isWord hk

/-- The readers of the single classes, by the first character. -/
inductive ReadAs : List Char → Piece → Prop
  | sigil {cs : List Char} : startsName cs = true → ReadAs ('$' :: cs) (variableName ('$' :: cs))
  | numeral {c : Char} {cs : List Char} {p : Piece} :
      (c.isDigit || (c == '.' && startsDigit cs)) = true → number (c :: cs) = .ok p →
      ReadAs (c :: cs) p
  | quoted {cs : List Char} {p : Piece} :
      singleQuotedString ('\'' :: cs) = .ok p → ReadAs ('\'' :: cs) p
  | named {c : Char} {cs : List Char} :
      (isNameStart c || (c == '\\' && startsName cs)) = true → ReadAs (c :: cs) (word (c :: cs))

/-- What is read is an operand, a cast or an operator. -/
theorem read_cases {p : Piece} (h : read cs = .ok p) :
    ReadAs cs p ∨ (∃ rest text, castText? ('(' :: rest) = some text ∧ p = .lexeme .cast text) ∨
      operator cs = .ok p := by
  unfold read at h
  split at h
  · cases h
  · next c cs =>
      split at h
      · next hc =>
          simp only [Bool.and_eq_true, beq_iff_eq] at hc
          obtain ⟨rfl, hstart⟩ := hc
          exact .inl (Except.ok.inj h ▸ .sigil hstart)
      · split at h
        · next hc => exact .inl (.numeral hc h)
        · split at h
          · next hc =>
              obtain rfl := beq_iff_eq.mp hc
              exact .inl (.quoted h)
          · split at h
            · next hc => exact .inl (Except.ok.inj h ▸ .named hc)
            · split at h
              · next hc =>
                  obtain rfl := beq_iff_eq.mp hc
                  split at h
                  · next text htext =>
                      exact .inr (.inl ⟨cs, text, htext, (Except.ok.inj h).symm⟩)
                  · exact .inr (.inr h)
              · exact .inr (.inr h)

/-- An operator is one of the table. -/
theorem exists_of_operator {p : Piece} (h : operator cs = .ok p) :
    ∃ spelling kind, (spelling, kind) ∈ operators ∧ p = .lexeme kind spelling.toList := by
  unfold operator at h
  split at h
  · next spelling kind hfind =>
      cases h
      exact ⟨spelling, kind, List.mem_of_find?_eq_some hfind, rfl⟩
  · cases h

theorem ReadAs.front {p : Piece} (h : ReadAs (c :: cs) p) : Piece.Front (c :: cs) p := by
  cases h with
  | sigil => exact variableName_front '$' cs
  | numeral hc hnumber => exact number_front hc hnumber
  | quoted hsingle => exact singleQuotedString_front hsingle
  | named hc => exact word_front hc

/-- The text starts with the character that decided. -/
theorem ReadAs.exists_cons (h : ReadAs (c :: cs) (.lexeme k text)) :
    ∃ more r, text = c :: more ∧ cs = more ++ r := by
  cases h.front with
  | lexeme _ hne hfront =>
      obtain ⟨d, more, rfl⟩ := List.exists_cons_of_ne_nil hne
      obtain ⟨r, hr⟩ := hfront
      obtain ⟨rfl, rfl⟩ := List.cons.inj hr
      exact ⟨more, r, rfl, rfl⟩

/-- **A token is read again** where its text is set off. -/
theorem ReadAs.again (h : ReadAs cs (.lexeme k text)) (hrest : SetOff rest) :
    ReadAs (text ++ rest) (.lexeme k text) := by
  have hstart : ∀ {p : Char → Bool} {ds more r : List Char}, ds = more ++ r →
      more ≠ [] → ds.head?.any p = true → (more ++ rest).head?.any p = true := by
    rintro p _ more r rfl hne hany
    obtain ⟨d, more, rfl⟩ := List.exists_cons_of_ne_nil hne
    exact hany
  cases h with
  | @sigil cs hname =>
      have htext : variableText (variableText ('$' :: cs) ++ rest) = variableText ('$' :: cs) :=
        variableText_setOff rfl hrest
      have hpiece : variableName ('$' :: cs)
          = variableName ('$' :: (cs.takeWhile isNameChar ++ rest)) :=
        congrArg (Piece.lexeme .variable) htext.symm
      show ReadAs ('$' :: (cs.takeWhile isNameChar ++ rest)) (variableName ('$' :: cs))
      rw [hpiece]
      refine .sigil ?_
      obtain ⟨r, hr⟩ := List.takeWhile_prefix isNameChar (l := cs)
      refine hstart hr.symm ?_ hname
      cases cs with
      | nil => cases hname
      | cons d cs =>
          have hd : isNameStart d = true := by simpa [startsName] using hname
          simp [isNameChar, hd]
  | @numeral c cs _ hc hnumber =>
      obtain ⟨more, r, rfl, rfl⟩ := ReadAs.exists_cons (.numeral hc hnumber)
      refine .numeral ?_ (number_setOff hnumber (List.cons_ne_nil _ _) hrest)
      refine Bool.or_eq_true _ _ ▸ (Bool.or_eq_true _ _ ▸ hc).imp_right fun hpoint => ?_
      simp only [Bool.and_eq_true, beq_iff_eq] at hpoint ⊢
      obtain ⟨rfl, hdigit⟩ := hpoint
      obtain ⟨more', heq, hmore⟩ := exists_of_number_point hdigit hnumber
      obtain rfl := (List.cons.inj heq).2
      refine ⟨rfl, hstart rfl ?_ hdigit⟩
      rintro rfl
      cases hmore
  | @quoted cs _ hsingle =>
      unfold singleQuotedString at hsingle
      split at hsingle
      · next more hmore =>
          cases hsingle
          refine .quoted ?_
          have hagain : singleQuoted? (more ++ rest) = some more := singleQuoted?_setOff hmore rest
          show singleQuotedString ('\'' :: (more ++ rest)) = _
          unfold singleQuotedString
          rw [show ('\'' :: (more ++ rest)).drop 1 = more ++ rest from rfl, hagain]
          rfl
      · cases hsingle
  | @named c cs hc =>
      obtain ⟨more, r, hmore, rfl⟩ := ReadAs.exists_cons (.named hc)
      have hword : wordText (c :: more ++ r) = c :: more := hmore
      have hagain : wordText (c :: (more ++ rest)) = wordText (c :: (more ++ r)) :=
        (wordText_setOff hword hrest).trans hmore.symm
      have hpiece : word (c :: (more ++ r)) = word (c :: (more ++ rest)) := by
        unfold word
        rw [hagain]
      rw [hmore]
      show ReadAs (c :: (more ++ rest)) _
      rw [← hmore]
      show ReadAs (c :: (more ++ rest)) (word (c :: (more ++ r)))
      rw [hpiece]
      refine .named ?_
      refine Bool.or_eq_true _ _ ▸ (Bool.or_eq_true _ _ ▸ hc).imp_right fun hslash => ?_
      simp only [Bool.and_eq_true, beq_iff_eq] at hslash ⊢
      obtain ⟨rfl, hname⟩ := hslash
      refine ⟨rfl, hstart rfl ?_ hname⟩
      rintro rfl
      rw [List.nil_append] at hname
      cases r with
      | nil => cases hname
      | cons d r =>
          have hd : isNameStart d = true := by simpa [startsName] using hname
          simp [wordText, startsName, isNameChar, hd] at hword

/-- No number, variable or string starts with a letter. -/
theorem ReadAs.isAlpha_eq_false (h : ReadAs (c :: cs) (.lexeme k text))
    (hk : k.isWord = false) : c.isAlpha = false := by
  generalize hp : Piece.lexeme k text = p at h
  cases h with
  | sigil | quoted => rfl
  | numeral hc =>
      rw [Bool.eq_false_iff]
      intro halpha
      have hname : isNameStart c = true := by simp [isNameStart, halpha]
      rw [isDigit_of_isNameStart hname, Bool.false_or, Bool.and_eq_true, beq_iff_eq] at hc
      rw [hc.1] at halpha
      cases halpha
  | named =>
      rw [word, Piece.lexeme.injEq] at hp
      rw [hp.1, isWord_word] at hk
      cases hk

theorem ReadAs.read_eq {p : Piece} (h : ReadAs cs p) : read cs = .ok p := by
  cases h with
  | sigil hname => exact read_variable hname
  | numeral hc hnumber => rw [read_number hc, hnumber]
  | quoted hsingle => exact hsingle
  | named hc => exact read_word hc

/-- Characters other than blanks that no word, variable, number or string starts with. -/
def punctuation : List Char :=
  ['\x7b', '\x7d', '"', '(', ')', '[', ']', '>', '=', '-', '+', '!', '&']

/-- A character of a class without blanks and punctuation is none of these. -/
theorem plain_of_class {q : Char → Bool} (hc : q c = true)
    (hq : ([' ', '\t', '\n', '\x0c', '\r'] ++ punctuation).any q = false) :
    isTokenBlank c = false ∧ c ∉ punctuation := by
  have hd : ∀ d ∈ [' ', '\t', '\n', '\x0c', '\r'] ++ punctuation, c ≠ d := by
    rintro d hmem rfl
    exact List.any_eq_false.mp hq _ hmem hc
  refine ⟨?_, fun hmem => hd c (List.mem_append_right _ hmem) rfl⟩
  simp only [List.cons_append, List.forall_mem_cons] at hd
  simp [isTokenBlank, hd]

theorem ReadAs.head {p : Piece} (h : ReadAs (c :: cs) p) :
    isTokenBlank c = false ∧ c ∉ punctuation := by
  cases h with
  | sigil => decide
  | numeral hc _ =>
      rcases Bool.or_eq_true _ _ ▸ hc with hdigit | hpoint
      · exact plain_of_class hdigit (by decide)
      · simp only [Bool.and_eq_true, beq_iff_eq] at hpoint
        obtain ⟨rfl, -⟩ := hpoint
        decide
  | quoted => decide
  | named hc =>
      rcases Bool.or_eq_true _ _ ▸ hc with hname | hslash
      · exact plain_of_class hname (by decide)
      · simp only [Bool.and_eq_true, beq_iff_eq] at hslash
        obtain ⟨rfl, -⟩ := hslash
        decide

end Read

end Lexeme

namespace Scanner

open Lexeme

/-! ## Single tokens -/

/-- The text is one token of the kind, wherever it is set off. -/
def IsLexeme (k : TokenKind) (text : List Char) : Prop :=
  text ≠ [] ∧ ∀ mode rest, SetOff rest →
    codeStep mode (text ++ rest) = .ok ([.lexeme k text], mode)

theorem codeStep_of_read {c : Char} (hblank : isTokenBlank c = false)
    (hc : c ∉ ['\x7b', '\x7d', '"']) (mode : Mode) (cs : List Char) :
    codeStep mode (c :: cs) = (Lexeme.read (c :: cs)).map fun p => ([p], mode) := by
  simp only [List.mem_cons, List.not_mem_nil, or_false, not_or] at hc
  obtain ⟨hopen, hclose, hquote⟩ := hc
  unfold codeStep
  rw [List.takeWhile_cons_of_neg (by simp [hblank])]
  simp only [List.isEmpty_nil, Bool.not_true, Bool.false_eq_true, if_false]
  split
  · next heq => exact absurd (List.cons.inj heq).1 hopen
  · next heq => exact absurd (List.cons.inj heq).1 hclose
  · next heq => exact absurd (List.cons.inj heq).1 hquote
  · rfl

/-- **What is read as a word, a variable, a number or a string is scanned as this token** wherever
it is set off. -/
theorem isLexeme_of_readAs {cs text : List Char} {k : TokenKind}
    (h : ReadAs cs (.lexeme k text)) : IsLexeme k text := by
  obtain ⟨c, more, rfl⟩ : ∃ c more, text = c :: more := by
    cases cs with
    | nil => cases h
    | cons c cs =>
        obtain ⟨more, r, htext, -⟩ := h.exists_cons
        exact ⟨c, more, htext⟩
  refine ⟨List.cons_ne_nil _ _, fun mode rest hrest => ?_⟩
  have hagain := h.again hrest
  obtain ⟨hblank, hc⟩ := ReadAs.head hagain
  have hplain : c ∉ ['\x7b', '\x7d', '"'] :=
    fun hmem => hc ((List.prefix_append ['\x7b', '\x7d', '"'] _).mem hmem)
  rw [List.cons_append, codeStep_of_read hblank hplain, ← List.cons_append, hagain.read_eq]
  rfl

/-- One character of lookahead tells whether an embedded expression starts. -/
theorem startsHole_congr (c : Char) {cs cs' : List Char} (h : cs.head? = cs'.head?) :
    startsHole (c :: cs) = startsHole (c :: cs') := by
  have hname : startsName cs = startsName cs' := congrArg (Option.any isNameStart) h
  unfold startsHole
  split <;> simp_all

/-- A text between quotes or holes: the scanner takes it and stops in front of more. -/
def IsRun (run : List Char) : Prop := ∃ cs, cs.drop run.length ≠ [] ∧ literalRun cs = run

/-- A run stops in front of a quote or a hole. -/
theorem literalRun_stops {cs r : List Char} {c : Char}
    (h : cs.drop (literalRun cs).length = c :: r) : c = '"' ∨ startsHole (c :: r) = true := by
  fun_induction literalRun cs with
  | case1 => cases h
  | case2 c cs ih => exact ih h
  | case3 c cs _ hstop =>
      cases h
      simpa using hstop
  | case4 c cs _ _ ih => exact ih h

/-- No hole starts right in front of a quote or a brace. -/
theorem startsHole_stop (c : Char) {d : Char} (hd : d = '"' ∨ d = '\x7b') (rest : List Char) :
    startsHole (c :: d :: rest) = false := by
  have hname : isNameStart d = false := by rcases hd with rfl | rfl <;> rfl
  have hdollar : d ≠ '$' := by rcases hd with rfl | rfl <;> decide
  unfold startsHole
  split
  · next heq =>
      obtain ⟨-, rfl⟩ := List.cons.inj heq
      exact hname
  · next heq =>
      obtain ⟨-, rfl⟩ := List.cons.inj heq
      simpa using hdollar
  · rfl

/-- A run is found again in front of a quote or a brace where no text goes on. -/
theorem IsRun.literalRun_stop {run stop : List Char} {d : Char} (h : IsRun run)
    (hd : d = '"' ∨ d = '\x7b') (hstop : literalRun (d :: stop) = []) :
    literalRun (run ++ d :: stop) = run := by
  obtain ⟨cs, hmore, rfl⟩ := h
  fun_induction literalRun cs with
  | case1 => exact absurd rfl hmore
  | case2 c cs ih => exact congrArg ('\\' :: c :: ·) (ih hmore)
  | case3 => exact hstop
  | case4 c cs hescape hplace ih =>
      rw [List.length_cons, List.drop_succ_cons] at hmore
      have hc : c ≠ '\\' := by
        rintro rfl
        cases cs with
        | nil => exact hmore rfl
        | cons c' cs' => exact hescape c' cs' rfl rfl
      have hhole : startsHole (c :: (literalRun cs ++ d :: stop)) = false := by
        rw [Bool.or_eq_true, not_or] at hplace
        cases hrun : literalRun cs with
        | nil => exact startsHole_stop c hd stop
        | cons e run =>
            have hhead : (e :: run ++ d :: stop).head? = cs.head? := by
              obtain ⟨more, hcs⟩ := literalRun_isPrefix cs
              rw [← hcs, hrun]
              rfl
            rw [startsHole_congr c hhead]
            exact Bool.eq_false_iff.mpr hplace.2
      have hplain : (c == '"') = false :=
        Bool.eq_false_iff.mpr fun hquote => hplace (by simp [hquote])
      rw [List.cons_append, literalRun_cons _ hc, hplain, hhole, ih hmore]
      rfl

/-- A run is found again in front of a quote. -/
theorem IsRun.literalRun_quote {run : List Char} (h : IsRun run) (rest : List Char) :
    literalRun (run ++ '"' :: rest) = run := h.literalRun_stop (.inl rfl) rfl

/-- A string that embeds nothing is one token, whatever stands behind it. -/
theorem codeStep_closedString {run : List Char} (h : IsRun run) (mode : Mode) (rest : List Char) :
    codeStep mode ('"' :: (run ++ '"' :: rest))
      = .ok ([.lexeme .string ('"' :: (run ++ ['"']))], mode) := by
  show doubleQuoted ('"' :: (run ++ '"' :: rest)) mode = _
  unfold doubleQuoted
  rw [show ('"' :: (run ++ '"' :: rest)).drop 1 = run ++ '"' :: rest from rfl,
    h.literalRun_quote rest]
  dsimp only
  rw [Nat.add_comm, List.drop_succ_cons, List.drop_left]
  rfl

/-- What a quote starts: a string that embeds nothing, or one that does. -/
theorem doubleQuoted_cases {cs : List Char} {ps : List Piece} {mode next : Mode}
    (h : doubleQuoted ('"' :: cs) mode = .ok (ps, next)) :
    (∃ run, IsRun run ∧ ps = [.lexeme .string ('"' :: (run ++ ['"']))] ∧ next = mode) ∨
    (ps = [.lexeme .quote ['"']] ∧ next = .text ('"' :: cs) mode ∧
      (cs.drop (literalRun cs).length).head? ≠ some '"') := by
  have hdrop : ('"' :: cs).drop (1 + (literalRun cs).length) = cs.drop (literalRun cs).length := by
    rw [Nat.add_comm, List.drop_succ_cons]
  unfold doubleQuoted at h
  rw [List.drop_succ_cons, List.drop_zero] at h
  dsimp only at h
  rw [hdrop] at h
  split at h
  · cases h
  · next r hclosed =>
      cases h
      refine .inl ⟨literalRun cs, ⟨cs, ?_, rfl⟩, rfl, rfl⟩
      rw [hclosed]
      exact List.cons_ne_nil _ _
  · next hopen =>
      cases h
      refine .inr ⟨rfl, rfl, fun hquote => ?_⟩
      obtain ⟨r, hr⟩ := List.head?_eq_some_iff.mp hquote
      exact hopen r hr

/-- A quote opens a string where its text is followed by something that it embeds. -/
theorem doubleQuoted_opens {cs more : List Char} {c : Char}
    (hstop : cs.drop (literalRun cs).length = c :: more) (hc : c ≠ '"') (mode : Mode) :
    doubleQuoted ('"' :: cs) mode = .ok ([.lexeme .quote ['"']], .text ('"' :: cs) mode) := by
  unfold doubleQuoted
  rw [List.drop_succ_cons, List.drop_zero]
  dsimp only
  rw [Nat.add_comm, List.drop_succ_cons, hstop]
  split
  · next heq => cases heq
  · next heq => exact absurd (List.cons.inj heq).1 hc
  · rfl

theorem isLexeme_doubleQuoted {run : List Char} (h : IsRun run) :
    IsLexeme .string ('"' :: (run ++ ['"'])) := by
  refine ⟨List.cons_ne_nil _ _, fun mode rest _ => ?_⟩
  show codeStep mode ('"' :: (run ++ ['"'] ++ rest)) = _
  rw [List.append_assoc, List.singleton_append]
  exact codeStep_closedString h mode rest

end Scanner

end GuardedExpr
