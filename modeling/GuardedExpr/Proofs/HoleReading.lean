/-
# Hole reading — an embedded variable with braces is the same variable

Trees are alike when their plain trees are the same.  The parser has rules of its own
for a variable that is embedded without braces; the hole in its place is read by the
rules of expressions, four levels of nesting further in.  The tree is alike
(`readsAs_hole`): the offset that was a bare word is a string now, and the property may
be named by a keyword.
-/
import GuardedExpr.Proofs.Braces
import GuardedExpr.Proofs.Building
import GuardedExpr.Proofs.CutOff
import GuardedExpr.Proofs.Plain

namespace GuardedExpr

/-- The same tree, but for what makes no difference to the outcome. -/
abbrev Expr.Alike (e e' : Expr) : Prop := e.plain = e'.plain

abbrev Expr.AlikeArguments (args args' : List Argument) : Prop :=
  plainArguments args = plainArguments args'

abbrev Expr.AlikeElements (es es' : List Element) : Prop := plainElements es = plainElements es'

abbrev Expr.AlikeParts (es es' : List Expr) : Prop := plainParts es = plainParts es'

namespace Grammar

open GuardedExpr.Parser

/-! ## Reading a hole -/

section Holes

variable {n m : Nat} {ws : List Word} {R Q : Expr → Prop}

theorem ReadsAs.imp (h : ReadsAs n ws R) (himp : ∀ e, R e → Q e) : ReadsAs n ws Q := by
  intro limit depth ts rest hts hdepth hrest
  obtain ⟨e, he, htakes⟩ := h limit depth ts rest hts hdepth hrest
  exact ⟨e, himp e he, htakes⟩

/-- Only names and fragments are spelt otherwise in code. -/
theorem inCode_word {t : Token} (ht : t.kind ≠ .identifier) (ht' : t.kind ≠ .fragment) :
    Word.inCode t.word = t.word := by
  obtain ⟨kind, text, l⟩ := t
  cases kind <;> first | rfl | contradiction

theorem readsAs_variable {v : Token} (hv : v.kind = .variable) :
    ReadsAs 1 [v.word] (Expr.variable v).Alike := by
  have hword : v.word = (.variable, v.text) := Prod.ext hv rfl
  rw [hword]
  refine (readsOperand_variable.expression ⟨_, rfl, by simp [operandStarts]⟩).imp ?_
  rintro _ ⟨t, ht, rfl⟩
  exact congrArg Expr.variable (Token.unplaced_eq_of_word (hword.trans ht.symm))

theorem readsAs_literal {t : Token} (ht : t.kind ∈ [TokenKind.integer, .string]) :
    ReadsAs 1 [t.word] (Expr.literal t).Alike := by
  have hkinds : ∀ k ∈ [TokenKind.integer, .string],
      k ∈ [TokenKind.integer, .float, .string, .bool, .null] ∧ k ∈ operandStarts := by decide
  obtain ⟨hliteral, hstart⟩ := hkinds _ ht
  refine ((readsOperand_literal hliteral).expression ⟨_, rfl, hstart⟩).imp ?_
  rintro _ ⟨u, hu, rfl⟩
  exact congrArg Expr.literal (Token.unplaced_eq_of_word hu.symm)

/-- A variable with an offset. -/
theorem readsAs_access {v bracket close : Token} {offset : Expr} (hv : v.kind = .variable)
    (hbracket : bracket.word = (.lbracket, "[")) (hclose : close.kind = .rbracket)
    (ho : ReadsAs m ws fun e => offset.plain.asOffset = e.plain.asOffset) :
    ReadsAs (m + 2) (v.word :: bracket.word :: (ws ++ [close.word]))
      (Expr.access (.variable v) bracket offset).Alike := by
  have hword : v.word = (.variable, v.text) := Prod.ext hv rfl
  have hclose : close.word = (.rbracket, close.text) := Prod.ext hclose rfl
  have hvariable : ReadsOperand 0 [v.word] _ := hword ▸ readsOperand_variable
  rw [hbracket, hclose]
  have haccess : ReadsOperand (0 + m + 1)
      ([v.word] ++ (.lbracket, "[") :: ws ++ [(.rbracket, close.text)]) _ := hvariable.access ho
  have hread := haccess.expression ⟨v.word, rfl, by simp [hword, operandStarts]⟩
  refine (hread.mono (by omega)).imp ?_
  rintro _ ⟨_, bracket', offset', ⟨t, ht, rfl⟩, hoffset, hbracket', rfl⟩
  have hv : v.unplaced = t.unplaced := Token.unplaced_eq_of_word ht.symm
  have hbracket : bracket.unplaced = bracket'.unplaced :=
    Token.unplaced_eq_of_word (hbracket.trans hbracket'.symm)
  simp only [Expr.Alike, Expr.plain, hv, hbracket, hoffset]

/-- A variable with a property, whatever word names it. -/
theorem readsAs_property {v arrow name : Token} (hv : v.kind = .variable)
    (harrow : arrow.kind = .arrow) (hname : name.kind = .identifier) :
    ReadsAs 2 [v.word, arrow.word, Word.inCode name.word]
      (Expr.property (.variable v) arrow false (.literal name)).Alike := by
  refine readsAs_of_unary fun limit depth ts rest hts hdepth hrest => ?_
  obtain ⟨u, ts, rfl, hu, hts⟩ := List.map_eq_cons_iff.mp hts
  obtain ⟨op, ts, rfl, hop, hts⟩ := List.map_eq_cons_iff.mp hts
  obtain ⟨t, rfl, hkind, ht⟩ := exists_token hts
  have hword : name.word = (.identifier, name.text) := Prod.ext hname rfl
  rw [hword] at ht hkind
  have hisWord : t.kind.isWord = true := hkind ▸ Lexeme.isWord_word name.text
  have htext : t.text = name.text := congrArg Prod.snd ht
  have hukind : u.kind = .variable := (congrArg Prod.fst hu).trans hv
  have hopkind : op.kind = .arrow := (congrArg Prod.fst hop).trans harrow
  refine ⟨.property (.variable u) op false (.literal t), ?_, ?_⟩
  · have hname : (Expr.literal name.unplaced).asName = (Expr.literal t.unplaced).asName :=
      Expr.asName_unplaced (by rw [hname]; rfl) hisWord htext.symm
    simp only [Expr.Alike, Expr.plain, Token.unplaced_eq_of_word hu, Token.unplaced_eq_of_word hop,
      hname]
  · obtain ⟨d, rfl⟩ : ∃ d, depth = d + 1 := ⟨depth - 1, by omega⟩
    have hsuffix : Stops suffixStarts rest := hrest.mono fun k hk => by simp [goesOn, hk]
    have hinstance : Stops [.instanceOf] rest := hrest.mono fun k hk => by simp_all [goesOn]
    have hprimary : Takes (primary (ofDepth limit (d + 1))) [u] ([op, t] ++ rest)
        (pure (.variable u)) := by
      refine (takes_peek u ([op, t] ++ rest)).here ?_
      simp only [hukind]
      exact (takes_next (by simp [hukind]) (by simp)).bind _
    have hmember : Takes (moreSuffixes (ofDepth limit (d + 1)) (.variable u)) [op, t] rest
        (pure (.property (.variable u) op false (.literal t))) :=
      takes_property hopkind hisWord (hsuffix.mono (by decide))
        (takes_moreSuffixes _ (List.Subset.refl _) hsuffix)
    have hoperand : Takes (operand (ofDepth limit (d + 1))) [u, op, t] rest
        (pure (.property (.variable u) op false (.literal t))) := hprimary.then hmember
    refine takes_unary_of_instanceOf (by simp [hukind]) ?_
    exact hoperand.last (takes_moreInstanceOf _ hinstance)

/-- The offset of an embedded variable. -/
theorem readsAs_offset {o : Token} (ho : o.IsOffset) : ReadsAs 1 [Word.inCode o.word]
    fun e => (offsetTree o).plain.asOffset = e.plain.asOffset := by
  unfold offsetTree
  cases ho with
  | digits hdigits =>
      have hword := inCode_word (t := o) (by simp [hdigits.1]) (by simp [hdigits.1])
      rw [hword, if_neg (by simp [hdigits.1])]
      exact (readsAs_literal (by simp [hdigits.1])).imp fun e he => congrArg Expr.asOffset he
  | sigil hv =>
      have hword := inCode_word (t := o) (by simp [hv.1]) (by simp [hv.1])
      rw [hword, if_pos hv.1]
      exact (readsAs_variable hv.1).imp fun e he => congrArg Expr.asOffset he
  | word hkind hname =>
      have hword : Word.inCode o.word = (.string, Literal.quoteSingle o.text) := by
        simp [Token.word, Word.inCode, hkind]
      have hbare : o.isBareWord = true := by
        simp only [Token.isBareWord, hkind, beq_self_eq_true, Bool.true_and]
        exact List.all_eq_true.mpr hname.2
      rw [hword, if_neg (by simp [hkind])]
      refine ((readsOperand_literal (by simp)).expression ⟨_, rfl, by simp [operandStarts]⟩).imp ?_
      rintro _ ⟨u, hu, rfl⟩
      exact Expr.asOffset_unplaced hbare hu

theorem readsAs_negative {minus ds : Token} (hminus : minus.kind = .minus) (hdigits : ds.IsDigits) :
    ReadsAs 2 [minus.word, ds.word]
      fun e => (Expr.unary minus (.literal ds)).plain.asOffset = e.plain.asOffset := by
  have hliteral : ds.word.1 ∈ [TokenKind.integer, .float, .string, .bool, .null] := by
    simp [Token.word, hdigits.1]
  have hsign : minus.word.1 ∈ [TokenKind.minus, .plus, .bang] := by simp [Token.word, hminus]
  have hstart : ds.word.1 ∈ operandStarts := by simp [Token.word, hdigits.1, operandStarts]
  refine ((readsOperand_literal hliteral).signed ⟨_, rfl, hstart⟩ hsign).imp ?_
  rintro _ ⟨op, _, hop, ⟨t, ht, rfl⟩, rfl⟩
  simp only [Expr.plain, Token.unplaced_eq_of_word hop, Token.unplaced_eq_of_word ht]

/-- **A hole is read as the variable that it embeds**, with four levels to go. -/
theorem readsAs_hole {v : Token} {us : List Token} (h : Embedded (v :: us)) :
    ReadsAs 4 (((v :: us).map Token.word).map Word.inCode) (embeddedTree v us).Alike := by
  have hvariable : Word.inCode v.word = v.word :=
    inCode_word (by simp [h.variable]) (by simp [h.variable])
  cases h with
  | alone hv =>
      rw [List.map_singleton, List.map_singleton, hvariable]
      exact (readsAs_variable hv.1).mono (by decide)
  | @offset _ bracket o close hv hbracket htext ho hclose =>
      have hwords : ([v, bracket, o, close].map Token.word).map Word.inCode
          = v.word :: bracket.word :: ([Word.inCode o.word] ++ [close.word]) := by
        simp [hvariable, inCode_word, hbracket, hclose]
      rw [hwords]
      have haccess := readsAs_access hv.1 (Prod.ext hbracket htext) hclose (readsAs_offset ho)
      exact haccess.mono (by decide)
  | @negative _ bracket minus ds close hv hbracket htext hminus hsign hdigits hclose =>
      have hwords : ([v, bracket, minus, ds, close].map Token.word).map Word.inCode
          = v.word :: bracket.word :: ([minus.word, ds.word] ++ [close.word]) := by
        simp [hvariable, inCode_word, hbracket, hminus, hdigits.1, hclose]
      rw [hwords]
      exact readsAs_access hv.1 (Prod.ext hbracket htext) hclose (readsAs_negative hminus hdigits)
  | @property _ arrow name hv harrow htext hkind hname =>
      have hwords : ([v, arrow, name].map Token.word).map Word.inCode
          = [v.word, arrow.word, Word.inCode name.word] := by
        simp [hvariable, inCode_word, harrow]
      rw [hwords]
      exact (readsAs_property hv.1 harrow hkind).mono (by decide)

/-- In front of a hole of an embedded variable, what the parser reads is like the variable. -/
def Inner.ReadsHoles (inner : Inner) : Prop :=
  ∀ {v r : Token} {us vs rest : List Token} {s s' : TokenStream} {e : Expr}, Embedded (v :: us) →
    vs.map Token.word = ((v :: us).map Token.word).map Word.inCode → r.kind = .rbrace →
    s.remaining = vs ++ r :: rest → expression inner s = .ok (e, s') →
    (embeddedTree v us).Alike e ∧ s'.remaining = r :: rest

/-- A limit that is not reached makes no difference. -/
theorem ofDepth_readsHoles (limit depth : Nat) : (ofDepth limit depth).ReadsHoles := by
  intro v r us vs rest s s' e hus hvs hr hs he
  have hstop : Stops ends (r :: rest) := stops_ends (by rw [hr]; decide) rest
  obtain ⟨e', halike, htakes⟩ :=
    readsAs_hole hus limit (depth + 4) vs (r :: rest) hvs (Nat.le_add_left _ _) hstop
  obtain ⟨s₁, hs₁, hrun⟩ := htakes s hs
  have he : (ofDepth limit depth).assignment s = .ok (e, s') := he
  rcases (isCutOff_ofDepth limit limit (Nat.le_add_right depth 4)).assignment s with
    ⟨f, herror, -⟩ | hsame
  · rw [he] at herror
    cases herror
  · rw [hrun, he] at hsame
    cases hsame
    exact ⟨halike, hs₁⟩

end Holes

end Grammar

end GuardedExpr
