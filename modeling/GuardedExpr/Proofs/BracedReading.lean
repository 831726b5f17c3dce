/-
# Braced reading — braces around embedded variables change no outcome

The tokens of a source and of the same source with braces are read to trees that are
alike, so they have the same outcome.  All rules mirror themselves in front of respelt
tokens (`Inner.Mirrors`); only the parts of a string are read by different rules, where
one side has a variable without braces and the other its hole (`partItems_braced`).

It goes from the source with braces to the source without.  The other way round a hole
may be nested too deep where the variable is not.
-/
import GuardedExpr.Proofs.Abreast
import GuardedExpr.Proofs.HoleReading

namespace GuardedExpr

/-! ## The grammar -/

namespace Grammar

open GuardedExpr.Parser GuardedExpr.Expr

/-- In code the parsers one level further in read alike expressions from respelt tokens. -/
structure Inner.Mirrors (inner : Inner) : Prop where
  holes : inner.ReadsHoles
  level : ∀ {fs : List Frame}, fs.head? ≠ some .text → ∀ {n n' rs}, AreOperators rs →
    Parser.Mirrors n n' fs fs Alike (inner.level rs) (inner.level rs)
  assignment : ∀ {fs : List Frame}, fs.head? ≠ some .text → ∀ {n n'},
    Parser.Mirrors n n' fs fs Alike inner.assignment inner.assignment
  chain : ∀ {fs : List Frame}, fs.head? ≠ some .text → ∀ {n n' ops tighter e e' op op'},
    (∀ k ∈ ops, 0 < k.tightness) → AreOperators tighter → Alike e e' → op'.word = op.word →
    Parser.Mirrors n n' fs fs Alike (inner.chain ops tighter e op) (inner.chain ops tighter e' op')
  classOperand : ∀ {fs : List Frame}, fs.head? ≠ some .text → ∀ {n n' e e' op op'}, Alike e e' →
    op'.word = op.word →
    Parser.Mirrors n n' fs fs Alike (inner.classOperand e op) (inner.classOperand e' op')
  suffix : ∀ {fs : List Frame}, fs.head? ≠ some .text → ∀ {n n' e e' t t'}, Alike e e' →
    t'.word = t.word → t.kind ∈ suffixStarts →
    MirrorsAt t t' n n' fs fs Alike (inner.suffix e) (inner.suffix e')

theorem exhausted_mirrors (limit : Nat) (hholes : (exhausted limit).ReadsHoles) :
    (exhausted limit).Mirrors := by
  have htooDeep : ∀ {t t' : Token} {n n' : Nat} {fs : List Frame} (q : Parser Expr),
      MirrorsAt t t' n n' fs fs Alike q (tooDeep limit) := by
    intro t t' n n' fs q s s' _ _ _ b r' hr
    cases hr
  refine ⟨hholes, ?_, ?_, ?_, ?_, ?_⟩ <;> intros
  · exact fun _ _ => htooDeep _
  · exact fun _ _ => htooDeep _
  · exact fun _ _ => htooDeep _
  · exact fun _ _ => htooDeep _
  · exact htooDeep _

section Rules

variable {inner : Inner} (h : inner.Mirrors) {fs : List Frame} (hcode : fs.head? ≠ some .text)
  {n n' : Nat}

include h hcode

/-! ### Lists -/

omit h in
theorem mirrors_moreItems {α : Type} {R : List α → List α → Prop} {x y : α} {p p' : Parser (List α)}
    (hlast : R [x] [y]) (hcons : ∀ xs ys, R xs ys → R (x :: xs) (y :: ys))
    (hmore : Parser.Mirrors (n - 1) (n' - 1) fs fs R p p') :
    Parser.Mirrors n n' fs fs R (moreItems x p) (moreItems y p') := by
  refine mirrors_accept hcode (by decide) (fun t t' => mirrorsAt_pure hlast) fun _ _ _ t t' => ?_
  exact mirrorsAt_bind (hmore t t') fun xs ys hxs _ _ => mirrorsAt_pure (hcons xs ys hxs)

theorem argumentItems_mirrors {most most' : Nat} (hn : n ≤ most) (hn' : n' ≤ most') :
    Parser.Mirrors n n' fs fs AlikeArguments (argumentItems inner most)
      (argumentItems inner most') := by
  induction most generalizing n n' most' with
  | zero => exact mirrors_of_bound_zero (.inl (Nat.le_zero.mp hn)) _ _
  | succ most ih =>
      cases most' with
      | zero => exact mirrors_of_bound_zero (.inr (Nat.le_zero.mp hn')) _ _
      | succ most' =>
          refine mirrors_of_code hcode fun t t' hword => mirrorsAt_peek ?_
          rw [Token.kind_of_word hword]
          split
          · exact mirrorsAt_pure rfl
          · have hitem : ∀ {m m' : Nat}, m ≤ most + 1 → m' ≤ most' + 1 → ∀ byRef,
                Parser.Mirrors m m' fs fs AlikeArguments
                  (do
                    let value ← expression inner
                    moreItems (Argument.mk byRef value) (argumentItems inner most))
                  (do
                    let value ← expression inner
                    moreItems (Argument.mk byRef value) (argumentItems inner most')) := by
              intro m m' hm hm' byRef t t'
              refine mirrorsAt_bind (h.assignment hcode t t') fun e e' he => ?_
              refine mirrors_moreItems hcode ?_ ?_ (ih (by omega) (by omega))
              · simp only [AlikeArguments, plainArguments, he]
              · intro args args' hargs
                simp only [AlikeArguments, plainArguments, he, hargs]
            refine mirrors_accept hcode (by decide) (hitem hn hn' false) (fun _ _ _ => ?_) t t'
            exact hitem (by omega) (by omega) true

theorem arguments_mirrors :
    Parser.Mirrors n n' fs fs AlikeArguments (arguments inner) (arguments inner) := by
  have hlist : ∀ m m', Parser.Mirrors m m' fs fs AlikeArguments
      (upTo .rparen "',' or ')'" (argumentItems inner m))
      (upTo .rparen "',' or ')'" (argumentItems inner m')) := fun m m' =>
    mirrors_upTo (by decide) rfl (argumentItems_mirrors h hcode (Nat.le_refl m) (Nat.le_refl m'))
  exact (mirrors_counted hlist :)

theorem elementItems_mirrors (close : TokenKind) {most most' : Nat} (hn : n ≤ most)
    (hn' : n' ≤ most') :
    Parser.Mirrors n n' fs fs AlikeElements (elementItems inner close most)
      (elementItems inner close most') := by
  induction most generalizing n n' most' with
  | zero => exact mirrors_of_bound_zero (.inl (Nat.le_zero.mp hn)) _ _
  | succ most ih =>
      cases most' with
      | zero => exact mirrors_of_bound_zero (.inr (Nat.le_zero.mp hn')) _ _
      | succ most' =>
          refine mirrors_of_code hcode fun t t' hword => mirrorsAt_peek ?_
          rw [Token.kind_of_word hword]
          split
          · exact mirrorsAt_pure rfl
          · refine mirrorsAt_bind (h.assignment hcode t t') fun e e' he => ?_
            refine mirrors_accept hcode (by decide) ?_ fun _ _ _ u u' => ?_
            · have hlast : AlikeElements [.item e] [.item e'] := by
                simp only [AlikeElements, plainElements, he]
              refine mirrors_moreItems hcode hlast ?_ (ih (by omega) (by omega))
              intro es es' hes
              simp only [AlikeElements, plainElements, he, hes]
            · refine mirrorsAt_bind (h.assignment hcode u u') fun v v' hv => ?_
              have hlast : AlikeElements [.pair e v] [.pair e' v'] := by
                simp only [AlikeElements, plainElements, he, hv]
              refine mirrors_moreItems hcode hlast ?_ (ih (by omega) (by omega))
              intro es es' hes
              simp only [AlikeElements, plainElements, he, hv, hes]

theorem arrayElements_mirrors {close : TokenKind} (hclose : close.isPlain = true)
    (hvariable : close ≠ .variable) (expected : String) :
    Parser.Mirrors n n' fs fs AlikeElements (arrayElements inner close expected)
      (arrayElements inner close expected) := by
  have hkind : close ∉ [TokenKind.eof, .lbrace, .variable] := notMem_of_isPlain hclose hvariable
  have hlist : ∀ m m', Parser.Mirrors m m' fs fs AlikeElements
      (upTo close expected (elementItems inner close m))
      (upTo close expected (elementItems inner close m')) := fun m m' =>
    mirrors_upTo hkind (TokenKind.framesAfter_of_isPlain hclose fs)
      (elementItems_mirrors h hcode close (Nat.le_refl m) (Nat.le_refl m'))
  exact (mirrors_counted hlist :)

/-! ### Strings with embedded expressions -/

omit h hcode in
/-- A part, and those behind it. -/
theorem mirrors_moreParts {e e' : Expr} (he : e.Alike e') {p p' : Parser (List Expr)}
    (hmore : Parser.Mirrors n n' (.text :: fs) (.text :: fs) AlikeParts p p') :
    Parser.Mirrors n n' (.text :: fs) (.text :: fs) AlikeParts (p >>= fun rest => pure (e :: rest))
      (p' >>= fun rest => pure (e' :: rest)) := by
  intro t t'
  refine mirrorsAt_bind (hmore t t') fun es es' hes _ _ => mirrorsAt_pure ?_
  simp only [AlikeParts, plainParts, he, hes]

omit h hcode in
/-- Parts of a string are read alike, when the bounds do not run out before the tokens. -/
def MirrorsParts (inner : Inner) (fs : List Frame) (most most' : Nat) : Prop :=
  ∀ {n n'}, n ≤ most → n' ≤ most' → Parser.Mirrors n n' (.text :: fs) (.text :: fs)
    AlikeParts (partItems inner most) (partItems inner most')

section Parts

variable {most most' : Nat} (ih : MirrorsParts inner fs most most') (hn : n ≤ most + 1)
  (hn' : n' ≤ most' + 1)

include ih hn hn'

omit hcode in
/-- Text, a hole, or the end of the string. -/
theorem partItems_same {t t' : Token} (hword : t'.word = t.word) (hplain : t.kind ≠ .variable) :
    MirrorsAt t t' n n' (.text :: fs) (.text :: fs) AlikeParts (partItems inner (most + 1))
      (partItems inner (most' + 1)) := by
  refine mirrorsAt_peek ?_
  rw [Token.kind_of_word hword]
  split
  · next hkind =>
      refine mirrorsAt_next hword (by simp [hkind]) (fun _ => hplain) ?_
      rw [hkind]
      refine mirrors_moreParts ?_ (ih (by omega) (by omega))
      exact congrArg Expr.literal (Token.unplaced_eq_of_word hword.symm)
  · next hkind => exact absurd hkind hplain
  · next hkind =>
      refine mirrorsAt_next hword (by simp [hkind]) (fun _ => hplain) ?_
      rw [hkind]
      have hhole : (Frame.hole 0 :: .text :: fs).head? ≠ some .text := by simp
      intro u u'
      refine mirrorsAt_bind (h.assignment hhole u u') fun e e' he => ?_
      refine mirrors_expect (by decide) fun _ _ => ?_
      exact mirrors_moreParts he (ih (by omega) (by omega))
  · exact mirrorsAt_pure rfl

omit hcode in
/-- A variable without braces, and its hole. -/
theorem partItems_braced {s s' : TokenStream} (hs : Abreast (.text :: fs) n n' s s')
    (hahead : BracedAhead fs s.remaining s'.remaining) {es' : List Expr} {r' : TokenStream}
    (hr' : partItems inner (most' + 1) s' = .ok (es', r')) :
    ∃ es r, partItems inner (most + 1) s = .ok (es, r) ∧ AlikeParts es es' ∧
      Abreast (.text :: fs) n n' r r' := by
  obtain ⟨-, hlength, hlength'⟩ := hs
  generalize hremaining : s.remaining = all at hahead hlength
  generalize hremaining' : s'.remaining = all' at hahead hlength'
  obtain @⟨v, l, close, us, vs, rest, rest', hus, hbrace, hvs, hclose, hlexed, hrest⟩ := hahead
  simp only [List.length_append, List.length_cons] at hlength hlength'
  have hembedded : Takes (partItems inner (most + 1)) (v :: us) rest _ :=
    takes_embedded_part hus hlexed
  have hhole : Takes (partItems inner (most' + 1)) [l] (vs ++ close :: rest') _ :=
    takes_hole_part hbrace (by simp)
  obtain ⟨s₁, hs₁, hrun⟩ := hembedded s hremaining
  obtain ⟨s₁', hs₁', hrun'⟩ := hhole s' hremaining'
  rw [hrun]
  rw [hrun'] at hr'
  cases hpart : expression inner s₁' with
  | error f =>
      simp only [bind, andThen, hpart] at hr'
      cases hr'
  | ok result =>
      obtain ⟨part, s₂'⟩ := result
      obtain ⟨halike, hs₂'⟩ := h.holes hus hvs hclose hs₁' hpart
      have hbrace : Takes (expect .rbrace "'\x7d'") [close] rest' (pure close) :=
        takes_expect hclose (by simp [hclose]) hrest.ne_nil.2
      obtain ⟨s₃', hs₃', hnext⟩ := hbrace s₂' hs₂'
      have hr' : (partItems inner most' >>= fun rest => pure (part :: rest)) s₃'
          = .ok (es', r') := by
        rw [← hr']
        simp only [bind, andThen, hpart, hnext]
        rfl
      have hbehind : Abreast (.text :: fs) (n - 1) (n' - 1) s₁ s₃' := by
        refine ⟨by rwa [hs₁, hs₃'], ?_, ?_⟩
        · rw [hs₁]
          omega
        · rw [hs₃']
          omega
      obtain ⟨es, r, hes, halikes, hr⟩ := mirrors_moreParts halike (ih (by omega) (by omega)) _ _
        s₁ s₃' rfl rfl hbehind es' r' hr'
      exact ⟨es, r, hes, halikes, hr.mono (Nat.sub_le _ _) (Nat.sub_le _ _)⟩

end Parts

omit hcode in
theorem partItems_mirrors (most most' : Nat) : MirrorsParts inner fs most most' := by
  induction most generalizing most' with
  | zero => exact fun hn _ => mirrors_of_bound_zero (.inl (Nat.le_zero.mp hn)) _ _
  | succ most ih =>
      cases most' with
      | zero => exact fun _ hn' => mirrors_of_bound_zero (.inr (Nat.le_zero.mp hn')) _ _
      | succ most' =>
          intro n n' hn hn' t t' s s' ht ht' hs es' r' hr'
          rcases Respelt.cases hs.respelt with ⟨hword, hplain, -⟩ | ⟨outer, hfs, hahead⟩
          · rw [ht, ht'] at hword
            rw [ht] at hplain
            exact partItems_same h (ih most') hn hn' hword (hplain rfl) s s' ht ht' hs es' r' hr'
          · obtain rfl : fs = outer := (List.cons.inj hfs).2
            exact partItems_braced h (ih most') hn hn' hs hahead hr'

omit hcode in
theorem interpolation_mirrors {opening opening' : Token} (hword : opening'.word = opening.word) :
    Parser.Mirrors n n' (.text :: fs) fs Alike (interpolation inner opening)
      (interpolation inner opening') := by
  have hstring : ∀ m m', Parser.Mirrors m m' (.text :: fs) fs Alike
      (partItems inner m >>= fun parts => expect .quote "closing '\"'" >>= fun _ =>
        pure (.interpolation opening parts))
      (partItems inner m' >>= fun parts => expect .quote "closing '\"'" >>= fun _ =>
        pure (.interpolation opening' parts)) := by
    intro m m' t t'
    refine mirrorsAt_bind (partItems_mirrors h m m' (Nat.le_refl m) (Nat.le_refl m') t t') ?_
    intro es es' hes
    refine mirrors_expect (by decide) fun _ _ _ _ => mirrorsAt_pure ?_
    have hopening : opening.unplaced = opening'.unplaced := Token.unplaced_eq_of_word hword.symm
    simp only [Alike, Expr.plain, hopening, hes]
  exact (mirrors_counted hstring :)

/-! ### Operands -/

theorem primary_mirrors : Parser.Mirrors n n' fs fs Alike (primary inner) (primary inner) := by
  refine mirrors_of_code hcode fun t t' hword => mirrorsAt_peek ?_
  have hunplaced : t.unplaced = t'.unplaced := Token.unplaced_eq_of_word hword.symm
  have harray : ∀ {es es' : List Element}, plainElements es = plainElements es' →
      Alike (.array t es) (.array t' es') := by
    intro es es' hes
    simp only [Alike, Expr.plain, hunplaced, hes]
  rw [Token.kind_of_word hword]
  split
  case h_1 | h_2 | h_3 | h_4 | h_5 =>
    next hkind =>
      refine mirrorsAt_token hcode hword (by rw [hkind]; rfl) fun _ _ => mirrorsAt_pure ?_
      exact congrArg Expr.literal hunplaced
  case h_6 =>
    next hkind =>
      refine mirrorsAt_token hcode hword (by rw [hkind]; rfl) fun _ _ => mirrorsAt_pure ?_
      exact congrArg Expr.variable hunplaced
  case h_7 =>
    next hkind =>
      refine mirrorsAt_token hcode hword (by rw [hkind]; rfl) ?_
      exact mirrors_upTo (by decide) rfl (h.assignment hcode)
  case h_8 =>
    next hkind =>
      refine mirrorsAt_next hword (by simp [hkind]) (by simp [hkind]) ?_
      rw [hkind, TokenKind.framesAfter_quote hcode]
      exact interpolation_mirrors h hword
  case h_9 =>
    next hkind =>
      refine mirrorsAt_token hcode hword (by rw [hkind]; rfl) fun u u' => ?_
      refine mirrorsAt_bind (arrayElements_mirrors h hcode rfl (by decide) _ u u') ?_
      exact fun es es' hes _ _ => mirrorsAt_pure (harray hes)
  case h_10 =>
    next hkind =>
      refine mirrorsAt_token hcode hword (by rw [hkind]; rfl) ?_
      refine mirrors_expect_token rfl (by decide) fun _ _ u u' => ?_
      refine mirrorsAt_bind (arrayElements_mirrors h hcode rfl (by decide) _ u u') ?_
      exact fun es es' hes _ _ => mirrorsAt_pure (harray hes)
  case h_11 =>
    next hkind =>
      refine mirrorsAt_token hcode hword (by rw [hkind]; rfl) ?_
      refine mirrors_of_code hcode fun u u' hfollower => mirrorsAt_peek ?_
      rw [Token.kind_of_word hfollower]
      split
      · exact mirrorsAt_pure (congrArg Expr.literal hunplaced)
      · exact mirrorsAt_unexpected
  case h_12 => exact mirrorsAt_unexpected

theorem memberName_mirrors (op op' : Token) (isStatic : Bool) :
    Parser.Mirrors n n' fs fs (fun e e' => e.plain.asName = e'.plain.asName)
      (memberName inner op isStatic) (memberName inner op' isStatic) := by
  refine mirrors_of_code hcode fun t t' hword => mirrorsAt_peek ?_
  have hunplaced : t.unplaced = t'.unplaced := Token.unplaced_eq_of_word hword.symm
  rw [Token.kind_of_word hword]
  split
  · next hisWord =>
      have hplain : t.kind.isPlain = true := by
        cases hk : t.kind <;> first | rfl | (rw [hk] at hisWord; cases hisWord)
      refine mirrorsAt_token hcode hword hplain fun _ _ => mirrorsAt_pure ?_
      simp only [Expr.plain, hunplaced]
  · split
    · next hvariable =>
        have hkind : t.kind = .variable := by simp_all
        refine mirrorsAt_token hcode hword (by rw [hkind]; rfl) fun _ _ => mirrorsAt_pure ?_
        simp only [Expr.plain, hunplaced]
    · split
      · next hbrace =>
          have hkind : t.kind = .lbrace := by simp_all
          obtain ⟨hinside, hback⟩ := framesAfter_lbrace hcode
          refine mirrorsAt_next hword (by simp [hkind]) (by simp [hkind]) ?_
          rw [hkind]
          have hname : Parser.Mirrors (n - 1) (n' - 1) (TokenKind.lbrace.framesAfter fs) fs Alike
              (upTo .rbrace "'\x7d'" (expression inner))
              (upTo .rbrace "'\x7d'" (expression inner)) :=
            mirrors_upTo (by decide) hback (h.assignment hinside)
          exact fun u u' => (hname u u').imp fun e e' he => congrArg Expr.asName he
      · exact mirrorsAt_unexpected

theorem member_mirrors {target target' : Expr} (htarget : target.Alike target') {op op' : Token}
    (hop : op'.word = op.word) (isStatic : Bool) :
    Parser.Mirrors n n' fs fs Alike (member inner target op isStatic)
      (member inner target' op' isStatic) := by
  have hop : op.unplaced = op'.unplaced := Token.unplaced_eq_of_word hop.symm
  intro t t'
  refine mirrorsAt_bind (memberName_mirrors h hcode op op' isStatic t t') fun name name' hname => ?_
  refine mirrors_accept hcode (by decide) (fun _ _ => mirrorsAt_pure ?_) fun _ _ _ u u' => ?_
  · simp only [Alike, Expr.plain, htarget, hop, hname]
  · refine mirrorsAt_bind (arguments_mirrors h hcode u u') fun args args' hargs _ _ => ?_
    refine mirrorsAt_pure ?_
    simp only [Alike, Expr.plain, htarget, hop, hname, hargs]

theorem moreSuffixes_mirrors {e e' : Expr} (he : e.Alike e') :
    Parser.Mirrors n n' fs fs Alike (moreSuffixes inner e) (moreSuffixes inner e') := by
  refine mirrors_of_code hcode fun t t' hword => mirrorsAt_peek ?_
  rw [Token.kind_of_word hword]
  split
  · next hstart => exact h.suffix hcode he hword (List.contains_iff_mem.mp hstart)
  · exact mirrorsAt_pure he

theorem suffix_mirrors {e e' : Expr} (he : e.Alike e') {t t' : Token} (hword : t'.word = t.word)
    (ht : t.kind ∈ suffixStarts) :
    MirrorsAt t t' n n' fs fs Alike (suffix inner e) (suffix inner e') := by
  have hmore : ∀ {m m' : Nat} (whole whole' : Expr), whole.Alike whole' →
      Parser.Mirrors m m' fs fs Alike (moreSuffixes inner whole) (moreSuffixes inner whole') :=
    fun whole whole' hwhole => moreSuffixes_mirrors h hcode hwhole
  have hplain : t.kind.isPlain = true := by
    simp only [suffixStarts, List.mem_cons, List.not_mem_nil, or_false] at ht
    rcases ht with hkind | hkind | hkind | hkind <;>
    · rw [hkind]
      rfl
  have hunplaced : t.unplaced = t'.unplaced := Token.unplaced_eq_of_word hword.symm
  refine mirrorsAt_token hcode hword hplain fun u u' => ?_
  rw [Token.kind_of_word hword]
  split
  · exact mirrorsAt_bind (member_mirrors h hcode he hword true u u') hmore
  · exact mirrorsAt_bind (member_mirrors h hcode he hword false u u') hmore
  · refine mirrorsAt_bind (h.assignment hcode u u') fun o o' ho => ?_
    refine mirrors_expect_token rfl (by decide) fun _ _ => ?_
    refine hmore (.access e t o) (.access e' t' o') ?_
    simp only [Alike, Expr.plain, he, hunplaced, ho]
  · refine mirrorsAt_bind (arguments_mirrors h hcode u u') fun args args' hargs => ?_
    refine hmore (.call e t args) (.call e' t' args') ?_
    simp only [Alike, Expr.plain, he, hunplaced, hargs]

theorem operand_mirrors : Parser.Mirrors n n' fs fs Alike (operand inner) (operand inner) :=
  fun t t' => mirrorsAt_bind (primary_mirrors h hcode t t') fun _ _ he =>
    moreSuffixes_mirrors h hcode he

/-! ### Operators -/

theorem moreInstanceOf_mirrors {e e' : Expr} (he : e.Alike e') :
    Parser.Mirrors n n' fs fs Alike (moreInstanceOf inner e) (moreInstanceOf inner e') :=
  mirrors_accept hcode (by decide) (fun _ _ => mirrorsAt_pure he) fun _ _ hop =>
    h.classOperand hcode he hop

theorem classOperand_mirrors {value value' : Expr} (hvalue : value.Alike value') {op op' : Token}
    (hop : op'.word = op.word) :
    Parser.Mirrors n n' fs fs Alike (classOperand inner value op)
      (classOperand inner value' op') := by
  have hop : op.unplaced = op'.unplaced := Token.unplaced_eq_of_word hop.symm
  have hmore : ∀ {m m' : Nat} (cls cls' : Expr), cls.Alike cls' → Parser.Mirrors m m' fs fs Alike
      (moreInstanceOf inner (.instanceOf value op cls))
      (moreInstanceOf inner (.instanceOf value' op' cls')) := by
    intro m m' cls cls' hcls
    refine moreInstanceOf_mirrors h hcode ?_
    simp only [Alike, Expr.plain, hvalue, hop, hcls]
  refine mirrors_accept hcode (by decide) (fun t t' => ?_) fun name name' hname => ?_
  · exact mirrorsAt_bind (operand_mirrors h hcode t t') hmore
  · exact hmore _ _ (congrArg Expr.literal (Token.unplaced_eq_of_word hname.symm))

theorem instanceOf_mirrors :
    Parser.Mirrors n n' fs fs Alike (instanceOf inner) (instanceOf inner) := fun t t' =>
  mirrorsAt_bind (operand_mirrors h hcode t t') fun _ _ he =>
    moreInstanceOf_mirrors h hcode he

theorem unary_mirrors : Parser.Mirrors n n' fs fs Alike (unary inner) (unary inner) := by
  have hoperand : ∀ {m m' : Nat} (f f' : Expr → Expr), (∀ e e', e.Alike e' → (f e).Alike (f' e')) →
      Parser.Mirrors m m' fs fs Alike (inner.level [] >>= fun e => pure (f e))
        (inner.level [] >>= fun e => pure (f' e)) := by
    intro m m' f f' hf t t'
    refine mirrorsAt_bind (h.level hcode (by simp [AreOperators]) t t') fun e e' he _ _ => ?_
    exact mirrorsAt_pure (hf e e' he)
  refine mirrors_accept hcode (by decide) ?_ fun op op' hop => hoperand _ _ fun e e' he => ?_
  · refine mirrors_accept hcode (by decide) (instanceOf_mirrors h hcode) fun op op' hop t t' => ?_
    dsimp only
    rw [show op'.text = op.text from congrArg Prod.snd hop]
    split
    · refine hoperand _ _ (fun e e' he => ?_) t t'
      simp only [Alike, Expr.plain, Token.unplaced_eq_of_word hop.symm, he]
    · exact mirrorsAt_fail
  · simp only [Alike, Expr.plain, Token.unplaced_eq_of_word hop.symm, he]

theorem moreChain_mirrors {ops : List TokenKind} {tighter : List Rule} {e e' : Expr}
    (hops : ∀ k ∈ ops, 0 < k.tightness) (htighter : AreOperators tighter) (he : e.Alike e') :
    Parser.Mirrors n n' fs fs Alike (moreChain inner ops tighter e)
      (moreChain inner ops tighter e') :=
  mirrors_accept hcode (fun k hk => isPlain_of_tightness (hops k hk))
    (fun _ _ => mirrorsAt_pure he) fun _ _ hop => h.chain hcode hops htighter he hop

theorem level_mirrors {rs : List Rule} (hrs : AreOperators rs) :
    Parser.Mirrors n n' fs fs Alike (level inner rs) (level inner rs) := by
  induction rs with
  | nil => exact unary_mirrors h hcode
  | cons r tighter ih =>
      have htighter : AreOperators tighter := fun r' hr' => hrs r' (List.mem_cons_of_mem r hr')
      have hr := hrs r List.mem_cons_self
      intro t t'
      cases r with
      | left ops =>
          refine mirrorsAt_bind (ih htighter t t') fun e e' he => ?_
          exact moreChain_mirrors h hcode (hr.resolve_left (by simp)) htighter he
      | right op =>
          have hop : ∀ k ∈ [op], 0 < k.tightness := hr.resolve_left (by simp)
          refine mirrorsAt_bind (ih htighter t t') fun e e' he => ?_
          refine mirrors_accept hcode (fun k hk => isPlain_of_tightness (hop k hk))
            (fun _ _ => mirrorsAt_pure he) fun op op' hop u u' => ?_
          refine mirrorsAt_bind (h.level hcode hrs u u') fun right right' hright _ _ => ?_
          refine mirrorsAt_pure ?_
          simp only [Alike, Expr.plain, he, hright, Token.unplaced_eq_of_word hop.symm]
      | ternary =>
          refine mirrorsAt_bind (ih htighter t t') fun e e' he => ?_
          refine mirrors_accept hcode (by decide) (fun _ _ => mirrorsAt_pure he) ?_
          intro q q' hq u u'
          refine mirrorsAt_bind (h.level hcode hrs u u') fun yes yes' hyes => ?_
          refine mirrors_expect_token rfl (by decide) fun _ _ v v' => ?_
          refine mirrorsAt_bind (h.level hcode hrs v v') fun no no' hno _ _ => mirrorsAt_pure ?_
          simp only [Alike, Expr.plain, he, hyes, hno, Token.unplaced_eq_of_word hq.symm]

theorem chain_mirrors {ops : List TokenKind} {tighter : List Rule} {left left' : Expr}
    {op op' : Token} (hops : ∀ k ∈ ops, 0 < k.tightness) (htighter : AreOperators tighter)
    (hleft : left.Alike left') (hop : op'.word = op.word) :
    Parser.Mirrors n n' fs fs Alike (chain inner ops tighter left op)
      (chain inner ops tighter left' op') := by
  intro t t'
  refine mirrorsAt_bind (level_mirrors h hcode htighter t t') fun right right' hright => ?_
  refine moreChain_mirrors h hcode hops htighter ?_
  simp only [Alike, Expr.plain, hleft, hright, Token.unplaced_eq_of_word hop.symm]

theorem assignment_mirrors :
    Parser.Mirrors n n' fs fs Alike (assignment inner) (assignment inner) := by
  have hrules : AreOperators rules.reverse := by
    unfold AreOperators
    decide
  intro t t'
  refine mirrorsAt_bind (level_mirrors h hcode hrules t t') fun target target' htarget => ?_
  refine mirrors_accept hcode (by decide) (fun _ _ => mirrorsAt_pure htarget) ?_
  intro op op' hop u u'
  refine mirrorsAt_bind (h.assignment hcode u u') fun value value' hvalue _ _ => mirrorsAt_pure ?_
  simp only [Alike, Expr.plain, htarget, hvalue, Token.unplaced_eq_of_word hop.symm]

end Rules

theorem around_mirrors {inner : Inner} (h : inner.Mirrors) (hholes : (around inner).ReadsHoles) :
    (around inner).Mirrors where
  holes := hholes
  level hcode _ _ _ hrs := level_mirrors h hcode hrs
  assignment hcode _ _ := assignment_mirrors h hcode
  chain hcode _ _ _ _ _ _ _ _ hops htighter he hop :=
    chain_mirrors h hcode hops htighter he hop
  classOperand hcode _ _ _ _ _ _ he hop := classOperand_mirrors h hcode he hop
  suffix hcode _ _ _ _ _ _ he hword ht := suffix_mirrors h hcode he hword ht

theorem ofDepth_mirrors (limit depth : Nat) : (ofDepth limit depth).Mirrors := by
  induction depth with
  | zero => exact exhausted_mirrors limit (ofDepth_readsHoles limit 0)
  | succ depth ih => exact around_mirrors ih (ofDepth_readsHoles limit (depth + 1))

end Grammar

theorem Expr.ofTokens_of_respelt {ts ts' : List Token} {limit : Nat} {e' : Expr}
    (h : Respelt [] ts ts') (h' : Expr.ofTokens limit ts' = .ok e') :
    ∃ e, Expr.ofTokens limit ts = .ok e ∧ e.Alike e' := by
  obtain ⟨t, ts, rfl⟩ := List.exists_cons_of_ne_nil h.ne_nil.1
  obtain ⟨t', ts', rfl⟩ := List.exists_cons_of_ne_nil h.ne_nil.2
  have hcode : ([] : List Frame).head? ≠ some .text := by simp
  have habreast : Abreast [] (t :: ts).length (t' :: ts').length (.ofList (t :: ts))
      (.ofList (t' :: ts')) := ⟨h, Nat.le_refl _, Nat.le_refl _⟩
  unfold Expr.ofTokens Expr.ofStream at h' ⊢
  cases hr' : Grammar.expression (Grammar.ofDepth limit limit) (.ofList (t' :: ts')) with
  | error f =>
      rw [hr'] at h'
      cases h'
  | ok result =>
      obtain ⟨e₁, r'⟩ := result
      obtain ⟨e, r, hr, halike, hrest⟩ := (Grammar.ofDepth_mirrors limit limit).assignment hcode
        _ _ _ _ rfl rfl habreast e₁ r' hr'
      have hr : Grammar.expression (Grammar.ofDepth limit limit) (.ofList (t :: ts)) = .ok (e, r) :=
        hr
      have hend : r.atEnd = r'.atEnd :=
        congrArg (· == TokenKind.eof) (congrArg Prod.fst (hrest.word_eq hcode)).symm
      rw [hr'] at h'
      rw [hr]
      dsimp only at h' ⊢
      rw [hend]
      split at h'
      · next hatEnd =>
          cases h'
          exact ⟨e, if_pos hatEnd, halike⟩
      · cases h'

/-- **Braces change no outcome.**  Where a source is tokenized, and parsed with braces around every
variable that is embedded in a string without them, it is parsed as it is too, with the same limit.
Whatever the context, the host and the denied functions, and whatever the limit of evaluation, both
trees then have the same value, or a fault that differs in its place and in the text that it quotes
at most, and both make the same calls. -/
theorem braces_change_no_outcome {source : String} {ts : List Token} {limit : Nat} {e' : Expr}
    (h : tokenize source = .ok ts) (h' : Expr.parse limit (inBraces source) = .ok e') :
    ∃ e, Expr.parse limit source = .ok e ∧ ∀ env evaluation,
      EvalM.SameOutcome (e.evaluate env evaluation) (e'.evaluate env evaluation) := by
  unfold Expr.parse at h' ⊢
  cases hts' : tokenize (inBraces source) with
  | error f =>
      rw [hts'] at h'
      cases h'
  | ok ts' =>
      rw [hts'] at h'
      obtain ⟨e, he, halike⟩ := Expr.ofTokens_of_respelt (respelt_of_tokenize h hts') h'
      rw [h]
      exact ⟨e, he, fun env => Expr.sameOutcome_of_plain halike env⟩

/-- A bare word and a property, without braces and with them. -/
theorem string_with_braces_has_same_outcome :
    ∃ e e', Expr.parse 4 "\"$a[b]$c->d\"" = .ok e ∧
      Expr.parse 4 "\"\x7b$a['b']\x7d\x7b$c->d\x7d\"" = .ok e' ∧ ∀ env evaluation,
        EvalM.SameOutcome (e.evaluate env evaluation) (e'.evaluate env evaluation) := by
  have htokens : tokenize "\"$a[b]$c->d\"" = .ok
      [⟨.quote, "\"", ⟨0, 1, 1, 1⟩⟩, ⟨.variable, "$a", ⟨1, 2, 1, 2⟩⟩,
       ⟨.lbracket, "[", ⟨3, 1, 1, 4⟩⟩, ⟨.fragment, "b", ⟨4, 1, 1, 5⟩⟩,
       ⟨.rbracket, "]", ⟨5, 1, 1, 6⟩⟩, ⟨.variable, "$c", ⟨6, 2, 1, 7⟩⟩,
       ⟨.arrow, "->", ⟨8, 2, 1, 9⟩⟩, ⟨.identifier, "d", ⟨10, 1, 1, 11⟩⟩,
       ⟨.quote, "\"", ⟨11, 1, 1, 12⟩⟩, ⟨.eof, "", ⟨12, 0, 1, 13⟩⟩] := rfl
  have hbraces : inBraces "\"$a[b]$c->d\"" = "\"\x7b$a['b']\x7d\x7b$c->d\x7d\"" := rfl
  have htokens' : tokenize "\"\x7b$a['b']\x7d\x7b$c->d\x7d\"" = .ok
      [⟨.quote, "\"", ⟨0, 1, 1, 1⟩⟩, ⟨.lbrace, "\x7b", ⟨1, 1, 1, 2⟩⟩,
       ⟨.variable, "$a", ⟨2, 2, 1, 3⟩⟩, ⟨.lbracket, "[", ⟨4, 1, 1, 5⟩⟩,
       ⟨.string, "'b'", ⟨5, 3, 1, 6⟩⟩, ⟨.rbracket, "]", ⟨8, 1, 1, 9⟩⟩,
       ⟨.rbrace, "\x7d", ⟨9, 1, 1, 10⟩⟩, ⟨.lbrace, "\x7b", ⟨10, 1, 1, 11⟩⟩,
       ⟨.variable, "$c", ⟨11, 2, 1, 12⟩⟩, ⟨.arrow, "->", ⟨13, 2, 1, 14⟩⟩,
       ⟨.identifier, "d", ⟨15, 1, 1, 16⟩⟩, ⟨.rbrace, "\x7d", ⟨16, 1, 1, 17⟩⟩,
       ⟨.quote, "\"", ⟨17, 1, 1, 18⟩⟩, ⟨.eof, "", ⟨18, 0, 1, 19⟩⟩] := rfl
  have hparse : Expr.parse 4 "\"\x7b$a['b']\x7d\x7b$c->d\x7d\"" = .ok
      (.interpolation ⟨.quote, "\"", ⟨0, 1, 1, 1⟩⟩
        [.access (.variable ⟨.variable, "$a", ⟨2, 2, 1, 3⟩⟩) ⟨.lbracket, "[", ⟨4, 1, 1, 5⟩⟩
          (.literal ⟨.string, "'b'", ⟨5, 3, 1, 6⟩⟩),
         .property (.variable ⟨.variable, "$c", ⟨11, 2, 1, 12⟩⟩) ⟨.arrow, "->", ⟨13, 2, 1, 14⟩⟩
          false (.literal ⟨.identifier, "d", ⟨15, 1, 1, 16⟩⟩)]) := by
    unfold Expr.parse
    rw [htokens']
    rfl
  rw [← hbraces] at hparse
  obtain ⟨e, he, hsame⟩ := braces_change_no_outcome htokens hparse
  exact ⟨e, _, he, hbraces ▸ hparse, hsame⟩

end GuardedExpr
