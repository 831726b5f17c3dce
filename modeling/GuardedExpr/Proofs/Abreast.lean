/-
# Streams abreast — two parsers in front of respelt tokens

Two streams are `Abreast` when the tokens of the second are those of the first,
respelt.  Their next tokens have the same word, or one stream is in front of an
embedded variable and the other in front of its hole (`Respelt.cases`).

`p.Mirrors … p'` says that in front of such streams `p` has a result where `p'` has
one, that the results correspond, and that the streams are abreast again behind them.
The numbers of tokens are carried along, because a list has a bound from the number of
tokens left, which differs between the streams.
-/
import GuardedExpr.Proofs.Building
import GuardedExpr.Proofs.BracedTokens

namespace GuardedExpr

theorem Token.kind_of_word {t t' : Token} (h : t'.word = t.word) : t'.kind = t.kind :=
  congrArg Prod.fst h

/-! ## Streams side by side -/

/-- An embedded variable comes first, and on the other side its hole. -/
inductive BracedAhead (fs : List Frame) : List Token → List Token → Prop
  | intro {v l r : Token} {us vs ts ts' : List Token} : Embedded (v :: us) → l.kind = .lbrace →
      vs.map Token.word = ((v :: us).map Token.word).map Word.inCode → r.kind = .rbrace →
      Lexed (.text :: fs) ts → Respelt (.text :: fs) ts ts' →
      BracedAhead fs (v :: (us ++ ts)) (l :: (vs ++ r :: ts'))

/-- Respelt tokens start with the same word, or with an embedded variable and its hole. -/
theorem Respelt.cases {fs : List Frame} {t t' : Token} {ts ts' : List Token}
    (h : Respelt fs (t :: ts) (t' :: ts')) :
    (t'.word = t.word ∧ (fs.head? = some .text → t.kind ≠ .variable) ∧
      (t.kind ≠ .eof → Respelt (t.kind.framesAfter fs) ts ts')) ∨
    ∃ outer, fs = .text :: outer ∧ BracedAhead outer (t :: ts) (t' :: ts') := by
  generalize hall : t :: ts = all at h
  generalize hall' : t' :: ts' = all' at h
  cases h with
  | eof heof hword =>
      cases hall
      cases hall'
      exact .inl ⟨hword, fun _ => by simp [heof], fun hne => absurd heof hne⟩
  | same heof hword hplain hbehind =>
      cases hall
      cases hall'
      exact .inl ⟨hword, hplain, fun _ => hbehind⟩
  | @braced outer us vs rest rest' l r hus hl hvs hr hlexed hrest =>
      cases us with
      | nil => cases hus
      | cons v us => exact .inr ⟨outer, rfl, .intro hus hl hvs hr hlexed hrest⟩

theorem BracedAhead.variable {fs : List Frame} {t t' : Token} {ts ts' : List Token}
    (h : BracedAhead fs (t :: ts) (t' :: ts')) : t.kind = .variable := by
  cases h with
  | intro hus => exact hus.variable

theorem BracedAhead.lbrace {fs : List Frame} {t t' : Token} {ts ts' : List Token}
    (h : BracedAhead fs (t :: ts) (t' :: ts')) : t'.kind = .lbrace := by
  cases h with
  | intro _ hl => exact hl

theorem Respelt.ne_nil {fs : List Frame} {ts ts' : List Token} (h : Respelt fs ts ts') :
    ts ≠ [] ∧ ts' ≠ [] := by
  cases h with
  | eof | same => exact ⟨List.cons_ne_nil _ _, List.cons_ne_nil _ _⟩
  | braced hus =>
      refine ⟨?_, List.cons_ne_nil _ _⟩
      rintro heq
      obtain ⟨rfl, -⟩ := List.append_eq_nil_iff.mp heq
      cases hus

/-- Two streams in front of respelt tokens, at most `n` and `n'` of them. -/
structure Abreast (fs : List Frame) (n n' : Nat) (s s' : TokenStream) : Prop where
  respelt : Respelt fs s.remaining s'.remaining
  length_le : s.remaining.length ≤ n
  length_le' : s'.remaining.length ≤ n'

namespace Abreast

variable {fs : List Frame} {n n' m m' : Nat} {s s' : TokenStream}

theorem mono (h : Abreast fs m m' s s') (hn : m ≤ n) (hn' : m' ≤ n') : Abreast fs n n' s s' :=
  ⟨h.respelt, Nat.le_trans h.length_le hn, Nat.le_trans h.length_le' hn'⟩

/-- The bounds are no less than the numbers of tokens. -/
theorem tight (h : Abreast fs n n' s s') :
    Abreast fs (s.ahead.length + 1) (s'.ahead.length + 1) s s' :=
  ⟨h.respelt, Nat.le_refl _, Nat.le_refl _⟩

theorem length_lt (h : Abreast fs n n' s s') : s.ahead.length < n ∧ s'.ahead.length < n' :=
  ⟨h.length_le, h.length_le'⟩

theorem word_eq (h : Abreast fs n n' s s') (hcode : fs.head? ≠ some .text) :
    s'.current.word = s.current.word := by
  rcases Respelt.cases h.respelt with ⟨hword, -⟩ | ⟨outer, rfl, -⟩
  · exact hword
  · exact absurd rfl hcode

/-- Both cursors move over the current word. -/
theorem advance (h : Abreast fs n n' s s') (hword : s'.current.word = s.current.word)
    (heof : s.current.kind ≠ .eof) (hplain : fs.head? = some .text → s.current.kind ≠ .variable) :
    Abreast (s.current.kind.framesAfter fs) (n - 1) (n' - 1) s.advance s'.advance := by
  have heof' : s'.current.kind ≠ .eof := by rwa [(Prod.mk.inj hword).1]
  rcases Respelt.cases h.respelt with ⟨-, -, hbehind⟩ | ⟨outer, rfl, hahead⟩
  · have hbehind := hbehind heof
    obtain ⟨u, us, hus⟩ := List.exists_cons_of_ne_nil hbehind.ne_nil.1
    obtain ⟨u', us', hus'⟩ := List.exists_cons_of_ne_nil hbehind.ne_nil.2
    have hremaining : s.remaining = s.current :: u :: us := by rw [TokenStream.remaining, hus]
    have hremaining' : s'.remaining = s'.current :: u' :: us' := by
      rw [TokenStream.remaining, hus']
    obtain ⟨hlt, hlt'⟩ := h.length_lt
    rw [hus, hus'] at hbehind
    rw [hus] at hlt
    rw [hus'] at hlt'
    refine ⟨?_, ?_, ?_⟩
    · rwa [s.remaining_advance hremaining heof, s'.remaining_advance hremaining' heof']
    · rw [s.remaining_advance hremaining heof]
      exact Nat.le_sub_one_of_lt hlt
    · rw [s'.remaining_advance hremaining' heof']
      exact Nat.le_sub_one_of_lt hlt'
  · exact absurd hahead.variable (hplain rfl)

end Abreast

/-! ## Parsers side by side -/

namespace Parser

variable {α β γ δ : Type}

/-- In front of respelt tokens, where `p'` has a result, `p` has one that `Q` relates to it, and
they leave respelt tokens, no more of them than before. The next tokens are `t` and `t'`. -/
def MirrorsAt (t t' : Token) (n n' : Nat) (fs fs' : List Frame) (Q : α → β → Prop) (p : Parser α)
    (p' : Parser β) : Prop :=
  ∀ s s', s.current = t → s'.current = t' → Abreast fs n n' s s' → ∀ b r', p' s' = .ok (b, r') →
    ∃ a r, p s = .ok (a, r) ∧ Q a b ∧ Abreast fs' n n' r r'

/-- The same, whatever the next tokens are. -/
def Mirrors (n n' : Nat) (fs fs' : List Frame) (Q : α → β → Prop) (p : Parser α)
    (p' : Parser β) : Prop := ∀ t t', MirrorsAt t t' n n' fs fs' Q p p'

variable {t t' : Token} {n n' m m' : Nat} {fs fs' fs₁ : List Frame} {P : α → β → Prop}
  {Q : γ → δ → Prop} {p : Parser α} {p' : Parser β} {q : Parser γ}

theorem mirrorsAt_pure {c : γ} {d : δ} (h : Q c d) :
    MirrorsAt t t' n n' fs fs Q (pure c) (pure d) := by
  intro s s' _ _ hs b r' hr
  cases hr
  exact ⟨c, s, rfl, h, hs⟩

theorem mirrorsAt_fail {e : ParseError} : MirrorsAt t t' n n' fs fs' Q q (fail e) := by
  intro s s' _ _ _ b r' hr
  cases hr

theorem mirrorsAt_unexpected {expected : String} :
    MirrorsAt t t' n n' fs fs' Q q (unexpected expected) := by
  intro s s' _ _ _ b r' hr
  cases hr

theorem MirrorsAt.imp {P' : α → β → Prop} (h : MirrorsAt t t' n n' fs fs' P p p')
    (himp : ∀ a b, P a b → P' a b) : MirrorsAt t t' n n' fs fs' P' p p' := by
  intro s s' ht ht' hs b r' hr
  obtain ⟨a, r, hrun, hab, hrest⟩ := h s s' ht ht' hs b r' hr
  exact ⟨a, r, hrun, himp a b hab, hrest⟩

theorem mirrorsAt_bind {f : α → Parser γ} {f' : β → Parser δ}
    (hp : MirrorsAt t t' n n' fs fs₁ P p p')
    (hf : ∀ a b, P a b → Mirrors n n' fs₁ fs' Q (f a) (f' b)) :
    MirrorsAt t t' n n' fs fs' Q (p >>= f) (p' >>= f') := by
  intro s s' ht ht' hs d r' hr
  simp only [bind, andThen] at hr ⊢
  split at hr
  · cases hr
  · next b s₁' hp' =>
      obtain ⟨a, s₁, hrun, hab, hs₁⟩ := hp s s' ht ht' hs b s₁' hp'
      rw [hrun]
      exact hf a b hab _ _ s₁ s₁' rfl rfl hs₁ d r' hr

theorem mirrorsAt_peek {f : Token → Parser γ} {f' : Token → Parser δ}
    (hf : MirrorsAt t t' n n' fs fs' Q (f t) (f' t')) :
    MirrorsAt t t' n n' fs fs' Q (peek >>= f) (peek >>= f') := by
  rintro s s' rfl rfl hs b r' hr
  exact hf s s' rfl rfl hs b r' hr

theorem mirrorsAt_next {f : Token → Parser γ} {f' : Token → Parser δ} (hword : t'.word = t.word)
    (heof : t.kind ≠ .eof) (hplain : fs.head? = some .text → t.kind ≠ .variable)
    (hf : Mirrors (n - 1) (n' - 1) (t.kind.framesAfter fs) fs' Q (f t) (f' t')) :
    MirrorsAt t t' n n' fs fs' Q (next >>= f) (next >>= f') := by
  rintro s s' rfl rfl hs b r' hr
  obtain ⟨a, r, hrun, hab, hrest⟩ :=
    hf _ _ s.advance s'.advance rfl rfl (hs.advance hword heof hplain) b r' hr
  exact ⟨a, r, hrun, hab, hrest.mono (Nat.sub_le _ _) (Nat.sub_le _ _)⟩

/-- An expected token is no brace, so it is not respelt. -/
theorem mirrors_expect {kind : TokenKind} {expected : String} {f : Token → Parser γ}
    {f' : Token → Parser δ} (hkind : kind ∉ [TokenKind.eof, .lbrace, .variable])
    (hf : ∀ t t', Mirrors (n - 1) (n' - 1) (kind.framesAfter fs) fs' Q (f t) (f' t')) :
    Mirrors n n' fs fs' Q (expect kind expected >>= f) (expect kind expected >>= f') := by
  rintro t t' s s' rfl rfl hs b r' hr
  simp only [List.mem_cons, List.not_mem_nil, or_false, not_or] at hkind
  by_cases hcurrent : s'.current.kind = kind
  · have hword : s'.current.word = s.current.word := by
      rcases Respelt.cases hs.respelt with ⟨hword, -⟩ | ⟨outer, -, hahead⟩
      · exact hword
      · exact absurd (hcurrent.symm.trans hahead.lbrace) hkind.2.1
    have hsame : s.current.kind = kind := (congrArg Prod.fst hword).symm.trans hcurrent
    have hnext : MirrorsAt s.current s'.current n n' fs fs' Q (next >>= f) (next >>= f') := by
      refine mirrorsAt_next hword (by rw [hsame]; exact hkind.1) (fun _ => ?_) ?_
      · rw [hsame]
        exact hkind.2.2
      · rw [hsame]
        exact hf _ _
    simp only [bind, andThen, expect_of_kind hcurrent, expect_of_kind hsame] at hr ⊢
    exact hnext s s' rfl rfl hs b r' hr
  · simp only [bind, andThen, expect_of_ne hcurrent] at hr
    cases hr

theorem notMem_of_isPlain {kind : TokenKind} (hkind : kind.isPlain = true)
    (hvariable : kind ≠ .variable) : kind ∉ [TokenKind.eof, .lbrace, .variable] := by
  intro hmem
  simp only [List.mem_cons, List.not_mem_nil, or_false] at hmem
  rcases hmem with rfl | rfl | rfl
  · cases hkind
  · cases hkind
  · exact hvariable rfl

/-- An expected token that leaves the frames as they are. -/
theorem mirrors_expect_token {kind : TokenKind} {expected : String} {f : Token → Parser γ}
    {f' : Token → Parser δ} (hkind : kind.isPlain = true) (hvariable : kind ≠ .variable)
    (hf : ∀ t t', Mirrors (n - 1) (n' - 1) fs fs' Q (f t) (f' t')) :
    Mirrors n n' fs fs' Q (expect kind expected >>= f) (expect kind expected >>= f') := by
  refine mirrors_expect (notMem_of_isPlain hkind hvariable) fun t t' => ?_
  rw [TokenKind.framesAfter_of_isPlain hkind]
  exact hf t t'

theorem mirrors_upTo {kind : TokenKind} {expected : String}
    (hkind : kind ∉ [TokenKind.eof, .lbrace, .variable]) (hfs : kind.framesAfter fs₁ = fs')
    (hp : Mirrors n n' fs fs₁ P p p') :
    Mirrors n n' fs fs' P (upTo kind expected p) (upTo kind expected p') := by
  intro t t'
  refine mirrorsAt_bind (hp t t') fun a b hab => mirrors_expect hkind fun _ _ _ _ => ?_
  rw [hfs]
  exact mirrorsAt_pure hab

/-- A list has no more items than there are tokens left. -/
theorem mirrors_counted {p : Nat → Parser γ} {p' : Nat → Parser δ}
    (h : ∀ n n', Mirrors n n' fs fs' Q (p n) (p' n')) :
    Mirrors n n' fs fs' Q (fun s => p (s.ahead.length + 1) s)
      (fun s => p' (s.ahead.length + 1) s) := by
  intro t t' s s' ht ht' hs b r' hr
  obtain ⟨a, r, hrun, hab, hrest⟩ := h _ _ t t' s s' ht ht' hs.tight b r' hr
  exact ⟨a, r, hrun, hab, hrest.mono hs.length_le hs.length_le'⟩

theorem mirrors_of_bound_zero (h : n = 0 ∨ n' = 0) (p : Parser α) (p' : Parser β) :
    Mirrors n n' fs fs' P p p' := by
  intro t t' s s' _ _ hs
  obtain ⟨hlt, hlt'⟩ := hs.length_lt
  omega

section Code

variable (hcode : fs.head? ≠ some .text)

include hcode

theorem mirrors_of_code (h : ∀ t t', t'.word = t.word → MirrorsAt t t' n n' fs fs' P p p') :
    Mirrors n n' fs fs' P p p' := by
  rintro t t' s s' rfl rfl hs
  exact h _ _ (hs.word_eq hcode) s s' rfl rfl hs

/-- A token that leaves the frames as they are. -/
theorem mirrorsAt_token {f : Token → Parser γ} {f' : Token → Parser δ} (hword : t'.word = t.word)
    (ht : t.kind.isPlain = true) (hf : Mirrors (n - 1) (n' - 1) fs fs' Q (f t) (f' t')) :
    MirrorsAt t t' n n' fs fs' Q (next >>= f) (next >>= f') := by
  have heof : t.kind ≠ .eof := by
    intro heof
    rw [heof] at ht
    cases ht
  refine mirrorsAt_next hword heof (fun htext => absurd htext hcode) ?_
  rwa [TokenKind.framesAfter_of_isPlain ht]

theorem mirrors_accept {kinds : List TokenKind} {f : Option Token → Parser γ}
    {f' : Option Token → Parser δ} (hkinds : ∀ k ∈ kinds, k.isPlain = true)
    (hnone : Mirrors n n' fs fs' Q (f none) (f' none))
    (hsome : ∀ t t', t'.word = t.word →
      Mirrors (n - 1) (n' - 1) fs fs' Q (f (some t)) (f' (some t'))) :
    Mirrors n n' fs fs' Q (accept kinds >>= f) (accept kinds >>= f') := by
  refine mirrors_of_code hcode fun t t' hword => ?_
  rintro s s' rfl rfl hs b r' hr
  have hkind : s'.current.kind = s.current.kind := congrArg Prod.fst hword
  by_cases hmem : s.current.kind ∈ kinds
  · rw [accept_of_mem (hkind ▸ hmem)] at hr
    rw [accept_of_mem hmem]
    exact mirrorsAt_token hcode hword (hkinds _ hmem) (hsome _ _ hword) s s' rfl rfl hs b r' hr
  · rw [accept_of_notMem (hkind ▸ hmem)] at hr
    rw [accept_of_notMem hmem]
    exact hnone _ _ s s' rfl rfl hs b r' hr

end Code

end Parser

end GuardedExpr
