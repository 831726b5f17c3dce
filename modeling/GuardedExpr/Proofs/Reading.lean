/-
# Reading — which tokens a parser takes

`p.Takes ts rest q` says what a parser does in front of `ts` with `rest` behind
them: it passes over `ts` and from there on does what `q` does.  A parser that gives
`a` and stops is the case `q = pure a`; one that goes on in a loop is the case where
`q` is the rest of the loop.  Both are put together in the order in which the
parser is written.

What stands behind `ts` has a part in it, because a parser looks at the token where
it stops.  `Stops kinds rest` says that this token does not make it go on.
-/
import GuardedExpr.Expr.Parser

namespace GuardedExpr

/-- The tokens from the cursor on. -/
def TokenStream.remaining (s : TokenStream) : List Token := s.current :: s.ahead

theorem TokenStream.remaining_advance {s : TokenStream} {t u : Token} {rest : List Token}
    (hs : s.remaining = t :: u :: rest) (ht : t.kind ≠ .eof) : s.advance.remaining = u :: rest := by
  obtain ⟨passed, current, ahead⟩ := s
  cases hs
  rw [advance, if_neg ht]
  rfl

/-- The next token is there and none of these kinds. -/
def Stops (kinds : List TokenKind) : List Token → Prop
  | [] => False
  | t :: _ => t.kind ∉ kinds

theorem Stops.mono {kinds kinds' : List TokenKind} {rest : List Token} (h : kinds' ⊆ kinds)
    (hrest : Stops kinds rest) : Stops kinds' rest := by
  cases rest with
  | nil => exact hrest
  | cons t rest =>
      intro hmem
      exact hrest (h hmem)

theorem Stops.ne_nil {kinds : List TokenKind} {rest : List Token} (hrest : Stops kinds rest) :
    rest ≠ [] := by
  rintro rfl
  exact hrest

namespace Parser

variable {α β : Type}

/-- In front of `ts` and `rest`, the parser does what `q` does in front of `rest`. -/
def Takes (p : Parser α) (ts rest : List Token) (q : Parser α) : Prop :=
  ∀ s : TokenStream, s.remaining = ts ++ rest → ∃ s', s'.remaining = rest ∧ p s = q s'

theorem takes_nil (p : Parser α) (rest : List Token) : Takes p [] rest p := by
  intro s hs
  exact ⟨s, hs, rfl⟩

theorem Takes.trans {p q r : Parser α} {ts us rest : List Token} (h : Takes p ts (us ++ rest) q)
    (h' : Takes q us rest r) : Takes p (ts ++ us) rest r := by
  intro s hs
  rw [List.append_assoc] at hs
  obtain ⟨s₁, hs₁, hp⟩ := h s hs
  obtain ⟨s₂, hs₂, hq⟩ := h' s₁ hs₁
  exact ⟨s₂, hs₂, hp.trans hq⟩

theorem Takes.bind {p : Parser α} {a : α} {ts rest : List Token} (h : Takes p ts rest (pure a))
    (f : α → Parser β) : Takes (p >>= f) ts rest (f a) := by
  intro s hs
  obtain ⟨s', hs', hp⟩ := h s hs
  refine ⟨s', hs', ?_⟩
  show andThen p f s = f a s'
  rw [andThen, hp]
  rfl

/-- First what `p` takes, then what comes behind it. -/
theorem Takes.then {p : Parser α} {a : α} {ts us rest : List Token} {f : α → Parser β}
    {q : Parser β} (h : Takes p ts (us ++ rest) (pure a)) (h' : Takes (f a) us rest q) :
    Takes (p >>= f) (ts ++ us) rest q := (h.bind f).trans h'

/-- The same where `p` takes nothing. -/
theorem Takes.here {p : Parser α} {a : α} {ts rest : List Token} {f : α → Parser β} {q : Parser β}
    (h : Takes p [] (ts ++ rest) (pure a)) (h' : Takes (f a) ts rest q) :
    Takes (p >>= f) ts rest q := h.then h'

/-- The same where nothing is taken behind `p`. -/
theorem Takes.last {p : Parser α} {a : α} {ts rest : List Token} {f : α → Parser β} {q : Parser β}
    (h : Takes p ts rest (pure a)) (h' : Takes (f a) [] rest q) : Takes (p >>= f) ts rest q := by
  rw [← List.append_nil ts]
  exact h.then h'

theorem takes_peek (t : Token) (rest : List Token) : Takes peek [] (t :: rest) (pure t) := by
  intro s hs
  obtain ⟨passed, current, ahead⟩ := s
  cases hs
  exact ⟨_, rfl, rfl⟩

theorem takes_next {t : Token} {rest : List Token} (ht : t.kind ≠ .eof) (hrest : rest ≠ []) :
    Takes next [t] rest (pure t) := by
  intro s hs
  obtain ⟨u, us, rfl⟩ := List.exists_cons_of_ne_nil hrest
  refine ⟨s.advance, s.remaining_advance hs ht, ?_⟩
  obtain ⟨passed, current, ahead⟩ := s
  cases hs
  rfl

theorem takes_accept {kinds : List TokenKind} {t : Token} {rest : List Token}
    (hmem : t.kind ∈ kinds) (ht : t.kind ≠ .eof) (hrest : rest ≠ []) :
    Takes (accept kinds) [t] rest (pure (some t)) := by
  intro s hs
  obtain ⟨u, us, rfl⟩ := List.exists_cons_of_ne_nil hrest
  refine ⟨s.advance, s.remaining_advance hs ht, ?_⟩
  obtain ⟨passed, current, ahead⟩ := s
  cases hs
  simp only [accept, TokenStream.take?]
  rw [if_pos (List.contains_iff_mem.mpr hmem)]
  rfl

theorem takes_accept_none {kinds : List TokenKind} {rest : List Token} (hrest : Stops kinds rest) :
    Takes (accept kinds) [] rest (pure none) := by
  intro s hs
  refine ⟨s, hs, ?_⟩
  obtain ⟨passed, current, ahead⟩ := s
  cases hs
  simp only [accept, TokenStream.take?]
  rw [if_neg fun hmem => hrest (List.contains_iff_mem.mp hmem)]
  rfl

theorem takes_expect {t : Token} {rest : List Token} {kind : TokenKind} {expected : String}
    (hkind : t.kind = kind) (ht : t.kind ≠ .eof) (hrest : rest ≠ []) :
    Takes (expect kind expected) [t] rest (pure t) := by
  intro s hs
  obtain ⟨u, us, rfl⟩ := List.exists_cons_of_ne_nil hrest
  refine ⟨s.advance, s.remaining_advance hs ht, ?_⟩
  obtain ⟨passed, current, ahead⟩ := s
  cases hs
  have hcheck : (⟨passed, current, u :: us⟩ : TokenStream).check kind = true :=
    beq_iff_eq.mpr hkind
  simp only [expect, TokenStream.expect]
  rw [if_pos hcheck]
  rfl

section Current

variable {s : TokenStream}

/-- To accept the current token is to read it. -/
theorem accept_of_mem {kinds : List TokenKind} (h : s.current.kind ∈ kinds)
    (f : Option Token → Parser β) : (accept kinds >>= f) s = (next >>= fun t => f (some t)) s := by
  simp only [bind, andThen, accept, TokenStream.take?, next]
  rw [if_pos (List.contains_iff_mem.mpr h)]

theorem accept_of_notMem {kinds : List TokenKind} (h : s.current.kind ∉ kinds)
    (f : Option Token → Parser β) : (accept kinds >>= f) s = f none s := by
  simp only [bind, andThen, accept, TokenStream.take?]
  rw [if_neg fun hmem => h (List.contains_iff_mem.mp hmem)]

/-- To expect the current token is to read it. -/
theorem expect_of_kind {kind : TokenKind} (h : s.current.kind = kind) (expected : String) :
    expect kind expected s = next s := if_pos (beq_iff_eq.mpr h)

theorem expect_of_ne {kind : TokenKind} (h : s.current.kind ≠ kind) (expected : String) :
    expect kind expected s = unexpected expected s := if_neg fun heq => h (beq_iff_eq.mp heq)

end Current

end Parser

namespace Grammar

open GuardedExpr.Parser

/-! ## Single operands -/

/-- The kinds of token at which a rule goes on behind its first operand. -/
def Rule.kinds : Rule → List TokenKind
  | .left ops => ops
  | .right op => [op]
  | .ternary => [.question]

/-- The kinds of token at which the rules of a list go on. -/
def goesOn (rs : List Rule) : List TokenKind :=
  .instanceOf :: suffixStarts ++ rs.flatMap Rule.kinds

theorem goesOn_tighter (r : Rule) (rs : List Rule) : goesOn rs ⊆ goesOn (r :: rs) := by
  intro k hk
  simp only [goesOn, List.flatMap_cons, List.cons_append, List.mem_cons, List.mem_append] at hk ⊢
  exact hk.imp_right fun hk => hk.imp_right Or.inr

theorem goesOn_nil_subset (rs : List Rule) : goesOn [] ⊆ goesOn rs := by
  induction rs with
  | nil => exact List.Subset.refl _
  | cons r rs ih => exact List.Subset.trans ih (goesOn_tighter r rs)

theorem kinds_subset_goesOn (r : Rule) (rs : List Rule) : r.kinds ⊆ goesOn (r :: rs) := by
  intro k hk
  simp [goesOn, hk]

variable {inner : Inner} {ts rest : List Token}

theorem takes_moreSuffixes (e : Expr) {kinds : List TokenKind} (hk : suffixStarts ⊆ kinds)
    (hrest : Stops kinds rest) : Takes (moreSuffixes inner e) [] rest (pure e) := by
  obtain ⟨t, us, rfl⟩ := List.exists_cons_of_ne_nil hrest.ne_nil
  refine (takes_peek t us).here ?_
  rw [if_neg fun hmem => hrest (hk (List.contains_iff_mem.mp hmem))]
  exact takes_nil _ _

theorem takes_moreInstanceOf (e : Expr) (hrest : Stops [.instanceOf] rest) :
    Takes (moreInstanceOf inner e) [] rest (pure e) := (takes_accept_none hrest).bind _

theorem takes_moreChain {ops : List TokenKind} (tighter : List Rule) (e : Expr)
    (hrest : Stops ops rest) : Takes (moreChain inner ops tighter e) [] rest (pure e) :=
  (takes_accept_none hrest).bind _

/-- A variable is read where the next token is no suffix. -/
theorem takes_operand_variable {t : Token} (ht : t.kind = .variable)
    (hrest : Stops suffixStarts rest) : Takes (operand inner) [t] rest (pure (.variable t)) := by
  have hprimary : Takes (primary inner) [t] rest (pure (.variable t)) := by
    refine (takes_peek t rest).here ?_
    simp only [ht]
    exact (takes_next (by simp [ht]) hrest.ne_nil).bind _
  exact hprimary.last (takes_moreSuffixes _ (List.Subset.refl _) hrest)

/-- A property behind an operand, for one level. -/
theorem takes_property {limit depth : Nat} {e : Expr} {op name : Token} {q : Parser Expr}
    (hop : op.kind = .arrow) (hname : name.kind.isWord = true)
    (hnext : Stops [.lparen] (ts ++ rest))
    (h : Takes (moreSuffixes (ofDepth limit depth) (.property e op false (.literal name)))
      ts rest q) :
    Takes (moreSuffixes (ofDepth limit (depth + 1)) e) (op :: name :: ts) rest q := by
  have hmemberName : Takes (memberName (ofDepth limit depth) op false) [name] (ts ++ rest)
      (pure (.literal name)) := by
    have heof : name.kind ≠ .eof := by
      intro heof
      rw [heof] at hname
      cases hname
    refine (takes_peek name (ts ++ rest)).here ?_
    rw [if_pos hname]
    exact (takes_next heof hnext.ne_nil).bind _
  have hmember : Takes (member (ofDepth limit depth) e op false) [name] (ts ++ rest)
      (pure (.property e op false (.literal name))) :=
    hmemberName.last ((takes_accept_none hnext).bind _)
  have heof : op.kind ≠ .eof := by simp [hop]
  refine (takes_peek op (name :: ts ++ rest)).here ?_
  rw [if_pos (by rw [hop]; rfl)]
  refine (takes_next heof (by simp)).then ?_
  simp only [hop]
  exact hmember.then h

/-- What starts with no sign and no cast is read by the rules of unary operators. -/
theorem takes_unary_of_instanceOf {t : Token} {e : Expr}
    (ht : t.kind ∉ [.minus, .plus, .bang, .cast])
    (h : Takes (instanceOf inner) (t :: ts) rest (pure e)) :
    Takes (unary inner) (t :: ts) rest (pure e) := by
  have hstop : Stops [.minus, .plus, .bang, .cast] (t :: ts ++ rest) := ht
  have hsign : Stops [.minus, .plus, .bang] (t :: ts ++ rest) := hstop.mono (by decide)
  have hcast : Stops [.cast] (t :: ts ++ rest) := hstop.mono (by decide)
  exact (takes_accept_none hsign).here ((takes_accept_none hcast).here h)

/-- A sign in front of an operand. -/
theorem takes_unary_sign {op : Token} {e : Expr} (hop : op.kind ∈ [.minus, .plus, .bang])
    (h : Takes (inner.level []) ts rest (pure e)) (hne : ts ++ rest ≠ []) :
    Takes (unary inner) (op :: ts) rest (pure (.unary op e)) := by
  have heof : op.kind ≠ .eof := by
    intro heof
    simp [heof] at hop
  refine (takes_accept hop heof hne).then ?_
  exact h.bind _

/-- Looser rules leave an operand alone that is not followed by their operators. -/
theorem takes_level_cons {r : Rule} {rs : List Rule} {e : Expr}
    (h : Takes (level inner rs) ts rest (pure e)) (hrest : Stops r.kinds rest) :
    Takes (level inner (r :: rs)) ts rest (pure e) := by
  cases r with
  | left ops => exact h.last (takes_moreChain rs e hrest)
  | right op => exact h.last ((takes_accept_none hrest).bind _)
  | ternary => exact h.last ((takes_accept_none hrest).bind _)

theorem takes_level_of_unary {e : Expr} (h : Takes (unary inner) ts rest (pure e))
    (rs : List Rule) (hrest : Stops (goesOn rs) rest) :
    Takes (level inner rs) ts rest (pure e) := by
  induction rs with
  | nil => exact h
  | cons r rs ih =>
      have htighter := ih (hrest.mono (goesOn_tighter r rs))
      exact takes_level_cons htighter (hrest.mono (kinds_subset_goesOn r rs))

/-- A variable alone is read by the rules of any list. -/
theorem takes_level_variable {t : Token} (ht : t.kind = .variable) (rs : List Rule)
    (hrest : Stops (goesOn rs) rest) : Takes (level inner rs) [t] rest (pure (.variable t)) := by
  have hsuffix : Stops suffixStarts rest := hrest.mono fun k hk => by simp [goesOn, hk]
  have hinstance : Stops [.instanceOf] rest := hrest.mono fun k hk => by simp_all [goesOn]
  refine takes_level_of_unary (takes_unary_of_instanceOf (by simp [ht]) ?_) rs hrest
  exact (takes_operand_variable ht hsuffix).last (takes_moreInstanceOf _ hinstance)

/-- One more operator of a chain and the operand on its right, for one level. -/
theorem takes_link {limit depth : Nat} {ops : List TokenKind} {tighter : List Rule} {l r : Expr}
    {op : Token} (hop : op.kind ∈ ops) (heof : op.kind ≠ .eof) (hne : ts ++ rest ≠ [])
    (hr : Takes (level (ofDepth limit depth) tighter) ts rest (pure r)) :
    Takes (moreChain (ofDepth limit (depth + 1)) ops tighter l) (op :: ts) rest
      (moreChain (ofDepth limit depth) ops tighter (.binary l op r)) := by
  refine (takes_accept hop heof hne).then ?_
  exact hr.bind _

end Grammar

/-- Tokens that are taken as a whole are read as one expression. -/
theorem Expr.ofTokens_of_takes {limit : Nat} {ts : List Token} {eof : Token} {e : Expr}
    (h : Parser.Takes (Grammar.ofDepth limit limit).assignment ts [eof] (pure e)) (hne : ts ≠ [])
    (heof : eof.kind = .eof) : Expr.ofTokens limit (ts ++ [eof]) = .ok e := by
  have hstream : (TokenStream.ofList (ts ++ [eof])).remaining = ts ++ [eof] := by
    obtain ⟨t, ts, rfl⟩ := List.exists_cons_of_ne_nil hne
    rfl
  obtain ⟨s, hs, hrun⟩ := h _ hstream
  have hend : s.atEnd = true := by
    obtain ⟨passed, current, ahead⟩ := s
    cases hs
    exact beq_iff_eq.mpr heof
  unfold Expr.ofTokens Expr.ofStream Grammar.expression
  rw [hrun]
  exact if_pos hend

end GuardedExpr
