/-
# Balanced reading — a parser closes what it opens

`p.Reads P` says that what `p` reads from a stream with an end has the property
`P`, and that the end remains.  It is kept by sequencing.  A rule of the grammar
reads an opening bracket only where it goes on to its partner (`readsAt_open`,
`reads_close`), and what it reads in between is read by a parser one level further
in; so everything that is read is balanced, whatever the depth, and so are the
tokens of a source that is parsed (`parse_balanced`).
-/
import GuardedExpr.Proofs.Brackets
import GuardedExpr.Proofs.Placement
import GuardedExpr.Proofs.Reading

namespace GuardedExpr

/-! ## Streams -/

/-- The stream stops at an end of the input. -/
def TokenStream.Ends (s : TokenStream) : Prop :=
  ∃ body eof, s.remaining = body ++ [eof] ∧ eof.kind = .eof

namespace TokenStream

variable {s : TokenStream}

/-- In front of another token than the end, the cursor moves over it. -/
theorem Ends.advance (h : s.Ends) (hkind : s.current.kind ≠ .eof) :
    s.advance.Ends ∧ s.remaining = s.current :: s.advance.remaining := by
  obtain ⟨body, eof, hs, heof⟩ := h
  obtain ⟨passed, current, ahead⟩ := s
  rcases body with _ | ⟨t, _ | ⟨u, body⟩⟩
  · cases hs
    exact absurd heof hkind
  · cases hs
    rw [TokenStream.advance, if_neg hkind]
    exact ⟨⟨[], eof, rfl, heof⟩, rfl⟩
  · cases hs
    rw [TokenStream.advance, if_neg hkind]
    exact ⟨⟨u :: body, eof, rfl, heof⟩, rfl⟩

end TokenStream

namespace Parser

variable {α β : Type}

/-- Whatever the parser reads from a stream with an end has the property, and the end remains. The
next token of the stream is `t`. -/
def ReadsAt (t : Token) (p : Parser α) (P : List Token → Prop) : Prop :=
  ∀ s a s', s.current = t → s.Ends → p s = .ok (a, s') →
    s'.Ends ∧ ∃ ts, s.remaining = ts ++ s'.remaining ∧ P ts

/-- The same, whatever the next token is. -/
def Reads (p : Parser α) (P : List Token → Prop) : Prop := ∀ t, ReadsAt t p P

variable {P Q R : List Token → Prop} {p : Parser α} {f : α → Parser β}

theorem Reads.mono (hp : Reads p Q) (h : ∀ ts, Q ts → P ts) : Reads p P := by
  intro t s a s' ht hs hr
  obtain ⟨hs', ts, hts, hQ⟩ := hp t s a s' ht hs hr
  exact ⟨hs', ts, hts, h ts hQ⟩

theorem reads_pure {a : α} (h : P []) : Reads (pure a : Parser α) P := by
  intro t s b s' ht hs hr
  cases hr
  exact ⟨hs, [], rfl, h⟩

theorem reads_fail {e : ParseError} : Reads (fail e : Parser α) P := by
  intro t s a s' ht hs hr
  cases hr

theorem reads_unexpected {expected : String} : Reads (unexpected expected : Parser α) P := by
  intro t s a s' ht hs hr
  cases hr

theorem reads_bind (hp : Reads p Q) (hf : ∀ a, Reads (f a) R)
    (h : ∀ ts us, Q ts → R us → P (ts ++ us)) : Reads (p >>= f) P := by
  intro t s b s' ht hs hr
  simp only [bind, andThen] at hr
  split at hr
  · cases hr
  · next a s₁ hp' =>
      obtain ⟨hs₁, ts, hts, hQ⟩ := hp t s a s₁ ht hs hp'
      obtain ⟨hs', us, hus, hR⟩ := hf a s₁.current s₁ b s' rfl hs₁ hr
      exact ⟨hs', ts ++ us, by rw [hts, hus, List.append_assoc], h ts us hQ hR⟩

theorem reads_peek {f : Token → Parser β} (hf : ∀ t, ReadsAt t (f t) P) :
    Reads (peek >>= f) P := by
  intro t s b s' ht hs hr
  exact hf s.current s b s' rfl hs hr

theorem readsAt_next {t : Token} {f : Token → Parser β} (ht : t.kind ≠ .eof)
    (hf : Reads (f t) fun ts => P (t :: ts)) : ReadsAt t (next >>= f) P := by
  rintro s b s' rfl hs hr
  obtain ⟨hs₁, hcurrent⟩ := hs.advance ht
  obtain ⟨hs', ts, hts, hP⟩ := hf _ s.advance b s' rfl hs₁ hr
  exact ⟨hs', s.current :: ts, by rw [hcurrent, hts]; rfl, hP⟩

theorem reads_accept {kinds : List TokenKind} {f : Option Token → Parser β}
    (heof : .eof ∉ kinds) (hsome : ∀ t, t.kind ∈ kinds → Reads (f (some t)) fun ts => P (t :: ts))
    (hnone : Reads (f none) P) : Reads (accept kinds >>= f) P := by
  intro t s b s' ht hs hr
  simp only [bind, andThen, accept, TokenStream.take?] at hr
  by_cases hmem : s.current.kind ∈ kinds
  · have hkind : s.current.kind ≠ .eof := fun h => heof (h ▸ hmem)
    rw [if_pos (List.contains_iff_mem.mpr hmem)] at hr
    obtain ⟨hs₁, hcurrent⟩ := hs.advance hkind
    obtain ⟨hs', ts, hts, hP⟩ := hsome _ hmem _ s.advance b s' rfl hs₁ hr
    exact ⟨hs', s.current :: ts, by rw [hcurrent, hts]; rfl, hP⟩
  · rw [if_neg fun h => hmem (List.contains_iff_mem.mp h)] at hr
    exact hnone _ s b s' rfl hs hr

theorem reads_expect {kind : TokenKind} {expected : String} {f : Token → Parser β}
    (hkind : kind ≠ .eof) (hf : ∀ t, t.kind = kind → Reads (f t) fun ts => P (t :: ts)) :
    Reads (expect kind expected >>= f) P := by
  intro t s b s' ht hs hr
  simp only [bind, andThen, expect, TokenStream.expect] at hr
  by_cases hcheck : s.check kind = true
  · have hcurrent : s.current.kind = kind := beq_iff_eq.mp hcheck
    rw [if_pos hcheck] at hr
    obtain ⟨hs₁, hremaining⟩ := hs.advance (hcurrent ▸ hkind)
    obtain ⟨hs', ts, hts, hP⟩ := hf _ hcurrent _ s.advance b s' rfl hs₁ hr
    exact ⟨hs', s.current :: ts, by rw [hremaining, hts]; rfl, hP⟩
  · rw [if_neg hcheck] at hr
    cases hr

/-! ## Reading balanced tokens -/

theorem reads_balanced_bind (hp : Reads p Balanced) (hf : ∀ a, Reads (f a) Balanced) :
    Reads (p >>= f) Balanced := reads_bind hp hf fun _ _ => Balanced.append

theorem reads_closes_bind {k : TokenKind} (hp : Reads p (Closes k))
    (hf : ∀ a, Reads (f a) Balanced) : Reads (p >>= f) (Closes k) :=
  reads_bind hp hf fun _ _ => Closes.append

/-- A token that is no bracket. -/
theorem readsAt_neutral {t : Token} {f : Token → Parser β} (ht : t.kind.isNeutral = true)
    (hf : Reads (f t) Balanced) : ReadsAt t (next >>= f) Balanced :=
  readsAt_next (TokenKind.ne_eof_of_isNeutral ht) (hf.mono fun _ => .neutral ht)

/-- Where a bracket or the end of the input is a fault. -/
theorem reads_next_neutral {f : Token → Parser β}
    (hf : ∀ t, t.kind.isNeutral = true → Reads (f t) Balanced)
    (hfault : ∀ t, t.kind.isNeutral = false → ∃ e, f t = fail e) :
    Reads (next >>= f) Balanced := by
  intro t s b s' ht hs hr
  cases hkind : s.current.kind.isNeutral with
  | true => exact readsAt_neutral hkind (hf _ hkind) s b s' rfl hs hr
  | false =>
      obtain ⟨e, he⟩ := hfault s.current hkind
      simp only [bind, andThen, next, he, fail] at hr
      cases hr

/-- An opening bracket, where what follows goes on to its partner. -/
theorem readsAt_open {t : Token} {k : TokenKind} {f : Token → Parser β}
    (ht : t.kind.closer? = some k) (hf : Reads (f t) (Closes k)) :
    ReadsAt t (next >>= f) Balanced := by
  have hkind : t.kind ≠ .eof := by
    intro heof
    rw [heof] at ht
    cases ht
  exact readsAt_next hkind (hf.mono fun _ => Closes.group ht)

theorem reads_accept_neutral {kinds : List TokenKind} {f : Option Token → Parser β}
    (hkinds : ∀ k ∈ kinds, k.isNeutral = true) (hf : ∀ o, Reads (f o) Balanced) :
    Reads (accept kinds >>= f) Balanced := by
  refine reads_accept ?_ ?_ (hf none)
  · intro heof
    cases hkinds _ heof
  · intro t ht
    exact (hf (some t)).mono fun _ => .neutral (hkinds _ ht)

theorem reads_optional {kinds : List TokenKind} {f : Option Token → Parser β}
    (hkinds : ∀ k ∈ kinds, k.isNeutral = true) (hnone : Reads (f none) Balanced)
    (hsome : ∀ t, Reads (f (some t)) Balanced) : Reads (accept kinds >>= f) Balanced := by
  refine reads_accept_neutral hkinds fun o => ?_
  cases o with
  | none => exact hnone
  | some t => exact hsome t

theorem reads_expect_neutral {kind : TokenKind} {expected : String} {f : Token → Parser β}
    (hkind : kind.isNeutral = true) (hf : ∀ t, Reads (f t) Balanced) :
    Reads (expect kind expected >>= f) Balanced := by
  refine reads_expect (TokenKind.ne_eof_of_isNeutral hkind) fun t ht => ?_
  exact (hf t).mono fun _ => .neutral (ht ▸ hkind)

/-- Up to the partner of a bracket that is open, and on behind it. -/
theorem reads_close {k : TokenKind} {expected : String} {f : α → Token → Parser β}
    (hk : k ≠ .eof) (hp : Reads p Balanced) (hf : ∀ a t, Reads (f a t) Balanced) :
    Reads (p >>= fun a => expect k expected >>= f a) (Closes k) := by
  have hclose : ∀ a, Reads (expect k expected >>= f a) fun us =>
      ∃ c behind, us = c :: behind ∧ c.kind = k ∧ Balanced behind := by
    intro a
    refine reads_expect hk fun t ht => ?_
    exact (hf a t).mono fun behind hbehind => ⟨t, behind, rfl, ht, hbehind⟩
  refine reads_bind hp hclose ?_
  rintro inner _ hinner ⟨c, behind, rfl, hc, hbehind⟩
  exact ⟨inner, c, behind, rfl, hc, hinner, hbehind⟩

end Parser

/-! ## The grammar -/

namespace Grammar

open GuardedExpr.Parser

/-- The operators of the rules are no brackets. -/
def Neutral (rs : List Rule) : Prop := ∀ k ∈ rs.flatMap Rule.kinds, k.isNeutral = true

/-- The parsers one level further in read balanced tokens. -/
structure Inner.ReadsBalanced (inner : Inner) : Prop where
  level : ∀ rs, Neutral rs → Reads (inner.level rs) Balanced
  assignment : Reads inner.assignment Balanced
  chain : ∀ ops tighter e op, (∀ k ∈ ops, k.isNeutral = true) → Neutral tighter →
    Reads (inner.chain ops tighter e op) Balanced
  classOperand : ∀ e op, Reads (inner.classOperand e op) Balanced
  suffix : ∀ e t, t.kind ∈ suffixStarts → ReadsAt t (inner.suffix e) Balanced

theorem exhausted_balanced (limit : Nat) : (exhausted limit).ReadsBalanced := by
  have htooDeep : ∀ {α : Type} (t : Token), ReadsAt t (tooDeep limit : Parser α) Balanced := by
    intro α t s a s' _ _ hr
    cases hr
  exact ⟨fun _ _ => htooDeep, htooDeep, fun _ _ _ _ _ _ => htooDeep, fun _ _ => htooDeep,
    fun _ t _ => htooDeep t⟩

section Rules

variable {inner : Inner} (h : inner.ReadsBalanced)

include h

theorem argumentItems_balanced (most : Nat) : Reads (argumentItems inner most) Balanced := by
  induction most with
  | zero => exact reads_pure .nil
  | succ most ih =>
      refine reads_peek fun t => ?_
      split
      · exact reads_pure .nil t
      · refine reads_accept_neutral (by decide) (fun mark => ?_) t
        refine reads_balanced_bind h.assignment fun value => ?_
        refine reads_optional (by decide) (reads_pure .nil) fun comma => ?_
        exact reads_balanced_bind ih fun rest => reads_pure .nil

/-- The arguments go on to the closing parenthesis. -/
theorem arguments_closes : Reads (arguments inner) (Closes .rparen) := by
  intro t s a s' ht hs hr
  exact reads_close (by decide) (argumentItems_balanced h (s.ahead.length + 1))
    (fun _ _ => reads_pure .nil) t s a s' ht hs hr

theorem elementItems_balanced (close : TokenKind) (most : Nat) :
    Reads (elementItems inner close most) Balanced := by
  induction most with
  | zero => exact reads_pure .nil
  | succ most ih =>
      refine reads_peek fun t => ?_
      split
      · exact reads_pure .nil t
      · refine reads_balanced_bind h.assignment (fun first => ?_) t
        refine reads_optional (by decide) ?_ fun arrow => ?_
        · refine reads_optional (by decide) (reads_pure .nil) fun comma => ?_
          exact reads_balanced_bind ih fun rest => reads_pure .nil
        · refine reads_balanced_bind h.assignment fun value => ?_
          refine reads_optional (by decide) (reads_pure .nil) fun comma => ?_
          exact reads_balanced_bind ih fun rest => reads_pure .nil

theorem arrayElements_closes {close : TokenKind} (hclose : close ≠ .eof) (expected : String) :
    Reads (arrayElements inner close expected) (Closes close) := by
  intro t s a s' ht hs hr
  exact reads_close hclose (elementItems_balanced h close (s.ahead.length + 1))
    (fun _ _ => reads_pure .nil) t s a s' ht hs hr

omit h in
theorem embeddedOffset_balanced : Reads embeddedOffset Balanced := by
  refine reads_next_neutral (fun t _ => ?_) fun t ht => ?_
  · split
    · exact reads_expect_neutral rfl fun digits => reads_pure .nil
    · exact reads_pure .nil
    · exact reads_pure .nil
    · exact reads_pure .nil
    · exact reads_fail
  · split
    case h_5 => exact ⟨_, rfl⟩
    all_goals
      next hkind =>
        rw [hkind] at ht
        cases ht

omit h in
theorem embeddedVariable_balanced (var : Token) : Reads (embeddedVariable var) Balanced := by
  refine reads_accept (by decide) (fun bracket hbracket => ?_) ?_
  · have hkind : bracket.kind.closer? = some .rbracket := by
      rw [List.mem_singleton.mp hbracket]
      rfl
    refine Reads.mono (Q := Closes .rbracket) ?_ fun _ => Closes.group hkind
    exact reads_close (by decide) embeddedOffset_balanced fun _ _ => reads_pure .nil
  · refine reads_accept_neutral (by decide) fun arrow => ?_
    cases arrow with
    | none => exact reads_pure .nil
    | some op => exact reads_expect_neutral rfl fun name => reads_pure .nil

theorem partItems_balanced (most : Nat) : Reads (partItems inner most) Balanced := by
  induction most with
  | zero => exact reads_pure .nil
  | succ most ih =>
      refine reads_peek fun t => ?_
      split
      · next hkind =>
          refine readsAt_neutral (by rw [hkind]; rfl) ?_
          exact reads_balanced_bind ih fun rest => reads_pure .nil
      · next hkind =>
          refine readsAt_neutral (by rw [hkind]; rfl) ?_
          refine reads_balanced_bind (embeddedVariable_balanced t) fun part => ?_
          exact reads_balanced_bind ih fun rest => reads_pure .nil
      · next hkind =>
          refine readsAt_open (k := .rbrace) (by rw [hkind]; rfl) ?_
          refine reads_close (by decide) h.assignment fun part _ => ?_
          exact reads_balanced_bind ih fun rest => reads_pure .nil
      · exact reads_pure .nil t

theorem interpolation_balanced (opening : Token) :
    Reads (interpolation inner opening) Balanced := by
  intro t s a s' ht hs hr
  have hparts : Reads (do
      let parts ← partItems inner (s.ahead.length + 1)
      let _ ← expect .quote "closing '\"'"
      pure (Expr.interpolation opening parts)) Balanced := by
    refine reads_balanced_bind (partItems_balanced h _) fun parts => ?_
    exact reads_expect_neutral rfl fun _ => reads_pure .nil
  exact hparts t s a s' ht hs hr

/-! ### Operands -/

theorem primary_balanced : Reads (primary inner) Balanced := by
  refine reads_peek fun t => ?_
  split
  case h_1 | h_2 | h_3 | h_4 | h_5 | h_6 =>
    next hkind => exact readsAt_neutral (by rw [hkind]; rfl) (reads_pure .nil)
  case h_7 =>
    next hkind =>
      refine readsAt_open (k := .rparen) (by rw [hkind]; rfl) ?_
      exact reads_close (by decide) h.assignment fun e _ => reads_pure .nil
  case h_8 =>
    next hkind => exact readsAt_neutral (by rw [hkind]; rfl) (interpolation_balanced h t)
  case h_9 =>
    next hkind =>
      refine readsAt_open (k := .rbracket) (by rw [hkind]; rfl) ?_
      exact reads_closes_bind (arrayElements_closes h (by decide) _) fun es => reads_pure .nil
  case h_10 =>
    next hkind =>
      refine readsAt_neutral (by rw [hkind]; rfl) ?_
      refine reads_expect (by decide) fun paren hparen => ?_
      refine Reads.mono (Q := Closes .rparen) ?_ fun _ => Closes.group (by rw [hparen]; rfl)
      exact reads_closes_bind (arrayElements_closes h (by decide) _) fun es => reads_pure .nil
  case h_11 =>
    next hkind =>
      refine readsAt_neutral (by rw [hkind]; rfl) ?_
      refine reads_peek fun follower => ?_
      split
      · exact reads_pure .nil follower
      · exact reads_unexpected follower
  case h_12 => exact reads_unexpected t

theorem memberName_balanced (op : Token) (isStatic : Bool) :
    Reads (memberName inner op isStatic) Balanced := by
  refine reads_peek fun t => ?_
  split
  · next hword =>
      have hkind : t.kind.isNeutral = true := by
        cases hk : t.kind <;> first | rfl | (rw [hk] at hword; cases hword)
      exact readsAt_neutral hkind (reads_pure .nil)
  · split
    · next hvariable =>
        have hkind : t.kind = .variable := by simp_all
        exact readsAt_neutral (by rw [hkind]; rfl) (reads_pure .nil)
    · split
      · next hbrace =>
          have hkind : t.kind = .lbrace := by simp_all
          refine readsAt_open (k := .rbrace) (by rw [hkind]; rfl) ?_
          exact reads_close (by decide) h.assignment fun name _ => reads_pure .nil
      · exact reads_unexpected t

theorem member_balanced (target : Expr) (op : Token) (isStatic : Bool) :
    Reads (member inner target op isStatic) Balanced := by
  refine reads_balanced_bind (memberName_balanced h op isStatic) fun name => ?_
  refine reads_accept (by decide) (fun paren hparen => ?_) (reads_pure .nil)
  have hkind : paren.kind.closer? = some .rparen := by
    rw [List.mem_singleton.mp hparen]
    rfl
  refine Reads.mono (Q := Closes .rparen) ?_ fun _ => Closes.group hkind
  exact reads_closes_bind (arguments_closes h) fun args => reads_pure .nil

theorem moreSuffixes_balanced (e : Expr) : Reads (moreSuffixes inner e) Balanced := by
  refine reads_peek fun t => ?_
  split
  · next hstart => exact h.suffix e t (List.contains_iff_mem.mp hstart)
  · exact reads_pure .nil t

/-- A suffix starts with one of its tokens, two of which open a bracket. -/
theorem suffix_balanced (e : Expr) {t : Token} (ht : t.kind ∈ suffixStarts) :
    ReadsAt t (suffix inner e) Balanced := by
  have hmore : ∀ whole, Reads (moreSuffixes inner whole) Balanced := moreSuffixes_balanced h
  simp only [suffixStarts, List.mem_cons, List.not_mem_nil, or_false] at ht
  rcases ht with hkind | hkind | hkind | hkind
  · refine readsAt_neutral (by rw [hkind]; rfl) ?_
    simp only [hkind]
    exact reads_balanced_bind (member_balanced h e t true) hmore
  · refine readsAt_neutral (by rw [hkind]; rfl) ?_
    simp only [hkind]
    exact reads_balanced_bind (member_balanced h e t false) hmore
  · refine readsAt_open (k := .rbracket) (by rw [hkind]; rfl) ?_
    simp only [hkind]
    exact reads_close (by decide) h.assignment fun offset _ => hmore (.access e t offset)
  · refine readsAt_open (k := .rparen) (by rw [hkind]; rfl) ?_
    simp only [hkind]
    exact reads_closes_bind (arguments_closes h) fun args => hmore (.call e t args)

theorem operand_balanced : Reads (operand inner) Balanced :=
  reads_balanced_bind (primary_balanced h) (moreSuffixes_balanced h)

/-! ### Operators -/

theorem moreInstanceOf_balanced (e : Expr) : Reads (moreInstanceOf inner e) Balanced := by
  refine reads_accept_neutral (by decide) fun op => ?_
  cases op with
  | none => exact reads_pure .nil
  | some op => exact h.classOperand e op

theorem classOperand_balanced (value : Expr) (op : Token) :
    Reads (classOperand inner value op) Balanced := by
  refine reads_accept_neutral (by decide) fun name => ?_
  cases name with
  | none => exact reads_balanced_bind (operand_balanced h) fun cls => moreInstanceOf_balanced h _
  | some name => exact moreInstanceOf_balanced h _

theorem instanceOf_balanced : Reads (instanceOf inner) Balanced :=
  reads_balanced_bind (operand_balanced h) (moreInstanceOf_balanced h)

theorem unary_balanced : Reads (unary inner) Balanced := by
  have hnil : Neutral [] := by simp [Neutral]
  refine reads_accept_neutral (by decide) fun sign => ?_
  cases sign with
  | some op => exact reads_balanced_bind (h.level [] hnil) fun e => reads_pure .nil
  | none =>
      refine reads_accept_neutral (by decide) fun cast => ?_
      cases cast with
      | none => exact instanceOf_balanced h
      | some op =>
          dsimp only
          split
          · exact reads_balanced_bind (h.level [] hnil) fun e => reads_pure .nil
          · exact reads_fail

theorem moreChain_balanced {ops : List TokenKind} {tighter : List Rule}
    (hops : ∀ k ∈ ops, k.isNeutral = true) (htighter : Neutral tighter) (e : Expr) :
    Reads (moreChain inner ops tighter e) Balanced := by
  refine reads_accept_neutral hops fun op => ?_
  cases op with
  | none => exact reads_pure .nil
  | some op => exact h.chain ops tighter e op hops htighter

theorem level_balanced {rs : List Rule} (hrs : Neutral rs) : Reads (level inner rs) Balanced := by
  induction rs with
  | nil => exact unary_balanced h
  | cons r tighter ih =>
      have htighter : Neutral tighter := fun k hk => hrs k (by simp_all)
      have hr : ∀ k ∈ r.kinds, k.isNeutral = true := fun k hk => hrs k (by simp_all)
      cases r with
      | left ops => exact reads_balanced_bind (ih htighter) (moreChain_balanced h hr htighter)
      | right op =>
          refine reads_balanced_bind (ih htighter) fun e => reads_accept_neutral hr fun t => ?_
          cases t with
          | none => exact reads_pure .nil
          | some t => exact reads_balanced_bind (h.level _ hrs) fun right => reads_pure .nil
      | ternary =>
          refine reads_balanced_bind (ih htighter) fun e => reads_accept_neutral hr fun t => ?_
          cases t with
          | none => exact reads_pure .nil
          | some t =>
              refine reads_balanced_bind (h.level _ hrs) fun yes => ?_
              refine reads_expect_neutral rfl fun _ => ?_
              exact reads_balanced_bind (h.level _ hrs) fun no => reads_pure .nil

theorem chain_balanced {ops : List TokenKind} {tighter : List Rule}
    (hops : ∀ k ∈ ops, k.isNeutral = true) (htighter : Neutral tighter) (left : Expr)
    (op : Token) : Reads (chain inner ops tighter left op) Balanced :=
  reads_balanced_bind (level_balanced h htighter) fun _ => moreChain_balanced h hops htighter _

theorem assignment_balanced : Reads (assignment inner) Balanced := by
  have hrules : ∀ k ∈ rules.reverse.flatMap Rule.kinds, k.isNeutral = true := by decide
  refine reads_balanced_bind (level_balanced h hrules) fun target => ?_
  refine reads_accept_neutral (by decide) fun op => ?_
  cases op with
  | none => exact reads_pure .nil
  | some op => exact reads_balanced_bind h.assignment fun value => reads_pure .nil

theorem around_balanced : (around inner).ReadsBalanced where
  level _ hrs := level_balanced h hrs
  assignment := assignment_balanced h
  chain _ _ left op hops htighter := chain_balanced h hops htighter left op
  classOperand := classOperand_balanced h
  suffix e _ ht := suffix_balanced h e ht

end Rules

theorem ofDepth_balanced (limit depth : Nat) : (ofDepth limit depth).ReadsBalanced := by
  induction depth with
  | zero => exact exhausted_balanced limit
  | succ depth ih => exact around_balanced ih

end Grammar

/-- The tokens of a source have one end of the input, the last of them. -/
theorem exists_body_of_tokenize {source : String} {ts : List Token}
    (h : tokenize source = .ok ts) :
    ∃ body eof, ts = body ++ [eof] ∧ eof.kind = .eof ∧ ∀ t ∈ body, t.kind ≠ .eof := by
  unfold tokenize at h
  split at h
  · cases h
  · next ps hscan =>
      cases h
      obtain ⟨-, fs, hquoted, -⟩ := Scanner.scan_covers hscan
      obtain ⟨body, hbody, hall⟩ := Piece.place_eq_append hquoted Position.start
      exact ⟨body, _, hbody, rfl, fun t ht => (hall t ht).1⟩

/-- **What is parsed is balanced**: the tokens of a source that is an expression, without the end
of the input. -/
theorem parse_balanced {limit : Nat} {source : String} {e : Expr}
    (h : Expr.parse limit source = .ok e) :
    ∃ ts, tokenize source = .ok ts ∧ Balanced ts.dropLast := by
  unfold Expr.parse at h
  split at h
  · cases h
  · next ts hts =>
      refine ⟨ts, hts, ?_⟩
      obtain ⟨body, eof, rfl, heof, hbody⟩ := exists_body_of_tokenize hts
      have hremaining : (TokenStream.ofList (body ++ [eof])).remaining = body ++ [eof] := by
        cases body <;> rfl
      unfold Expr.ofTokens Expr.ofStream at h
      split at h
      · cases h
      · next e' s hr =>
          split at h
          · next hend =>
              obtain ⟨-, us, hus, hbalanced⟩ := (Grammar.ofDepth_balanced limit limit).assignment
                _ _ _ _ rfl ⟨body, eof, hremaining, heof⟩ hr
              have hcurrent : s.current.kind = .eof := beq_iff_eq.mp hend
              rw [hremaining] at hus
              rw [List.dropLast_concat]
              -- the parser stops at the end of the input, and there is only one
              rcases List.append_eq_append_iff.mp hus with ⟨more, rfl, hmore⟩ | ⟨more, rfl, hmore⟩
              · obtain rfl : more = [] := by
                  cases more with
                  | nil => rfl
                  | cons => simp [TokenStream.remaining] at hmore
                rwa [List.append_nil] at hbalanced
              · cases more with
                | nil => rwa [List.append_nil]
                | cons t more =>
                    obtain ⟨rfl, -⟩ := List.cons.inj hmore
                    exact absurd hcurrent (hbody _ (by simp))
          · cases h

end GuardedExpr
