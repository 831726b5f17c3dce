/-
# Tracking — runs of the counting parser beside the grammar

`Tracks limit σ moves p q tr` says of a run `p`, given more and more calls from the
trail `tr` on, that it ends: from some number of calls on it has one and the same
outcome.  This outcome is that of the parser `q`; the run has gone in steps up to there
(`Trail.Leads`); the counter is where it stood, or higher where `σ` leaves that to the
caller; and a result has passed a token if `moves` says so.  All of this is kept by
sequencing, in which one of the two parts has to move.

What a step can do is said once (`ParserState.Step`).  A token is passed, never that at
the end of the input; one more level is counted where the limit allows it; or the counter
goes back to a smaller number.  That the cursor never turns back and the counter never
passes the limit are properties of steps.
-/
import GuardedExpr.Proofs.BalancedReading
import GuardedExpr.Proofs.Counting
import GuardedExpr.Proofs.ParserResult

namespace GuardedExpr

/-! ## Steps -/

/-- What a run does at a time. -/
inductive ParserState.Step (limit : Nat) (st : ParserState) : ParserState → Prop
  | pass : Step limit st ⟨st.stream.advance, st.depth⟩
  | descend : st.depth < limit → Step limit st ⟨st.stream, st.depth + 1⟩
  | restore {depth : Nat} : depth ≤ st.depth → Step limit st ⟨st.stream, depth⟩

/-- A run goes on in steps. -/
inductive Trail.Leads (limit : Nat) (tr : Trail) : Trail → Prop
  | refl : Leads limit tr tr
  | step {tr' : Trail} {st : ParserState} :
      Leads limit tr tr' → tr'.now.Step limit st → Leads limit tr ⟨st, tr'.states⟩

/-- The counter after a routine and before it. -/
def Scope.Admits : Scope → (before after : Nat) → Prop
  | .kept, before, after => after = before
  | .raised, before, after => before ≤ after

theorem Scope.admits_self (σ : Scope) (depth : Nat) : σ.Admits depth depth := by
  cases σ with
  | kept => rfl
  | raised => exact Nat.le_refl depth

/-- The index of the first end of the input. -/
def endOf (ts : List Token) : Nat := ts.findIdx (·.kind == .eof)

/-- A state over the given tokens: neither is the cursor behind the end nor the counter above the
limit. -/
structure ParserState.InBounds (limit : Nat) (ts : List Token) (st : ParserState) : Prop where
  tokens : st.stream.toList = ts
  position : st.stream.position ≤ endOf ts
  depth : st.depth ≤ limit

namespace TokenStream

variable {s : TokenStream}

/-- The cursor stands, or it moves by one token. -/
theorem advance_cases (s : TokenStream) :
    s.advance = s ∨
      ∃ t ts, s.ahead = t :: ts ∧ s.advance = ⟨s.current :: s.passed, t, ts⟩ := by
  obtain ⟨passed, current, ahead⟩ := s
  unfold advance
  split
  · exact .inl rfl
  · cases ahead with
    | nil => exact .inl rfl
    | cons t ts => exact .inr ⟨t, ts, rfl, rfl⟩

theorem toList_advance (s : TokenStream) : s.advance.toList = s.toList := by
  rcases s.advance_cases with hstands | ⟨t, ts, hahead, hmoves⟩
  · rw [hstands]
  · simp [hmoves, toList, hahead]

theorem length_advance (s : TokenStream) : s.advance.length = s.length := by
  have hlength : ∀ s : TokenStream, s.length = s.toList.length := fun s => by
    simp [length, toList, Nat.add_assoc]
  rw [hlength, hlength, toList_advance]

theorem position_le_advance (s : TokenStream) : s.position ≤ s.advance.position := by
  rcases s.advance_cases with hstands | ⟨t, ts, -, hmoves⟩
  · exact Nat.le_of_eq (by rw [hstands])
  · rw [hmoves]
    exact Nat.le_succ _

theorem position_advance_le_succ (s : TokenStream) : s.advance.position ≤ s.position + 1 := by
  rcases s.advance_cases with hstands | ⟨t, ts, -, hmoves⟩
  · rw [hstands]
    exact Nat.le_succ _
  · rw [hmoves]
    exact Nat.le_refl _

/-- The cursor stops at the first end. -/
theorem position_advance_le (h : s.position ≤ endOf s.toList) :
    s.advance.position ≤ endOf s.toList := by
  by_cases heof : s.current.kind = .eof
  · rwa [advance, if_pos heof]
  · have hnext := s.position_advance_le_succ
    have hcurrent : (s.current.kind == .eof) = false := beq_false_of_ne heof
    simp only [endOf, toList, List.findIdx_append, List.findIdx_cons, hcurrent, cond_false,
      List.length_reverse] at h ⊢
    simp only [position] at h hnext ⊢
    split at h <;> split <;> omega

theorem Ends.advance_ends (h : s.Ends) : s.advance.Ends := by
  by_cases heof : s.current.kind = .eof
  · rwa [TokenStream.advance, if_pos heof]
  · exact (h.advance heof).1

theorem Ends.position_advance (h : s.Ends) (hkind : s.current.kind ≠ .eof) :
    s.advance.position = s.position + 1 := by
  obtain ⟨-, hremaining⟩ := h.advance hkind
  have hlength := s.length_advance
  have hahead := congrArg List.length hremaining
  simp only [remaining, List.length_cons] at hahead
  simp only [length, position] at hlength ⊢
  omega

end TokenStream

theorem ParserState.Step.position_le {limit : Nat} {st st' : ParserState} (h : st.Step limit st') :
    st.stream.position ≤ st'.stream.position := by
  cases h with
  | pass => exact TokenStream.position_le_advance _
  | descend | restore => exact Nat.le_refl _

theorem ParserState.Step.inBounds {limit : Nat} {ts : List Token} {st st' : ParserState}
    (h : st.Step limit st') (hst : st.InBounds limit ts) : st'.InBounds limit ts := by
  cases h with
  | pass =>
      obtain rfl := hst.tokens
      exact ⟨TokenStream.toList_advance _, TokenStream.position_advance_le hst.position, hst.depth⟩
  | descend hlimit => exact { hst with depth := hlimit }
  | restore hdepth => exact { hst with depth := Nat.le_trans hdepth hst.depth }

namespace Trail

variable {limit c : Nat} {tr tr' tr₁ : Trail}

theorem Leads.trans (h : tr.Leads limit tr₁) (h' : tr₁.Leads limit tr') : tr.Leads limit tr' := by
  induction h' with
  | refl => exact h
  | step _ hstep ih => exact .step ih hstep

theorem leads_pass (limit : Nat) (tr : Trail) : tr.Leads limit tr.pass := .step .refl .pass

theorem Leads.length_eq (h : tr.Leads limit tr') : tr'.stream.length = tr.stream.length := by
  induction h with
  | refl => rfl
  | step _ hstep ih =>
      cases hstep with
      | pass => exact (TokenStream.length_advance _).trans ih
      | descend | restore => exact ih

/-- The cursor does not turn back. -/
theorem Leads.position_le (h : tr.Leads limit tr') : tr.stream.position ≤ tr'.stream.position := by
  induction h with
  | refl => exact Nat.le_refl _
  | step _ hstep ih => exact Nat.le_trans ih hstep.position_le

theorem Leads.ends (h : tr.Leads limit tr') (hs : tr.stream.Ends) : tr'.stream.Ends := by
  induction h with
  | refl => exact hs
  | step _ hstep ih =>
      cases hstep with
      | pass => exact ih.advance_ends
      | descend | restore => exact ih

/-- All states are in bounds, and the cursor has never turned back. -/
structure InBounds (limit : Nat) (ts : List Token) (tr : Trail) : Prop where
  states : ∀ st ∈ tr.states, st.InBounds limit ts
  ordered : tr.states.Pairwise fun later earlier =>
    earlier.stream.position ≤ later.stream.position

theorem Leads.inBounds {ts : List Token} (h : tr.Leads limit tr') (htr : tr.InBounds limit ts) :
    tr'.InBounds limit ts := by
  induction h with
  | refl => exact htr
  | step _ hstep ih =>
      refine ⟨fun st hst => ?_, List.pairwise_cons.mpr ⟨fun st hst => ?_, ih.ordered⟩⟩
      · cases hst with
        | head => exact hstep.inBounds (ih.states _ List.mem_cons_self)
        | tail _ hst => exact ih.states st hst
      · refine Nat.le_trans ?_ hstep.position_le
        cases hst with
        | head => exact Nat.le_refl _
        | tail _ hst => exact (List.pairwise_cons.mp ih.ordered).1 st hst

/-- The counter stands at `c`, in front of tokens with an end. -/
structure At (c : Nat) (tr : Trail) : Prop where
  depth : tr.depth = c
  ends : tr.stream.Ends

theorem At.pass (h : tr.At c) : tr.pass.At c := ⟨h.depth, h.ends.advance_ends⟩

theorem At.count (h : tr.At c) (depth : Nat) : (tr.count depth).At depth := ⟨rfl, h.ends⟩

/-- The number of tokens behind the current one. -/
def left (tr : Trail) : Nat := tr.stream.ahead.length

theorem left_pass_le (tr : Trail) : tr.pass.left ≤ tr.left := by
  have hlength := tr.stream.length_advance
  have hposition := tr.stream.position_le_advance
  show tr.stream.advance.ahead.length ≤ tr.stream.ahead.length
  simp only [TokenStream.length, TokenStream.position] at hlength hposition
  omega

theorem At.left_pass_lt (h : tr.At c) (hkind : tr.stream.current.kind ≠ .eof) :
    tr.pass.left < tr.left := by
  have hlength := tr.stream.length_advance
  have hposition := h.ends.position_advance hkind
  show tr.stream.advance.ahead.length < tr.stream.ahead.length
  simp only [TokenStream.length, TokenStream.position] at hlength hposition
  omega

end Trail

/-! ## Tokens -/

namespace Counting

variable {tr : Trail} {kind : TokenKind} {kinds : List TokenKind}

theorem expect_of_kind (h : tr.stream.current.kind = kind) (expected : String) :
    expect kind expected tr = next tr := by
  show (if tr.stream.current.kind == kind then next else unexpected expected) tr = _
  rw [if_pos (beq_iff_eq.mpr h)]

theorem expect_of_ne (h : tr.stream.current.kind ≠ kind) (expected : String) :
    expect kind expected tr = unexpected expected tr := by
  show (if tr.stream.current.kind == kind then next else unexpected expected) tr = _
  rw [if_neg fun heq => h (beq_iff_eq.mp heq)]

theorem accept_of_mem (h : tr.stream.current.kind ∈ kinds) :
    accept kinds tr = some (.ok (some tr.stream.current), tr.pass) := by
  show (if kinds.contains tr.stream.current.kind
    then (next >>= fun t => pure (some t) : Counting _) else pure none) tr = _
  rw [if_pos (List.contains_iff_mem.mpr h)]
  rfl

theorem accept_of_notMem (h : tr.stream.current.kind ∉ kinds) :
    accept kinds tr = some (.ok none, tr) := by
  show (if kinds.contains tr.stream.current.kind
    then (next >>= fun t => pure (some t) : Counting _) else pure none) tr = _
  rw [if_neg fun hmem => h (List.contains_iff_mem.mp hmem)]
  rfl

end Counting

/-! ## Runs and parsers -/

/-- Where a run ends, and how it got there. -/
structure Landing (limit : Nat) (σ : Scope) (moves : Bool) {α : Type} (p : Nat → Counting α)
    (q : Parser α) (tr : Trail) (out : Except ParseError α) (tr' : Trail) : Prop where
  ends : ∃ enough, ∀ calls ≥ enough, p calls tr = some (out, tr')
  leads : tr.Leads limit tr'
  depth : σ.Admits tr.depth tr'.depth
  agrees : q tr.stream = out.map fun a => (a, tr'.stream)
  moves : ∀ a, out = .ok a → tr.stream.position + moves.toNat ≤ tr'.stream.position

/-- The run ends, beside the parser. -/
def Tracks (limit : Nat) (σ : Scope) (moves : Bool) {α : Type} (p : Nat → Counting α)
    (q : Parser α) (tr : Trail) : Prop :=
  ∃ out tr', Landing limit σ moves p q tr out tr'

namespace Tracks

variable {limit c : Nat} {σ : Scope} {moves first : Bool} {α β : Type} {tr : Trail}
  {p : Nat → Counting α} {q q' : Parser α} {f : Nat → α → Counting β} {g : α → Parser β}

/-- What counts is what happens at the current place. -/
theorem congr {p' : Nat → Counting α} (h : Tracks limit σ moves p q tr)
    (hp : ∀ calls, p' calls tr = p calls tr) (hq : q' tr.stream = q tr.stream) :
    Tracks limit σ moves p' q' tr := by
  obtain ⟨out, tr', h⟩ := h
  obtain ⟨enough, hends⟩ := h.ends
  have hends' : ∀ calls ≥ enough, p' calls tr = some (out, tr') :=
    fun calls hcalls => (hp calls).trans (hends calls hcalls)
  exact ⟨out, tr', { h with ends := ⟨enough, hends'⟩, agrees := hq.trans h.agrees }⟩

/-- With one more call for the routine itself. -/
theorem of_succ {p' : Nat → Counting α} (h : Tracks limit σ moves p q tr)
    (hp : ∀ calls, p' (calls + 1) = p calls) : Tracks limit σ moves p' q tr := by
  obtain ⟨out, tr', h⟩ := h
  obtain ⟨enough, hends⟩ := h.ends
  refine ⟨out, tr', { h with ends := ⟨enough + 1, fun calls hcalls => ?_⟩ }⟩
  obtain ⟨n, rfl⟩ : ∃ n, calls = n + 1 := ⟨calls - 1, by omega⟩
  rw [hp]
  exact hends n (by omega)

theorem still (h : Tracks limit σ moves p q tr) : Tracks limit σ false p q tr := by
  obtain ⟨out, tr', h⟩ := h
  exact ⟨out, tr', { h with moves := fun _ _ => h.leads.position_le }⟩

theorem done (a : α) : Tracks limit σ false (fun _ => pure a) (pure a) tr :=
  ⟨.ok a, tr, ⟨0, fun _ _ => rfl⟩, .refl, σ.admits_self _, rfl, fun _ _ => Nat.le_refl _⟩

/-- What ends in an error at once. -/
theorem error {e : ParseError} (hp : ∀ calls, p calls tr = some (.error e, tr))
    (hq : q tr.stream = .error e) : Tracks limit σ moves p q tr :=
  ⟨.error e, tr, ⟨0, fun calls _ => hp calls⟩, .refl, σ.admits_self _, hq, nofun⟩

theorem fail (e : ParseError) :
    Tracks limit σ moves (fun _ => (Counting.fail e : Counting α)) (Parser.fail e) tr :=
  error (fun _ => rfl) rfl

theorem unexpected (expected : String) :
    Tracks limit σ moves (fun _ => (Counting.unexpected expected : Counting α))
      (Parser.unexpected expected) tr :=
  error (fun _ => rfl) rfl

/-- One after the other; together they move as far as their parts. -/
theorem andThen {later : Bool} (ht : tr.At c) (hp : Tracks limit .kept first p q tr)
    (hf : ∀ a tr', tr'.At c → tr'.left + first.toNat ≤ tr.left →
      Tracks limit σ later (fun calls => f calls a) (g a) tr')
    (hmoves : moves.toNat ≤ first.toNat + later.toNat) :
    Tracks limit σ moves (fun calls => p calls >>= f calls) (q >>= g) tr := by
  obtain ⟨out, tr₁, h₁⟩ := hp
  obtain ⟨enough, hends⟩ := h₁.ends
  have hdepth : tr₁.depth = tr.depth := h₁.depth
  cases out with
  | error e =>
      have hq : q tr.stream = .error e := h₁.agrees
      refine ⟨.error e, tr₁, ⟨enough, fun calls hcalls => ?_⟩, h₁.leads,
        hdepth ▸ σ.admits_self _, ?_, nofun⟩
      · simp only [bind, Counting.andThen, hends calls hcalls]
      · simp only [bind, Parser.andThen, hq]
        rfl
  | ok a =>
      have hq : q tr.stream = .ok (a, tr₁.stream) := h₁.agrees
      have hfirst := h₁.moves a rfl
      have hlength := h₁.leads.length_eq
      obtain ⟨out, tr₂, h₂⟩ := hf a tr₁ ⟨hdepth.trans ht.depth, h₁.leads.ends ht.ends⟩ (by
        simp only [TokenStream.length, TokenStream.position, Trail.left] at *
        omega)
      obtain ⟨enough', hends'⟩ := h₂.ends
      -- both parts have their calls
      refine ⟨out, tr₂, ⟨max enough enough', fun calls hcalls => ?_⟩, h₁.leads.trans h₂.leads,
        hdepth ▸ h₂.depth, ?_, fun b hb => ?_⟩
      · have hcalls₁ := hends calls (Nat.le_trans (Nat.le_max_left _ _) hcalls)
        simp only [bind, Counting.andThen, hcalls₁]
        exact hends' calls (Nat.le_trans (Nat.le_max_right _ _) hcalls)
      · simp only [bind, Parser.andThen, hq]
        exact h₂.agrees
      · have hlater := h₂.moves b hb
        omega

/-- The first part moves. -/
theorem moving (ht : tr.At c) (hp : Tracks limit .kept true p q tr)
    (hf : ∀ a tr', tr'.At c → tr'.left < tr.left →
      Tracks limit σ false (fun calls => f calls a) (g a) tr') :
    Tracks limit σ moves (fun calls => p calls >>= f calls) (q >>= g) tr :=
  andThen ht hp hf (Bool.toNat_le moves)

/-- What comes behind the first part moves. -/
theorem later (ht : tr.At c) (hp : Tracks limit .kept first p q tr)
    (hf : ∀ a tr', tr'.At c → tr'.left ≤ tr.left →
      Tracks limit σ moves (fun calls => f calls a) (g a) tr') :
    Tracks limit σ moves (fun calls => p calls >>= f calls) (q >>= g) tr :=
  andThen ht hp (fun a tr' ht' hleft => hf a tr' ht' (by omega)) (Nat.le_add_left _ _)

/-- What is made of a result. -/
theorem map {k : α → β} (ht : tr.At c) (hp : Tracks limit .kept moves p q tr) :
    Tracks limit σ moves
      (fun calls => do
        let a ← p calls
        pure (k a))
      (do
        let a ← q
        pure (k a)) tr :=
  andThen ht hp (fun a _ _ _ => done (k a)) (Nat.le_add_right _ _)

theorem ite {P : Prop} [Decidable P] {p' : Nat → Counting α}
    (h : P → Tracks limit σ moves p q tr) (h' : ¬ P → Tracks limit σ moves p' q' tr) :
    Tracks limit σ moves (fun calls => if P then p calls else p' calls) (if P then q else q')
      tr := by
  by_cases hP : P
  · simp only [if_pos hP]
    exact h hP
  · simp only [if_neg hP]
    exact h' hP

/-! ### Tokens -/

/-- What happens behind the current token. -/
theorem of_pass {p' : Nat → Counting α} (ht : tr.At c) (h : Tracks limit σ false p q tr.pass)
    (hkind : moves = true → tr.stream.current.kind ≠ .eof)
    (hp : ∀ calls, p' calls tr = p calls tr.pass) (hq : q' tr.stream = q tr.pass.stream) :
    Tracks limit σ moves p' q' tr := by
  obtain ⟨out, tr', h⟩ := h
  obtain ⟨enough, hends⟩ := h.ends
  have hends' : ∀ calls ≥ enough, p' calls tr = some (out, tr') :=
    fun calls hcalls => (hp calls).trans (hends calls hcalls)
  refine ⟨out, tr', ⟨enough, hends'⟩, (Trail.leads_pass limit tr).trans h.leads, h.depth,
    hq.trans h.agrees, fun a _ => ?_⟩
  have hbehind : tr.stream.advance.position ≤ tr'.stream.position := h.leads.position_le
  cases moves with
  | false => exact Nat.le_trans tr.stream.position_le_advance hbehind
  | true => exact (ht.ends.position_advance (hkind rfl)) ▸ hbehind

section Tokens

variable {f : Nat → Token → Counting β} {g : Token → Parser β}

theorem peek (h : Tracks limit σ moves (fun calls => f calls tr.stream.current)
    (g tr.stream.current) tr) :
    Tracks limit σ moves (fun calls => Counting.peek >>= f calls) (Parser.peek >>= g) tr :=
  h.congr (fun _ => rfl) rfl

/-- The current token is passed, unless it is the end. -/
theorem next (ht : tr.At c) (hkind : moves = true → tr.stream.current.kind ≠ .eof)
    (h : Tracks limit σ false (fun calls => f calls tr.stream.current)
      (g tr.stream.current) tr.pass) :
    Tracks limit σ moves (fun calls => Counting.next >>= f calls) (Parser.next >>= g) tr :=
  of_pass ht h hkind (fun _ => rfl) rfl

theorem expect {kind : TokenKind} (hkind : kind ≠ .eof) (expected : String) (ht : tr.At c)
    (h : tr.stream.current.kind = kind →
      Tracks limit σ false (fun calls => f calls tr.stream.current)
        (g tr.stream.current) tr.pass) :
    Tracks limit σ moves (fun calls => Counting.expect kind expected >>= f calls)
      (Parser.expect kind expected >>= g) tr := by
  by_cases hcurrent : tr.stream.current.kind = kind
  · refine of_pass ht (h hcurrent) (fun _ => hcurrent ▸ hkind) (fun calls => ?_) ?_
    · simp only [bind, Counting.andThen, Counting.expect_of_kind hcurrent, Counting.next]
    · simp only [bind, Parser.andThen, Parser.expect_of_kind hcurrent, Parser.next]
      rfl
  · refine error (e := tr.stream.unexpected expected) (fun calls => ?_) ?_
    · simp only [bind, Counting.andThen, Counting.expect_of_ne hcurrent, Counting.unexpected]
    · simp only [bind, Parser.andThen, Parser.expect_of_ne hcurrent, Parser.unexpected]

end Tokens

section Optional

variable {kinds : List TokenKind} {f : Nat → Option Token → Counting β}
  {g : Option Token → Parser β}

/-- In two ways, with a token of the kinds or without. -/
theorem accept (hkinds : .eof ∉ kinds) (ht : tr.At c)
    (hsome : Tracks limit σ false (fun calls => f calls (some tr.stream.current))
      (g (some tr.stream.current)) tr.pass)
    (hnone : Tracks limit σ moves (fun calls => f calls none) (g none) tr) :
    Tracks limit σ moves (fun calls => Counting.accept kinds >>= f calls)
      (Parser.accept kinds >>= g) tr := by
  by_cases hmem : tr.stream.current.kind ∈ kinds
  · have hkind : tr.stream.current.kind ≠ .eof := by
      intro heof
      exact hkinds (heof ▸ hmem)
    refine of_pass ht hsome (fun _ => hkind) (fun calls => ?_) (Parser.accept_of_mem hmem g)
    simp only [bind, Counting.andThen, Counting.accept_of_mem hmem]
  · refine hnone.congr (fun calls => ?_) (Parser.accept_of_notMem hmem g)
    simp only [bind, Counting.andThen, Counting.accept_of_notMem hmem]

/-- In the same way with a token and without. -/
theorem optional (hkinds : .eof ∉ kinds) (ht : tr.At c)
    (h : ∀ o tr', tr'.At c → tr'.left ≤ tr.left →
      Tracks limit σ moves (fun calls => f calls o) (g o) tr') :
    Tracks limit σ moves (fun calls => Counting.accept kinds >>= f calls)
      (Parser.accept kinds >>= g) tr :=
  accept hkinds ht (h _ tr.pass ht.pass (tr.left_pass_le)).still (h none tr ht (Nat.le_refl _))

end Optional

/-- An item of a list and, behind a comma, more of them. -/
theorem moreItems {x : α} {items : Nat → Counting (List α)} {more : Parser (List α)}
    (ht : tr.At c)
    (hmore : ∀ tr', tr'.At c → tr'.left ≤ tr.left → Tracks limit .kept false items more tr') :
    Tracks limit .kept false
      (fun calls => do
        match ← Counting.accept [.comma] with
        | none => pure [x]
        | some _ =>
          let rest ← items calls
          pure (x :: rest))
      (Grammar.moreItems x more) tr := by
  refine accept (by decide) ht ?_ (done [x])
  exact map ht.pass (hmore tr.pass ht.pass tr.left_pass_le)

/-- Items up to the token that closes them. -/
theorem closing {kind : TokenKind} {expected : String} {k : α → β} (hkind : kind ≠ .eof)
    (ht : tr.At c) (hitems : Tracks limit .kept first p q tr) :
    Tracks limit σ moves
      (fun calls => do
        let items ← p calls
        let _ ← Counting.expect kind expected
        pure (k items))
      (do
        let items ← q
        let _ ← Parser.expect kind expected
        pure (k items)) tr :=
  later ht hitems fun items _ ht' _ => expect hkind expected ht' fun _ => done (k items)

/-! ### The counter -/

section Counter

/-- One more level, which is not taken back here. -/
theorem descend (ht : tr.At c) (hlimit : c < limit)
    (h : Tracks limit .raised moves p q (tr.count (c + 1))) :
    Tracks limit .raised moves (fun calls => Counting.descend limit >>= fun _ => p calls) q
      tr := by
  obtain ⟨out, tr', h⟩ := h
  obtain ⟨enough, hends⟩ := h.ends
  obtain rfl := ht.depth
  refine ⟨out, tr', ⟨enough, fun calls hcalls => ?_⟩,
    (Trail.Leads.step .refl (.descend hlimit)).trans h.leads, Nat.le_of_succ_le h.depth,
    h.agrees, h.moves⟩
  simp only [bind, Counting.andThen, Counting.descend, if_pos hlimit]
  exact hends calls hcalls

theorem tooDeep (ht : tr.At c) (hlimit : ¬ c < limit) :
    Tracks limit σ moves (fun calls => Counting.descend limit >>= fun _ => p calls)
      (Grammar.tooDeep limit) tr := by
  refine error (fun calls => ?_) rfl
  obtain rfl := ht.depth
  simp only [bind, Counting.andThen, Counting.descend, if_neg hlimit]

/-- One more level, until the end. -/
theorem nested (ht : tr.At c) (hlimit : c < limit)
    (h : Tracks limit .kept moves p q (tr.count (c + 1))) :
    Tracks limit .kept moves (fun calls => Counting.nested limit (p calls)) q tr := by
  obtain ⟨out, tr', h⟩ := h
  obtain ⟨enough, hends⟩ := h.ends
  obtain rfl := ht.depth
  have hdepth : tr'.depth = tr.depth + 1 := h.depth
  refine ⟨out, tr'.count (tr'.depth - 1), ⟨enough, fun calls hcalls => ?_⟩,
    .step ((Trail.Leads.step .refl (.descend hlimit)).trans h.leads) (.restore (Nat.sub_le _ _)),
    ?_, h.agrees, h.moves⟩
  · simp only [Counting.nested, bind, Counting.andThen, Counting.descend, if_pos hlimit,
      Counting.ascending, hends calls hcalls]
    rfl
  · show tr'.depth - 1 = tr.depth
    omega

/-- The counter goes back, from wherever it has come to. -/
theorem leftNested (h : Tracks limit .raised moves p q tr) :
    Tracks limit .kept moves (fun calls => Counting.leftNested (p calls)) q tr := by
  obtain ⟨out, tr', h⟩ := h
  obtain ⟨enough, hends⟩ := h.ends
  refine ⟨out, tr'.count tr.depth, ⟨enough, fun calls hcalls => ?_⟩,
    .step h.leads (.restore h.depth), rfl, h.agrees, h.moves⟩
  simp only [Counting.leftNested, hends calls hcalls]
  rfl

end Counter

end Tracks

end GuardedExpr
