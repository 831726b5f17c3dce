/-
# Building — what the parser makes of lexed tokens

`Builds` says that a parser, where it gives a result, gives one of some kind in front
of lexed tokens.  It is kept by sequencing, so the rules of the grammar are gone
through one by one.  A rule that goes on with an expression keeps what the expression
is led by; this is why a hole of a string, which starts with a variable, holds an
expression whose leftmost operand is one.

So what is parsed from a source is legible (`legible_of_parse`).
-/
import Mathlib.Data.List.Chain
import GuardedExpr.Proofs.Legible
import GuardedExpr.Proofs.ParserResult

namespace GuardedExpr

open Text Lexeme

/-! ## Parsers in front of lexed tokens -/

namespace Parser

variable {α β : Type}

/-- In the frames `fs` the parser gives a result of which `Q` holds, if any, and goes on to the
frames `fs'`. The next token is `t`. -/
def BuildsAt (t : Token) (fs fs' : List Frame) (p : Parser α) (Q : α → Prop) : Prop :=
  ∀ s a s', s.current = t → Lexed fs s.remaining → p s = .ok (a, s') →
    Lexed fs' s'.remaining ∧ Q a

/-- The same, whatever the next token is. -/
def Builds (fs fs' : List Frame) (p : Parser α) (Q : α → Prop) : Prop :=
  ∀ t, BuildsAt t fs fs' p Q

variable {t : Token} {fs fs' fs₁ : List Frame} {p : Parser α} {P : α → Prop} {Q : β → Prop}

theorem buildsAt_pure {a : α} (h : P a) : BuildsAt t fs fs (pure a : Parser α) P := by
  intro s b s' ht hs hr
  cases hr
  exact ⟨hs, h⟩

theorem buildsAt_fail {e : ParseError} : BuildsAt t fs fs' (fail e : Parser α) P := by
  intro s a s' ht hs hr
  cases hr

theorem buildsAt_unexpected {expected : String} :
    BuildsAt t fs fs' (unexpected expected : Parser α) P := by
  intro s a s' ht hs hr
  cases hr

theorem buildsAt_bind {f : α → Parser β} (hp : BuildsAt t fs fs₁ p P)
    (hf : ∀ a, P a → Builds fs₁ fs' (f a) Q) : BuildsAt t fs fs' (p >>= f) Q := by
  intro s b s' ht hs hr
  simp only [bind, andThen] at hr
  split at hr
  · cases hr
  · next a s₁ hp' =>
      obtain ⟨hs₁, ha⟩ := hp s a s₁ ht hs hp'
      exact hf a ha s₁.current s₁ b s' rfl hs₁ hr

theorem buildsAt_peek {f : Token → Parser β} (hf : BuildsAt t fs fs' (f t) Q) :
    BuildsAt t fs fs' (peek >>= f) Q := by
  rintro s b s' rfl hs hr
  exact hf s b s' rfl hs hr

/-- In front of lexed tokens the cursor moves over the current one. -/
theorem remaining_advance_of_lexed {s : TokenStream} (hcode : fs.head? ≠ some .text)
    (hs : Lexed fs s.remaining) (ht : s.current.kind ≠ .eof) :
    s.remaining = s.current :: s.advance.remaining ∧
      Lexed (s.current.kind.framesAfter fs) s.advance.remaining := by
  have hbehind : Lexed (s.current.kind.framesAfter fs) s.ahead := hs.behind hcode ht
  obtain ⟨u, us, hahead⟩ := List.exists_cons_of_ne_nil hbehind.ne_nil
  have hremaining : s.remaining = s.current :: u :: us := by
    rw [TokenStream.remaining, hahead]
  rw [s.remaining_advance hremaining ht, ← hahead]
  exact ⟨rfl, hbehind⟩

section Code

variable (hcode : fs.head? ≠ some .text)

include hcode

theorem buildsAt_token {f : Token → Parser β} (ht : t.kind ≠ .eof)
    (hf : (t.kind.isPlain = true → t.InCode) → Builds (t.kind.framesAfter fs) fs' (f t) Q) :
    BuildsAt t fs fs' (next >>= f) Q := by
  rintro s b s' rfl hs hr
  obtain ⟨-, hbehind⟩ := remaining_advance_of_lexed hcode hs ht
  exact hf (hs.inCode hcode) _ s.advance b s' rfl hbehind hr

/-- A token of code. -/
theorem buildsAt_next {f : Token → Parser β} (ht : t.kind.isPlain = true)
    (hf : t.InCode → Builds fs fs' (f t) Q) : BuildsAt t fs fs' (next >>= f) Q := by
  have heof : t.kind ≠ .eof := by
    intro heof
    rw [heof] at ht
    cases ht
  refine buildsAt_token hcode heof fun hin => ?_
  rw [TokenKind.framesAfter_of_isPlain ht]
  exact hf (hin ht)

theorem buildsAt_accept {kinds : List TokenKind} {f : Option Token → Parser β}
    (hkinds : ∀ k ∈ kinds, k.isPlain = true) (hnone : BuildsAt t fs fs' (f none) Q)
    (hsome : t.kind ∈ kinds → t.InCode → Builds fs fs' (f (some t)) Q) :
    BuildsAt t fs fs' (accept kinds >>= f) Q := by
  rintro s b s' rfl hs hr
  by_cases hmem : s.current.kind ∈ kinds
  · rw [accept_of_mem hmem] at hr
    exact buildsAt_next hcode (hkinds _ hmem) (hsome hmem) s b s' rfl hs hr
  · rw [accept_of_notMem hmem] at hr
    exact hnone s b s' rfl hs hr

theorem builds_expect_token {kind : TokenKind} {expected : String} {f : Token → Parser β}
    (hkind : kind ≠ .eof)
    (hf : ∀ t, t.kind = kind → (t.kind.isPlain = true → t.InCode) →
      Builds (kind.framesAfter fs) fs' (f t) Q) :
    Builds fs fs' (expect kind expected >>= f) Q := by
  rintro t s b s' rfl hs hr
  simp only [bind, andThen, expect, TokenStream.expect] at hr
  by_cases hcheck : s.check kind = true
  · have hcurrent : s.current.kind = kind := beq_iff_eq.mp hcheck
    rw [if_pos hcheck] at hr
    have hrun : (next >>= f) s = .ok (b, s') := hr
    refine buildsAt_token hcode (hcurrent ▸ hkind) (fun hin => ?_) s b s' rfl hs hrun
    rw [hcurrent]
    exact hf s.current hcurrent hin
  · rw [if_neg hcheck] at hr
    cases hr

theorem builds_expect {kind : TokenKind} {expected : String} {f : Token → Parser β}
    (hkind : kind.isPlain = true) (hf : ∀ t, t.kind = kind → t.InCode → Builds fs fs' (f t) Q) :
    Builds fs fs' (expect kind expected >>= f) Q := by
  have heof : kind ≠ .eof := by
    rintro rfl
    cases hkind
  refine builds_expect_token hcode heof fun t ht hin => ?_
  rw [TokenKind.framesAfter_of_isPlain hkind]
  exact hf t ht (hin (ht ▸ hkind))

end Code

end Parser

/-! ## The grammar -/

namespace Grammar

open GuardedExpr.Parser GuardedExpr.Expr

/-- The rules are those of binary operators and the conditional. -/
def AreOperators (rs : List Rule) : Prop :=
  ∀ r ∈ rs, r = .ternary ∨ ∀ k ∈ r.kinds, 0 < k.tightness

theorem isPlain_of_tightness {k : TokenKind} (h : 0 < k.tightness) : k.isPlain = true := by
  cases k <;> first | rfl | cases h

/-- In code the parsers one level further in build legible expressions. Where they go on with an
expression, it stays led by a variable. -/
structure Inner.BuildsLegible (inner : Inner) : Prop where
  level : ∀ {fs : List Frame}, fs.head? ≠ some .text → ∀ {rs}, AreOperators rs →
    ∀ t, BuildsAt t fs fs (inner.level rs) (Good (t.kind = .variable))
  assignment : ∀ {fs : List Frame}, fs.head? ≠ some .text →
    ∀ t, BuildsAt t fs fs inner.assignment (Good (t.kind = .variable))
  chain : ∀ {fs : List Frame}, fs.head? ≠ some .text → ∀ {lead ops tighter e op},
    (∀ k ∈ ops, 0 < k.tightness) → AreOperators tighter → Good lead e → op.InCode →
    op.kind ∈ ops → Builds fs fs (inner.chain ops tighter e op) (Good lead)
  classOperand : ∀ {fs : List Frame}, fs.head? ≠ some .text → ∀ {lead e op}, Good lead e →
    op.InCode → op.kind = .instanceOf → Builds fs fs (inner.classOperand e op) (Good lead)
  suffix : ∀ {fs : List Frame}, fs.head? ≠ some .text → ∀ {lead e t}, Good lead e →
    t.kind ∈ suffixStarts → BuildsAt t fs fs (inner.suffix e) (Good lead)

theorem builds_moreItems {α : Type} {x : α} {more : Parser (List α)} {Q : α → Prop}
    {fs : List Frame} (hcode : fs.head? ≠ some .text) (hx : Q x)
    (hmore : Builds fs fs more fun items => ∀ y ∈ items, Q y) :
    Builds fs fs (moreItems x more) fun items => ∀ y ∈ items, Q y := by
  intro t
  refine buildsAt_accept hcode (by decide) (buildsAt_pure ?_) fun _ _ u => ?_
  · simpa using hx
  · refine buildsAt_bind (hmore u) fun rest hrest v => buildsAt_pure ?_
    simpa using ⟨hx, hrest⟩

theorem exhausted_legible (limit : Nat) : (exhausted limit).BuildsLegible := by
  have htooDeep : ∀ {α : Type} {fs : List Frame} {Q : α → Prop} (t : Token),
      BuildsAt t fs fs (tooDeep limit : Parser α) Q := by
    intro α fs Q t s a s' _ _ hr
    cases hr
  constructor <;> intros
  · exact htooDeep _
  · exact htooDeep _
  · exact fun t => htooDeep t
  · exact fun t => htooDeep t
  · exact htooDeep _

section Rules

variable {inner : Inner} (h : inner.BuildsLegible) {fs : List Frame}
  (hcode : fs.head? ≠ some .text)

include h hcode

/-! ### Lists -/

theorem argumentItems_legible (most : Nat) :
    Builds fs fs (argumentItems inner most) fun args => ∀ a ∈ args, a.value.Legible := by
  induction most with
  | zero =>
      intro t
      exact buildsAt_pure (by simp)
  | succ most ih =>
      intro t
      refine buildsAt_peek ?_
      split
      · exact buildsAt_pure (by simp)
      · have hitem : ∀ mark : Option Token, Builds fs fs (do
            let value ← expression inner
            moreItems (Argument.mk mark.isSome value) (argumentItems inner most))
            fun args => ∀ a ∈ args, a.value.Legible :=
          fun mark u => buildsAt_bind (h.assignment hcode u) fun value hvalue =>
            builds_moreItems hcode hvalue.legible ih
        exact buildsAt_accept hcode (by decide) (hitem none t) fun _ _ => hitem _

theorem arguments_legible :
    Builds fs fs (arguments inner) fun args => ∀ a ∈ args, a.value.Legible := by
  intro t s args s' ht hs hr
  refine buildsAt_bind (Q := fun args => ∀ a ∈ args, a.value.Legible)
    (argumentItems_legible h hcode _ t) (fun args hargs => ?_) s args s' ht hs hr
  exact builds_expect hcode (by decide) fun _ _ _ u => buildsAt_pure hargs

theorem elementItems_legible (close : TokenKind) (most : Nat) :
    Builds fs fs (elementItems inner close most)
      fun elements => ∀ x ∈ elements, ∀ e ∈ x.exprs, e.Legible := by
  induction most with
  | zero =>
      intro t
      exact buildsAt_pure (by simp)
  | succ most ih =>
      intro t
      refine buildsAt_peek ?_
      split
      · exact buildsAt_pure (by simp)
      · refine buildsAt_bind (h.assignment hcode t) fun first hfirst u => ?_
        refine buildsAt_accept hcode (by decide) ?_ fun _ _ v => ?_
        · refine builds_moreItems (x := .item first) hcode ?_ ih u
          simpa [Element.exprs] using hfirst.legible
        · refine buildsAt_bind (h.assignment hcode v) fun value hvalue => ?_
          refine builds_moreItems (x := .pair first value) hcode ?_ ih
          simpa [Element.exprs] using ⟨hfirst.legible, hvalue.legible⟩

theorem arrayElements_legible {close : TokenKind} (hclose : close.isPlain = true)
    (expected : String) : Builds fs fs (arrayElements inner close expected)
      fun elements => ∀ x ∈ elements, ∀ e ∈ x.exprs, e.Legible := by
  intro t s elements s' ht hs hr
  refine buildsAt_bind (Q := fun elements => ∀ x ∈ elements, ∀ e ∈ x.exprs, e.Legible)
    (elementItems_legible h hcode close _ t) (fun elements helements => ?_) s elements s' ht hs hr
  exact builds_expect hcode hclose fun _ _ _ u => buildsAt_pure helements

/-! ### Strings with embedded expressions -/

/-- The tree of a single token between the brackets behind an embedded variable. -/
def offsetTree (o : Token) : Expr := if o.kind = .variable then .variable o else .literal o

/-- The tree of a variable that is embedded without braces, by the tokens behind the variable. -/
def embeddedTree (v : Token) : List Token → Expr
  | [arrow, name] => .property (.variable v) arrow false (.literal name)
  | [bracket, o, _] => .access (.variable v) bracket (offsetTree o)
  | [bracket, minus, ds, _] => .access (.variable v) bracket (.unary minus (.literal ds))
  | _ => .variable v

omit h hcode in
theorem isEmbeddedOffset_offsetTree {o : Token} (ho : o.IsOffset) :
    (offsetTree o).IsEmbeddedOffset := by
  unfold offsetTree
  cases ho with
  | digits hdigits =>
      rw [if_neg (by simp [hdigits.1])]
      exact .digits hdigits
  | sigil hvar =>
      rw [if_pos hvar.1]
      exact .sigil hvar
  | word hkind hname =>
      rw [if_neg (by simp [hkind])]
      exact .word hkind hname

omit h hcode in
theorem isEmbedded_embeddedTree {v : Token} {us : List Token} (hus : Embedded (v :: us)) :
    (embeddedTree v us).IsEmbedded := by
  cases hus with
  | alone hv => exact .alone hv
  | offset hv hbracket htext ho =>
      exact .access hv (Prod.ext hbracket htext) (isEmbeddedOffset_offsetTree ho)
  | negative hv hbracket htext hminus hsign hdigits =>
      exact .access hv (Prod.ext hbracket htext) (.negative (Prod.ext hminus hsign) hdigits)
  | property hv harrow htext hkind hname =>
      exact .property hv (Prod.ext harrow htext) hkind hname

omit h hcode in
theorem takes_embeddedOffset {o : Token} {rest : List Token} (ho : o.IsOffset) (hrest : rest ≠ []) :
    Takes embeddedOffset [o] rest (pure (offsetTree o)) := by
  have hnext : o.kind ≠ .eof → Takes next [o] rest (pure o) := fun heof => takes_next heof hrest
  unfold offsetTree
  cases ho with
  | digits hdigits =>
      refine (hnext (by simp [hdigits.1])).last ?_
      simp only [hdigits.1]
      exact takes_nil _ _
  | sigil hvar =>
      refine (hnext (by simp [hvar.1])).last ?_
      simp only [hvar.1]
      exact takes_nil _ _
  | word hkind hname =>
      refine (hnext (by simp [hkind])).last ?_
      simp only [hkind]
      exact takes_nil _ _

omit h hcode in
/-- What the parser takes of a variable that is embedded without braces. -/
theorem takes_embeddedVariable {v : Token} {us rest : List Token} (hus : Embedded (v :: us))
    (hrest : Stops [.lbracket, .arrow] rest) :
    Takes (embeddedVariable v) us rest (pure (embeddedTree v us)) := by
  have hne := hrest.ne_nil
  cases hus with
  | alone hv =>
      refine (takes_accept_none (hrest.mono (by simp))).here ?_
      exact (takes_accept_none (hrest.mono (by simp))).bind _
  | @offset _ bracket o close hv hbracket htext ho hclose =>
      have hoffset : Takes embeddedOffset [o] ([close] ++ rest) (pure (offsetTree o)) :=
        takes_embeddedOffset ho (List.cons_ne_nil _ _)
      refine (takes_accept (by simp [hbracket]) (by simp [hbracket]) (by simp)).then ?_
      refine hoffset.then ?_
      exact (takes_expect hclose (by simp [hclose]) hne).bind _
  | @negative _ bracket minus ds close hv hbracket htext hminus hsign hdigits hclose =>
      have hoffset : Takes embeddedOffset [minus, ds] ([close] ++ rest)
          (pure (.unary minus (.literal ds))) := by
        refine (takes_next (by simp [hminus]) (by simp)).then ?_
        simp only [hminus]
        exact (takes_expect hdigits.1 (by simp [hdigits.1]) (by simp)).bind _
      refine (takes_accept (by simp [hbracket]) (by simp [hbracket]) (by simp)).then ?_
      refine hoffset.then ?_
      exact (takes_expect hclose (by simp [hclose]) hne).bind _
  | @property _ arrow name hv harrow htext hkind hname =>
      refine (takes_accept_none (by simp [Stops, harrow])).here ?_
      refine (takes_accept (by simp [harrow]) (by simp [harrow]) (by simp)).then ?_
      exact (takes_expect hkind (by simp [hkind]) hne).bind _

omit h hcode in
/-- What may stand in a string behind a variable. -/
theorem stops_of_text {ts : List Token} (hts : Lexed (.text :: fs) ts) :
    Stops [.lbracket, .arrow] ts := by
  cases hts with
  | eof htext | code htext | brace htext | opening htext => exact absurd rfl htext
  | closing hquote => simp [Stops, hquote.1]
  | run hrun => simp [Stops, hrun.1]
  | hole hbrace => simp [Stops, hbrace]
  | embedded hus => simp [Stops, hus.variable]

/-- The parts that are read in front of `ts`, at most `most` of them. -/
structure PartsOf (most : Nat) (ts : List Token) (parts : List Expr) : Prop where
  runs : ∀ part ∈ parts, ∀ t ∈ part.fragment?, t.IsRun
  led : ∀ part ∈ parts, part.IsHole → part.isLed = true
  legible : ∀ part ∈ parts, part.IsHole → ¬ part.IsEmbedded → part.Legible
  apart : parts.IsChain fun a b => a.IsHole ∨ b.IsHole
  /-- The first part is a run only where a run comes next. -/
  head : ∀ part ∈ parts.head?, part.IsHole ∨ ∃ t ∈ ts.head?, t.kind = .fragment
  hole : HoleAhead ts → ts.length ≤ most → ∃ part ∈ parts, part.IsHole

omit h hcode in
theorem PartsOf.nil {most : Nat} {ts : List Token} (hahead : HoleAhead ts → most < ts.length) :
    PartsOf most ts [] :=
  ⟨by simp, by simp, by simp, .nil, by simp, fun hts hle => absurd (hahead hts) (Nat.not_lt.mpr hle)⟩

omit h hcode in
theorem PartsOf.cons_hole {most : Nat} {ts us : List Token} {part : Expr} {parts : List Expr}
    (hled : part.isLed = true) (hlegible : ¬ part.IsEmbedded → part.Legible)
    (hparts : PartsOf most us parts) : PartsOf (most + 1) ts (part :: parts) := by
  have hhole : part.IsHole := .of_isLed hled
  refine ⟨?_, ?_, ?_, ?_, ?_, fun _ _ => ⟨part, List.mem_cons_self, hhole⟩⟩
  · refine List.forall_mem_cons.mpr ⟨fun t ht => ?_, hparts.runs⟩
    rw [show part.fragment? = none from hhole] at ht
    cases ht
  · exact List.forall_mem_cons.mpr ⟨fun _ => hled, hparts.led⟩
  · exact List.forall_mem_cons.mpr ⟨fun _ => hlegible, hparts.legible⟩
  · exact List.isChain_cons.mpr ⟨fun _ _ => .inl hhole, hparts.apart⟩
  · rintro _ ⟨⟩
    exact .inl hhole

omit h hcode in
theorem PartsOf.cons_run {most : Nat} {us : List Token} {t : Token} {parts : List Expr}
    (ht : t.IsRun) (hus : ∀ u ∈ us.head?, u.kind ≠ .fragment) (hparts : PartsOf most us parts) :
    PartsOf (most + 1) (t :: us) (.literal t :: parts) := by
  have hfragment : (Expr.literal t).fragment? = some t := if_pos ht.1
  have hno : ¬ (Expr.literal t).IsHole := by
    intro hhole
    rw [IsHole, hfragment] at hhole
    cases hhole
  refine ⟨?_, ?_, ?_, ?_, ?_, ?_⟩
  · refine List.forall_mem_cons.mpr ⟨fun u hu => ?_, hparts.runs⟩
    rw [hfragment] at hu
    cases hu
    exact ht
  · exact List.forall_mem_cons.mpr ⟨fun hhole => absurd hhole hno, hparts.led⟩
  · exact List.forall_mem_cons.mpr ⟨fun hhole => absurd hhole hno, hparts.legible⟩
  · refine List.isChain_cons.mpr ⟨fun part hpart => .inr ?_, hparts.apart⟩
    refine (hparts.head part hpart).resolve_right ?_
    rintro ⟨u, hu, hkind⟩
    exact hus u hu hkind
  · rintro _ ⟨⟩
    exact .inr ⟨t, rfl, ht.1⟩
  · intro hahead hle
    have hahead : HoleAhead us := by
      cases hahead with
      | here hstart => rcases hstart with hkind | hkind <;> rw [ht.1] at hkind <;> cases hkind
      | behind _ hahead => exact hahead
    obtain ⟨part, hpart, hhole⟩ := hparts.hole hahead (Nat.le_of_succ_le_succ hle)
    exact ⟨part, List.mem_cons_of_mem _ hpart, hhole⟩

omit h hcode in
/-- At most `most` parts are read in front of any tokens between quotes. With one part more there is
a lemma for each way in which these tokens start. -/
def ReadsParts (inner : Inner) (fs : List Frame) (most : Nat) : Prop :=
  ∀ s parts s', Lexed (.text :: fs) s.remaining → partItems inner most s = .ok (parts, s') →
    Lexed (.text :: fs) s'.remaining ∧ PartsOf most s.remaining parts

section Parts

variable {most : Nat} {passed ts : List Token} {t : Token}

omit h hcode in
theorem takes_run_part (ht : t.IsRun) (hts : ts ≠ []) :
    Takes (partItems inner (most + 1)) [t] ts
      (partItems inner most >>= fun rest => pure (.literal t :: rest)) := by
  refine (takes_peek t ts).here ?_
  simp only [ht.1]
  exact (takes_next (by simp [ht.1]) hts).bind _

omit h hcode in
theorem takes_hole_part (ht : t.kind = .lbrace) (hts : ts ≠ []) :
    Takes (partItems inner (most + 1)) [t] ts
      (expression inner >>= fun part => expect .rbrace "'\x7d'" >>= fun _ =>
        partItems inner most >>= fun rest => pure (part :: rest)) := by
  refine (takes_peek t ts).here ?_
  simp only [ht]
  exact (takes_next (by simp [ht]) hts).bind _

omit h hcode in
theorem takes_embedded_part {us : List Token} (hus : Embedded (t :: us))
    (hts : Lexed (.text :: fs) ts) : Takes (partItems inner (most + 1)) (t :: us) ts
      (partItems inner most >>= fun rest => pure (embeddedTree t us :: rest)) := by
  have hv := hus.variable
  have htakes := takes_embeddedVariable hus (stops_of_text hts)
  refine (takes_peek t (us ++ ts)).here ?_
  simp only [hv]
  have hne : us ++ ts ≠ [] := by simp [hts.ne_nil]
  exact (takes_next (by simp [hv]) hne).then (htakes.bind _)

omit h hcode in
/-- At the closing quote there are no more parts. -/
theorem partItems_of_quote (ht : t.kind = .quote) :
    partItems inner (most + 1) ⟨passed, t, ts⟩ = .ok ([], ⟨passed, t, ts⟩) := by
  simp only [partItems, bind, andThen, peek, ht]
  rfl

omit h hcode in
/-- Behind a part the rest is read, and the part is put in front. -/
theorem ReadsParts.cons (ih : ReadsParts inner fs most) {part : Expr} {parts : List Expr}
    {s s' : TokenStream} (hs : Lexed (.text :: fs) s.remaining)
    (hr : (partItems inner most >>= fun rest => pure (part :: rest)) s = .ok (parts, s')) :
    ∃ rest, parts = part :: rest ∧ Lexed (.text :: fs) s'.remaining ∧
      PartsOf most s.remaining rest := by
  simp only [bind, andThen] at hr
  split at hr
  · cases hr
  · next rest s₁ hitems =>
      cases hr
      obtain ⟨hs', hparts⟩ := ih s rest _ hs hitems
      exact ⟨rest, rfl, hs', hparts⟩

omit h hcode in
theorem parts_of_quote (ht : t.kind = .quote) (hts : Lexed (.text :: fs) (t :: ts))
    {parts : List Expr} {s' : TokenStream}
    (hr : partItems inner (most + 1) ⟨passed, t, ts⟩ = .ok (parts, s')) :
    Lexed (.text :: fs) s'.remaining ∧ PartsOf (most + 1) (t :: ts) parts := by
  rw [partItems_of_quote ht] at hr
  cases hr
  refine ⟨hts, .nil fun hahead => ?_⟩
  cases hahead with
  | here hstart => rcases hstart with hkind | hkind <;> rw [ht] at hkind <;> cases hkind
  | behind hkind =>
      rw [ht] at hkind
      cases hkind

omit h hcode in
theorem parts_of_run (ih : ReadsParts inner fs most) (ht : t.IsRun)
    (hnext : ∀ u ∈ ts.head?, u.kind ≠ .fragment) (hts : Lexed (.text :: fs) ts)
    {parts : List Expr} {s' : TokenStream}
    (hr : partItems inner (most + 1) ⟨passed, t, ts⟩ = .ok (parts, s')) :
    Lexed (.text :: fs) s'.remaining ∧ PartsOf (most + 1) (t :: ts) parts := by
  obtain ⟨s₁, hs₁, heq⟩ := takes_run_part ht hts.ne_nil ⟨passed, t, ts⟩ rfl
  rw [heq] at hr
  rw [← hs₁] at hts
  obtain ⟨rest, rfl, hs', hparts⟩ := ih.cons hts hr
  rw [hs₁] at hparts
  exact ⟨hs', hparts.cons_run ht hnext⟩

omit hcode in
theorem parts_of_hole (ih : ReadsParts inner fs most) {v : Token} (ht : t.kind = .lbrace)
    (hv : v.kind = .variable) (hts : Lexed (.hole 0 :: .text :: fs) (v :: ts))
    {parts : List Expr} {s' : TokenStream}
    (hr : partItems inner (most + 1) ⟨passed, t, v :: ts⟩ = .ok (parts, s')) :
    Lexed (.text :: fs) s'.remaining ∧ PartsOf (most + 1) (t :: v :: ts) parts := by
  obtain ⟨s₁, hs₁, heq⟩ := takes_hole_part ht (List.cons_ne_nil v ts) ⟨passed, t, v :: ts⟩ rfl
  rw [heq] at hr
  rw [← hs₁] at hts
  have hhole : (Frame.hole 0 :: .text :: fs).head? ≠ some .text := by simp
  refine buildsAt_bind (h.assignment hhole v) (fun part hpart => ?_) s₁ parts s'
    (List.cons.inj hs₁).1 hts hr
  refine builds_expect_token hhole (by decide) fun _ _ _ u s₂ parts s' _ hs₂ hr => ?_
  obtain ⟨rest, rfl, hs', hparts⟩ := ih.cons hs₂ hr
  exact ⟨hs', hparts.cons_hole (hpart.led hv) fun _ => hpart.legible⟩

omit h hcode in
theorem parts_of_embedded (ih : ReadsParts inner fs most) {us : List Token}
    (hus : Embedded (t :: us)) (hts : Lexed (.text :: fs) ts) {parts : List Expr}
    {s' : TokenStream}
    (hr : partItems inner (most + 1) ⟨passed, t, us ++ ts⟩ = .ok (parts, s')) :
    Lexed (.text :: fs) s'.remaining ∧ PartsOf (most + 1) (t :: (us ++ ts)) parts := by
  have hpart := isEmbedded_embeddedTree hus
  obtain ⟨s₁, hs₁, heq⟩ := takes_embedded_part hus hts ⟨passed, t, us ++ ts⟩ rfl
  rw [heq] at hr
  rw [← hs₁] at hts
  obtain ⟨rest, rfl, hs', hparts⟩ := ih.cons hts hr
  exact ⟨hs', hparts.cons_hole hpart.isLed fun hnot => absurd hpart hnot⟩

end Parts

omit hcode in
theorem readsParts (most : Nat) : ReadsParts inner fs most := by
  induction most with
  | zero =>
      intro s parts s' hs hr
      cases hr
      exact ⟨hs, .nil fun _ => Nat.succ_pos _⟩
  | succ most ih =>
      rintro ⟨passed, t, ahead⟩ parts s' hs hr
      have hs : Lexed (.text :: fs) (t :: ahead) := hs
      have hlexed := hs
      cases hs with
      | eof htext | code htext | brace htext | opening htext => exact absurd rfl htext
      | closing hquote => exact parts_of_quote hquote.1 hlexed hr
      | run ht hnext hts => exact parts_of_run ih ht hnext hts hr
      | hole hbrace hv hts => exact parts_of_hole h ih hbrace hv hts hr
      | embedded hus hts => exact parts_of_embedded ih hus hts hr

omit hcode in
theorem interpolation_legible {opening : Token} (hopening : opening.IsQuote)
    {s s' : TokenStream} {e : Expr} (hahead : HoleAhead s.remaining)
    (hs : Lexed (.text :: fs) s.remaining) (hr : interpolation inner opening s = .ok (e, s')) :
    Lexed fs s'.remaining ∧ e.Legible := by
  simp only [interpolation, bind, andThen] at hr
  split at hr
  · cases hr
  · next parts s₁ hitems =>
      obtain ⟨hs₁, hparts⟩ := readsParts h _ s parts s₁ hs hitems
      simp only [expect, TokenStream.expect] at hr
      by_cases hquote : s₁.check .quote = true
      · rw [if_pos hquote] at hr
        cases hr
        have hkind : s₁.current.kind = .quote := beq_iff_eq.mp hquote
        have hlater : Lexed fs s₁.ahead := hs₁.behind_closing hkind
        obtain ⟨u, us, hus⟩ := List.exists_cons_of_ne_nil hlater.ne_nil
        have hremaining : s₁.remaining = s₁.current :: u :: us := by
          rw [TokenStream.remaining, hus]
        rw [s₁.remaining_advance hremaining (by simp [hkind]), ← hus]
        refine ⟨hlater, .interpolation hopening hparts.runs hparts.led hparts.legible hparts.apart ?_⟩
        exact hparts.hole hahead (Nat.le_refl _)
      · rw [if_neg hquote] at hr
        cases hr

/-! ### Operands -/

theorem primary_legible (t : Token) :
    BuildsAt t fs fs (primary inner) (Good (t.kind = .variable)) := by
  refine buildsAt_peek ?_
  split
  case h_1 | h_2 | h_3 | h_4 | h_5 =>
    next hkind =>
      refine buildsAt_next hcode (by rw [hkind]; rfl) fun hin u => buildsAt_pure ?_
      refine .of_false (.literal (by simp [hkind]) ?_) (by simp [hkind])
      exact hin.operand_or_string (by rw [hkind]; rfl)
  case h_6 =>
    next hkind =>
      refine buildsAt_next hcode (by rw [hkind]; rfl) fun hin u => buildsAt_pure ?_
      exact ⟨.variable ⟨hkind, hin.isOperand (by rw [hkind]; rfl)⟩, fun _ => rfl⟩
  case h_7 =>
    next hkind =>
      refine buildsAt_next hcode (by rw [hkind]; rfl) fun _ u => ?_
      refine buildsAt_bind (h.assignment hcode u) fun e he => ?_
      refine builds_expect hcode rfl fun _ _ _ v => buildsAt_pure ?_
      exact .of_false he.legible (by simp [hkind])
  case h_8 =>
    next hkind =>
      rintro s e s' rfl hs hr
      obtain ⟨hquote, hahead, hbehind⟩ := hs.behind_opening hcode hkind
      obtain ⟨hremaining, -⟩ := remaining_advance_of_lexed hcode hs (by simp [hkind])
      have hadvance : s.advance.remaining = s.ahead := (List.cons.inj hremaining).2.symm
      rw [← hadvance] at hahead hbehind
      obtain ⟨hs', he⟩ := interpolation_legible h hquote hahead hbehind hr
      exact ⟨hs', .of_false he (by simp [hkind])⟩
  case h_9 =>
    next hkind =>
      refine buildsAt_next hcode (by rw [hkind]; rfl) fun _ u => ?_
      refine buildsAt_bind (arrayElements_legible h hcode rfl _ u) fun elements helements v => ?_
      exact buildsAt_pure (.of_false (.array t helements) (by simp [hkind]))
  case h_10 =>
    next hkind =>
      refine buildsAt_next hcode (by rw [hkind]; rfl) fun _ => ?_
      refine builds_expect hcode rfl fun _ _ _ u => ?_
      refine buildsAt_bind (arrayElements_legible h hcode rfl _ u) fun elements helements v => ?_
      exact buildsAt_pure (.of_false (.array t helements) (by simp [hkind]))
  case h_11 =>
    next hkind =>
      refine buildsAt_next hcode (by rw [hkind]; rfl) fun hin u => ?_
      refine buildsAt_peek ?_
      split
      · refine buildsAt_pure (.of_false (.literal (by simp [hkind]) ?_) (by simp [hkind]))
        exact hin.operand_or_string (by rw [hkind]; rfl)
      · exact buildsAt_unexpected
  case h_12 => exact buildsAt_unexpected

omit h in
/-- A brace of its own in code is still code, and its partner leads back. -/
theorem framesAfter_lbrace : (TokenKind.lbrace.framesAfter fs).head? ≠ some .text ∧
    TokenKind.rbrace.framesAfter (TokenKind.lbrace.framesAfter fs) = fs := by
  cases fs with
  | nil => exact ⟨by simp [TokenKind.framesAfter], rfl⟩
  | cons f fs =>
      cases f with
      | text => exact absurd rfl hcode
      | hole braces => exact ⟨by simp [TokenKind.framesAfter], rfl⟩

theorem memberName_legible (op : Token) (isStatic : Bool) :
    Builds fs fs (memberName inner op isStatic) Legible := by
  intro t
  refine buildsAt_peek ?_
  split
  · next hword =>
      have hplain : t.kind.isPlain = true := by
        cases hk : t.kind <;> first | rfl | (rw [hk] at hword; cases hword)
      refine buildsAt_next hcode hplain fun hin u => buildsAt_pure (.literal ?_ ?_)
      · intro hvar
        rw [hvar] at hword
        cases hword
      · exact hin.operand_or_string (by rw [hword]; rfl)
  · split
    · next hvariable =>
        have hkind : t.kind = .variable := by simp_all
        refine buildsAt_next hcode (by rw [hkind]; rfl) fun hin u => buildsAt_pure ?_
        exact .variable ⟨hkind, hin.isOperand (by rw [hkind]; rfl)⟩
    · split
      · next hbrace =>
          have hkind : t.kind = .lbrace := by simp_all
          obtain ⟨hinside, hback⟩ := framesAfter_lbrace hcode
          refine buildsAt_token hcode (by simp [hkind]) fun _ u => ?_
          rw [hkind]
          refine buildsAt_bind (h.assignment hinside u) fun name hname => ?_
          refine builds_expect_token hinside (by decide) fun _ _ _ v => ?_
          rw [hback]
          exact buildsAt_pure hname.legible
      · exact buildsAt_unexpected

theorem member_legible {lead : Prop} {target : Expr} {op : Token} {isStatic : Bool}
    (htarget : Good lead target) (hop : op.word = memberWord isStatic) :
    Builds fs fs (member inner target op isStatic) (Good lead) := by
  intro t
  refine buildsAt_bind (memberName_legible h hcode op isStatic t) fun name hname u => ?_
  refine buildsAt_accept hcode (by decide) (buildsAt_pure ?_) fun _ _ v => ?_
  · exact ⟨.property hop htarget.legible hname, htarget.led⟩
  · refine buildsAt_bind (arguments_legible h hcode v) fun args hargs w => buildsAt_pure ?_
    exact ⟨.methodCall hop htarget.legible hname hargs, htarget.led⟩

theorem moreSuffixes_legible {lead : Prop} {e : Expr} (he : Good lead e) :
    Builds fs fs (moreSuffixes inner e) (Good lead) := by
  intro t
  refine buildsAt_peek ?_
  split
  · next hstart => exact h.suffix hcode he (List.contains_iff_mem.mp hstart)
  · exact buildsAt_pure he

theorem suffix_legible {lead : Prop} {e : Expr} {t : Token} (he : Good lead e)
    (ht : t.kind ∈ suffixStarts) : BuildsAt t fs fs (suffix inner e) (Good lead) := by
  simp only [suffixStarts, List.mem_cons, List.not_mem_nil, or_false] at ht
  rcases ht with hkind | hkind | hkind | hkind
  · refine buildsAt_next hcode (by rw [hkind]; rfl) fun hin u => ?_
    simp only [hkind]
    have hop : t.word = memberWord true := hin.word_eq hkind (by decide)
    exact buildsAt_bind (member_legible h hcode he hop u) fun _ => moreSuffixes_legible h hcode
  · refine buildsAt_next hcode (by rw [hkind]; rfl) fun hin u => ?_
    simp only [hkind]
    have hop : t.word = memberWord false := hin.word_eq hkind (by decide)
    exact buildsAt_bind (member_legible h hcode he hop u) fun _ => moreSuffixes_legible h hcode
  · refine buildsAt_next hcode (by rw [hkind]; rfl) fun hin u => ?_
    simp only [hkind]
    refine buildsAt_bind (h.assignment hcode u) fun offset hoffset => ?_
    refine builds_expect hcode rfl fun _ _ _ => moreSuffixes_legible h hcode ?_
    exact ⟨.access (hin.word_eq hkind (by decide)) he.legible hoffset.legible, he.led⟩
  · refine buildsAt_next hcode (by rw [hkind]; rfl) fun hin u => ?_
    simp only [hkind]
    refine buildsAt_bind (arguments_legible h hcode u) fun args hargs => ?_
    refine moreSuffixes_legible h hcode ?_
    exact ⟨.call (hin.word_eq hkind (by decide)) he.legible hargs, he.led⟩

theorem operand_legible (t : Token) :
    BuildsAt t fs fs (operand inner) (Good (t.kind = .variable)) :=
  buildsAt_bind (primary_legible h hcode t) fun _ => moreSuffixes_legible h hcode

/-! ### Operators -/

theorem moreInstanceOf_legible {lead : Prop} {e : Expr} (he : Good lead e) :
    Builds fs fs (moreInstanceOf inner e) (Good lead) := by
  intro t
  refine buildsAt_accept hcode (by decide) (buildsAt_pure he) fun hmem hin => ?_
  exact h.classOperand hcode he hin (List.mem_singleton.mp hmem)

theorem classOperand_legible {lead : Prop} {value : Expr} {op : Token} (hvalue : Good lead value)
    (hin : op.InCode) (hop : op.kind = .instanceOf) :
    Builds fs fs (classOperand inner value op) (Good lead) := by
  have hmore : ∀ {cls : Expr}, cls.Legible →
      Builds fs fs (moreInstanceOf inner (.instanceOf value op cls)) (Good lead) := by
    intro cls hcls
    have hword : op.folded = (.instanceOf, "instanceof") :=
      Prod.ext hop (hin.lower_eq (by simp [hop]))
    exact moreInstanceOf_legible h hcode ⟨.instanceOf hword hvalue.legible hcls, hvalue.led⟩
  intro t
  refine buildsAt_accept hcode (by decide) ?_ fun hmem hname => hmore (.literal ?_ ?_)
  · exact buildsAt_bind (operand_legible h hcode t) fun cls hcls => hmore hcls.legible
  · simp [List.mem_singleton.mp hmem]
  · exact hname.operand_or_string (by rw [List.mem_singleton.mp hmem]; rfl)

theorem instanceOf_legible (t : Token) :
    BuildsAt t fs fs (instanceOf inner) (Good (t.kind = .variable)) :=
  buildsAt_bind (operand_legible h hcode t) fun _ => moreInstanceOf_legible h hcode

theorem unary_legible (t : Token) :
    BuildsAt t fs fs (unary inner) (Good (t.kind = .variable)) := by
  have hnil : AreOperators [] := by simp [AreOperators]
  refine buildsAt_accept hcode (by decide) ?_ fun hmem hin u => ?_
  · refine buildsAt_accept hcode (by decide) (instanceOf_legible h hcode t) fun hmem hin u => ?_
    have hkind := List.mem_singleton.mp hmem
    dsimp only
    split
    · next type _ =>
        refine buildsAt_bind (h.level hcode hnil u) fun e he v => buildsAt_pure ?_
        exact .of_false (.cast type hkind he.legible) (by simp [hkind])
    · exact buildsAt_fail
  · refine buildsAt_bind (h.level hcode hnil u) fun e he v => buildsAt_pure ?_
    simp only [List.mem_cons, List.not_mem_nil, or_false] at hmem
    refine .of_false (.unary ?_ he.legible) (by rcases hmem with hk | hk | hk <;> simp [hk])
    rcases hmem with hkind | hkind | hkind
    · rw [hin.word_eq (s := "-") hkind (by decide)]
      simp
    · rw [hin.word_eq (s := "+") hkind (by decide)]
      simp
    · rw [hin.word_eq (s := "!") hkind (by decide)]
      simp

theorem moreChain_legible {lead : Prop} {ops : List TokenKind} {tighter : List Rule} {e : Expr}
    (hops : ∀ k ∈ ops, 0 < k.tightness) (htighter : AreOperators tighter) (he : Good lead e) :
    Builds fs fs (moreChain inner ops tighter e) (Good lead) := by
  intro t
  have hplain : ∀ k ∈ ops, k.isPlain = true := fun k hk => isPlain_of_tightness (hops k hk)
  refine buildsAt_accept hcode hplain (buildsAt_pure he) fun hmem hin => ?_
  exact h.chain hcode hops htighter he hin hmem

theorem level_legible {rs : List Rule} (hrs : AreOperators rs) (t : Token) :
    BuildsAt t fs fs (level inner rs) (Good (t.kind = .variable)) := by
  induction rs with
  | nil => exact unary_legible h hcode t
  | cons r tighter ih =>
      have htighter : AreOperators tighter := fun r' hr' => hrs r' (List.mem_cons_of_mem r hr')
      have hr := hrs r List.mem_cons_self
      cases r with
      | left ops =>
          have hops : ∀ k ∈ ops, 0 < k.tightness := hr.resolve_left (by simp)
          exact buildsAt_bind (ih htighter) fun _ => moreChain_legible h hcode hops htighter
      | right op =>
          have hop : ∀ k ∈ [op], 0 < k.tightness := hr.resolve_left (by simp)
          have hplain : ∀ k ∈ [op], k.isPlain = true := fun k hk => isPlain_of_tightness (hop k hk)
          refine buildsAt_bind (ih htighter) fun e he u => ?_
          refine buildsAt_accept hcode hplain (buildsAt_pure he) fun hmem hin v => ?_
          refine buildsAt_bind (h.level hcode hrs v) fun right hright w => buildsAt_pure ?_
          exact ⟨.binary (hin.folded_mem (hop _ hmem)) he.legible hright.legible, he.led⟩
      | ternary =>
          refine buildsAt_bind (ih htighter) fun e he u => ?_
          refine buildsAt_accept hcode (by decide) (buildsAt_pure he) fun hmem hin v => ?_
          have hquestion := hin.word_eq (s := "?") (List.mem_singleton.mp hmem) (by decide)
          refine buildsAt_bind (h.level hcode hrs v) fun yes hyes => ?_
          refine builds_expect hcode rfl fun _ _ _ w => ?_
          refine buildsAt_bind (h.level hcode hrs w) fun no hno x => buildsAt_pure ?_
          exact ⟨.ternary hquestion he.legible hyes.legible hno.legible, he.led⟩

theorem chain_legible {lead : Prop} {ops : List TokenKind} {tighter : List Rule} {left : Expr}
    {op : Token} (hops : ∀ k ∈ ops, 0 < k.tightness) (htighter : AreOperators tighter)
    (hleft : Good lead left) (hin : op.InCode) (hop : op.kind ∈ ops) :
    Builds fs fs (chain inner ops tighter left op) (Good lead) := by
  intro t
  refine buildsAt_bind (level_legible h hcode htighter t) fun right hright => ?_
  refine moreChain_legible h hcode hops htighter ?_
  exact ⟨.binary (hin.folded_mem (hops _ hop)) hleft.legible hright.legible, hleft.led⟩

theorem assignment_legible (t : Token) :
    BuildsAt t fs fs (assignment inner) (Good (t.kind = .variable)) := by
  have hrules : AreOperators rules.reverse := by
    unfold AreOperators
    decide
  refine buildsAt_bind (level_legible h hcode hrules t) fun target htarget u => ?_
  refine buildsAt_accept hcode (by decide) (buildsAt_pure htarget) fun hmem hin v => ?_
  refine buildsAt_bind (h.assignment hcode v) fun value hvalue w => buildsAt_pure ?_
  have hop := hin.word_eq (s := "=") (List.mem_singleton.mp hmem) (by decide)
  exact ⟨.assign hop htarget.legible hvalue.legible, htarget.led⟩

end Rules

theorem around_legible {inner : Inner} (h : inner.BuildsLegible) :
    (around inner).BuildsLegible where
  level hcode _ hrs := level_legible h hcode hrs
  assignment := assignment_legible h
  chain hcode _ _ _ _ _ hops htighter := chain_legible h hcode hops htighter
  classOperand hcode _ _ _ := classOperand_legible h hcode
  suffix hcode _ _ _ := suffix_legible h hcode

theorem ofDepth_legible (limit depth : Nat) : (ofDepth limit depth).BuildsLegible := by
  induction depth with
  | zero => exact exhausted_legible limit
  | succ depth ih => exact around_legible ih

end Grammar

/-- **What is parsed from a source is legible.** -/
theorem legible_of_parse {limit : Nat} {source : String} {e : Expr}
    (h : Expr.parse limit source = .ok e) : e.Legible := by
  unfold Expr.parse at h
  split at h
  · cases h
  · next ts hts =>
      have hlexed := lexed_of_tokenize hts
      have hremaining : (TokenStream.ofList ts).remaining = ts := by
        obtain ⟨t, ts, rfl⟩ := List.exists_cons_of_ne_nil hlexed.ne_nil
        rfl
      rw [← hremaining] at hlexed
      unfold Expr.ofTokens Expr.ofStream at h
      split at h
      · cases h
      · next e' s hr =>
          split at h
          · cases h
            have hcode : ([] : List Frame).head? ≠ some .text := by simp
            have hbuilds := (Grammar.ofDepth_legible limit limit).assignment hcode
            exact (hbuilds _ _ _ _ rfl hlexed hr).2.legible
          · cases h

end GuardedExpr
