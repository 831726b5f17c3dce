/-
# String reading — the parser finds the strings of the scanner complete

The parser has errors of its own for strings with embedded expressions: a closing
quote, an offset, a property or the digits of an offset that is not there.  The scanner
has seen to all of this, so none of them comes up for the tokens of a source.

`p.Goes fs fs'` carries this through the grammar: in front of tokens that are lexed in
the frames `fs`, an error demands none of these things, and a result leaves tokens that
are lexed in `fs'`, no more of them than before.  The number counts because a loop over
the parts of a string has a bound, which must not run out before the closing quote.
-/
import GuardedExpr.Proofs.Building
import GuardedExpr.Proofs.StringShape

namespace GuardedExpr

/-- What only a string with embedded expressions demands. -/
def interpolationDemands : List String :=
  ["closing '\"'", "array offset", "property name", "integer"]

/-- The error demands nothing of the kind. -/
def ParseError.IsSpared (e : ParseError) : Prop :=
  ∀ expected ∈ e.fault.expected?, expected ∉ interpolationDemands

/-- A text is not one that starts otherwise. -/
theorem append_ne_of_not_prefix {first rest text : String} (h : ¬ first.toList <+: text.toList) :
    first ++ rest ≠ text := by
  rintro rfl
  refine h ?_
  rw [String.toList_append]
  exact List.prefix_append _ _

/-- A demand is not known by its end. -/
theorem notMem_interpolationDemands {first rest : String}
    (h : ∀ d ∈ interpolationDemands, ¬ first.toList <+: d.toList) :
    first ++ rest ∉ interpolationDemands :=
  fun hmem => append_ne_of_not_prefix (h _ hmem) rfl

namespace Parser

variable {α β : Type}

/-- In the frames `fs` an error demands nothing of a string, and a result leaves the frames `fs'`
and no more tokens than before. The next token is `t`. -/
def GoesAt (t : Token) (fs fs' : List Frame) (p : Parser α) : Prop :=
  ∀ s, s.current = t → Lexed fs s.remaining → (∀ e, p s = .error e → e.IsSpared) ∧
    ∀ a s', p s = .ok (a, s') → Lexed fs' s'.remaining ∧
      s'.remaining.length ≤ s.remaining.length

/-- The same, whatever the next token is. -/
def Goes (fs fs' : List Frame) (p : Parser α) : Prop := ∀ t, GoesAt t fs fs' p

variable {t : Token} {fs fs' fs₁ : List Frame} {p : Parser α}

theorem goesAt_pure {a : α} : GoesAt t fs fs (pure a : Parser α) := by
  intro s _ hs
  refine ⟨fun e hr => (by cases hr), fun b s' hr => ?_⟩
  cases hr
  exact ⟨hs, Nat.le_refl _⟩

theorem goesAt_fail {e : ParseError} (h : e.IsSpared) : GoesAt t fs fs' (fail e : Parser α) := by
  intro s _ hs
  refine ⟨fun e' hr => ?_, fun a s' hr => (by cases hr)⟩
  cases hr
  exact h

theorem isSpared_unexpected {expected : String} (h : expected ∉ interpolationDemands)
    (s : TokenStream) : (s.unexpected expected).IsSpared := by
  intro x hx
  unfold TokenStream.unexpected at hx
  dsimp only at hx
  split at hx <;>
  · cases hx
    exact h

theorem goesAt_unexpected {expected : String} (h : expected ∉ interpolationDemands) :
    GoesAt t fs fs' (unexpected expected : Parser α) := by
  intro s _ hs
  refine ⟨fun e hr => ?_, fun a s' hr => (by cases hr)⟩
  cases hr
  exact isSpared_unexpected h s

theorem goesAt_bind {f : α → Parser β} (hp : GoesAt t fs fs₁ p) (hf : ∀ a, Goes fs₁ fs' (f a)) :
    GoesAt t fs fs' (p >>= f) := by
  intro s ht hs
  obtain ⟨herror, hok⟩ := hp s ht hs
  simp only [bind, andThen]
  cases hr : p s with
  | error e =>
      refine ⟨fun e' he' => ?_, fun b s' hb => (by cases hb)⟩
      cases he'
      exact herror e hr
  | ok result =>
      obtain ⟨hs₁, hle⟩ := hok _ _ hr
      obtain ⟨herror', hok'⟩ := hf result.1 _ result.2 rfl hs₁
      refine ⟨herror', fun b s' hb => ?_⟩
      obtain ⟨hs', hle'⟩ := hok' b s' hb
      exact ⟨hs', Nat.le_trans hle' hle⟩

theorem goesAt_peek {f : Token → Parser β} (hf : GoesAt t fs fs' (f t)) :
    GoesAt t fs fs' (peek >>= f) := by
  rintro s rfl hs
  exact hf s rfl hs

section Code

variable (hcode : fs.head? ≠ some .text)

include hcode

theorem goesAt_next (ht : t.kind ≠ .eof) : GoesAt t fs (t.kind.framesAfter fs) next := by
  rintro s rfl hs
  refine ⟨fun e hr => (by cases hr), fun u s' hr => ?_⟩
  cases hr
  obtain ⟨hremaining, hbehind⟩ := remaining_advance_of_lexed hcode hs ht
  rw [hremaining]
  exact ⟨hbehind, Nat.le_succ _⟩

/-- A token that leaves the frames as they are. -/
theorem goesAt_token {f : Token → Parser β} (ht : t.kind.isPlain = true)
    (hf : ∀ u, Goes fs fs' (f u)) : GoesAt t fs fs' (next >>= f) := by
  have heof : t.kind ≠ .eof := by
    intro heof
    rw [heof] at ht
    cases ht
  have hnext := goesAt_next hcode heof
  rw [TokenKind.framesAfter_of_isPlain ht] at hnext
  exact goesAt_bind hnext hf

theorem goes_accept {kinds : List TokenKind} {f : Option Token → Parser β}
    (hkinds : ∀ k ∈ kinds, k.isPlain = true) (hnone : Goes fs fs' (f none))
    (hsome : ∀ t, Goes fs fs' (f (some t))) : Goes fs fs' (accept kinds >>= f) := by
  rintro t s rfl hs
  by_cases hmem : s.current.kind ∈ kinds
  · rw [accept_of_mem hmem]
    exact goesAt_token hcode (hkinds _ hmem) hsome s rfl hs
  · rw [accept_of_notMem hmem]
    exact hnone _ s rfl hs

theorem goes_expect {kind : TokenKind} {expected : String} (hkind : kind ≠ .eof)
    (h : expected ∉ interpolationDemands) : Goes fs (kind.framesAfter fs) (expect kind expected) := by
  rintro t s rfl hs
  by_cases hcurrent : s.current.kind = kind
  · rw [expect_of_kind hcurrent]
    subst hcurrent
    exact goesAt_next hcode hkind s rfl hs
  · rw [expect_of_ne hcurrent]
    exact goesAt_unexpected h s rfl hs

theorem goes_expect_token {kind : TokenKind} {expected : String} {f : Token → Parser β}
    (hkind : kind.isPlain = true) (h : expected ∉ interpolationDemands)
    (hf : ∀ u, Goes fs fs' (f u)) : Goes fs fs' (expect kind expected >>= f) := by
  have heof : kind ≠ .eof := by
    rintro rfl
    cases hkind
  intro t
  have hexpect : GoesAt t fs _ (expect kind expected) := goes_expect hcode heof h t
  rw [TokenKind.framesAfter_of_isPlain hkind] at hexpect
  exact goesAt_bind hexpect hf

end Code

end Parser

/-! ## The grammar -/

namespace Grammar

open GuardedExpr.Parser

/-- In code the parsers one level further in spare the strings. -/
structure Inner.Goes (inner : Inner) : Prop where
  level : ∀ {fs : List Frame}, fs.head? ≠ some .text → ∀ {rs}, AreOperators rs →
    Parser.Goes fs fs (inner.level rs)
  assignment : ∀ {fs : List Frame}, fs.head? ≠ some .text → Parser.Goes fs fs inner.assignment
  chain : ∀ {fs : List Frame}, fs.head? ≠ some .text → ∀ {ops tighter} e op,
    (∀ k ∈ ops, 0 < k.tightness) → AreOperators tighter →
    Parser.Goes fs fs (inner.chain ops tighter e op)
  classOperand : ∀ {fs : List Frame}, fs.head? ≠ some .text → ∀ e op,
    Parser.Goes fs fs (inner.classOperand e op)
  suffix : ∀ {fs : List Frame}, fs.head? ≠ some .text → ∀ e {t : Token}, t.kind ∈ suffixStarts →
    GoesAt t fs fs (inner.suffix e)

theorem exhausted_goes (limit : Nat) : (exhausted limit).Goes := by
  have htooDeep : ∀ {α : Type} {fs : List Frame} (t : Token),
      GoesAt t fs fs (tooDeep limit : Parser α) := by
    intro α fs t s _ _
    refine ⟨fun e hr => ?_, fun a s' hr => (by cases hr)⟩
    cases hr
    intro x hx
    cases hx
  constructor <;> intros
  · exact fun t => htooDeep t
  · exact fun t => htooDeep t
  · exact fun t => htooDeep t
  · exact fun t => htooDeep t
  · exact htooDeep _

section Rules

variable {inner : Inner} (h : inner.Goes) {fs : List Frame} (hcode : fs.head? ≠ some .text)

include h hcode

/-! ### Lists -/

omit h in
theorem goes_moreItems {α : Type} (x : α) {more : Parser (List α)}
    (hmore : Parser.Goes fs fs more) : Parser.Goes fs fs (moreItems x more) :=
  goes_accept hcode (by decide) (fun _ => goesAt_pure) fun _ _ =>
    goesAt_bind (hmore _) fun _ _ => goesAt_pure

theorem argumentItems_goes (most : Nat) : Parser.Goes fs fs (argumentItems inner most) := by
  induction most with
  | zero => exact fun _ => goesAt_pure
  | succ most ih =>
      intro t
      refine goesAt_peek ?_
      split
      · exact goesAt_pure
      · have hitem : ∀ mark : Option Token, Parser.Goes fs fs (do
            let value ← expression inner
            moreItems (Argument.mk mark.isSome value) (argumentItems inner most)) :=
          fun mark u => goesAt_bind (h.assignment hcode u) fun _ => goes_moreItems hcode _ ih
        exact goes_accept hcode (by decide) (hitem none) (fun _ => hitem _) t

theorem arguments_goes : Parser.Goes fs fs (arguments inner) := by
  intro t s ht hs
  refine goesAt_bind (argumentItems_goes h hcode _ t) (fun args => ?_) s ht hs
  exact goes_expect_token hcode rfl (by decide) fun _ _ => goesAt_pure

theorem elementItems_goes (close : TokenKind) (most : Nat) :
    Parser.Goes fs fs (elementItems inner close most) := by
  induction most with
  | zero => exact fun _ => goesAt_pure
  | succ most ih =>
      intro t
      refine goesAt_peek ?_
      split
      · exact goesAt_pure
      · refine goesAt_bind (h.assignment hcode t) fun first => ?_
        refine goes_accept hcode (by decide) ?_ fun _ u => ?_
        · exact goes_moreItems hcode (Element.item first) ih
        · refine goesAt_bind (h.assignment hcode u) fun value => ?_
          exact goes_moreItems hcode (Element.pair first value) ih

theorem arrayElements_goes {close : TokenKind} (hclose : close.isPlain = true) {expected : String}
    (hexpected : expected ∉ interpolationDemands) :
    Parser.Goes fs fs (arrayElements inner close expected) := by
  intro t s ht hs
  refine goesAt_bind (elementItems_goes h hcode close _ t) (fun elements => ?_) s ht hs
  exact goes_expect_token hcode hclose hexpected fun _ _ => goesAt_pure

/-! ### Strings with embedded expressions -/

omit h hcode in
/-- What stands between braces in a string, with the closing brace. -/
def hole (inner : Inner) : Parser Expr := do
  let part ← expression inner
  let _ ← expect .rbrace "'\x7d'"
  pure part

omit h hcode in
theorem hole_bind {α : Type} (f : Expr → Parser α) : hole inner >>= f
    = expression inner >>= fun part => expect .rbrace "'\x7d'" >>= fun _ => f part := by
  funext s
  simp only [hole, bind, andThen]
  cases expression inner s with
  | error e => rfl
  | ok result =>
      dsimp only
      cases expect .rbrace "'\x7d'" result.2 <;> rfl

omit hcode in
theorem hole_goes : Parser.Goes (.hole 0 :: .text :: fs) (.text :: fs) (hole inner) := by
  have hhole : (Frame.hole 0 :: .text :: fs).head? ≠ some .text := by simp
  intro t
  refine goesAt_bind (h.assignment hhole t) fun part u => ?_
  exact goesAt_bind (goes_expect hhole (by decide) (by decide) u) fun _ _ => goesAt_pure

omit hcode in
/-- The parts of a string are read up to its closing quote. -/
theorem partItems_goes (most : Nat) (s : TokenStream) (hs : Lexed (.text :: fs) s.remaining)
    (hmost : s.remaining.length ≤ most) :
    (∀ e, partItems inner most s = .error e → e.IsSpared) ∧
      ∀ parts s', partItems inner most s = .ok (parts, s') → Lexed (.text :: fs) s'.remaining ∧
        s'.remaining.length ≤ s.remaining.length ∧ s'.current.kind = .quote := by
  induction most generalizing s with
  | zero => exact absurd hmost (Nat.not_succ_le_zero _)
  | succ most ih =>
      -- behind a part of at least a token, the rest is read with the part put in front
      have hcons : ∀ (part : Expr) (s₁ : TokenStream), Lexed (.text :: fs) s₁.remaining →
          s₁.remaining.length < s.remaining.length →
          (∀ e, (partItems inner most >>= fun rest => pure (part :: rest)) s₁ = .error e →
            e.IsSpared) ∧
          ∀ parts s', (partItems inner most >>= fun rest => pure (part :: rest)) s₁
            = .ok (parts, s') → Lexed (.text :: fs) s'.remaining ∧
              s'.remaining.length ≤ s.remaining.length ∧ s'.current.kind = .quote := by
        intro part s₁ hs₁ hlt
        obtain ⟨herror, hok⟩ := ih s₁ hs₁ (by omega)
        simp only [bind, andThen]
        cases hr : partItems inner most s₁ with
        | error e =>
            refine ⟨fun e' he' => ?_, fun parts s' hp => (by cases hp)⟩
            cases he'
            exact herror e hr
        | ok result =>
            refine ⟨fun e' he' => (by cases he'), fun parts s' hp => ?_⟩
            cases hp
            obtain ⟨hs', hle, hquote⟩ := hok _ _ hr
            exact ⟨hs', by omega, hquote⟩
      obtain ⟨passed, t, ahead⟩ := s
      have hlexed : Lexed (.text :: fs) (t :: ahead) := hs
      cases hlexed with
      | eof htext | code htext | brace htext | opening htext => exact absurd rfl htext
      | closing hquote =>
          rw [partItems_of_quote hquote.1]
          refine ⟨fun e he => (by cases he), fun parts s' hp => ?_⟩
          cases hp
          exact ⟨hs, Nat.le_refl _, hquote.1⟩
      | run ht hnext hts =>
          obtain ⟨s₁, hs₁, heq⟩ := takes_run_part ht hts.ne_nil ⟨passed, t, ahead⟩ rfl
          rw [heq]
          rw [← hs₁] at hts
          exact hcons _ s₁ hts (by rw [hs₁]; exact Nat.lt_succ_self _)
      | @hole _ _ v ts hbrace hv hts =>
          obtain ⟨s₁, hs₁, heq⟩ := takes_hole_part hbrace (List.cons_ne_nil v ts)
            ⟨passed, t, v :: ts⟩ rfl
          rw [heq]
          rw [← hs₁] at hts
          have hlt : s₁.remaining.length < (t :: v :: ts).length := by
            rw [hs₁]
            exact Nat.lt_succ_self _
          obtain ⟨herror, hok⟩ := hole_goes h _ s₁ rfl hts
          rw [← hole_bind]
          simp only [bind, andThen]
          cases hr : hole inner s₁ with
          | error e =>
              refine ⟨fun e' he' => ?_, fun parts s' hp => (by cases hp)⟩
              cases he'
              exact herror e hr
          | ok result =>
              obtain ⟨hs₂, hle⟩ := hok _ _ hr
              exact hcons _ _ hs₂ (Nat.lt_of_le_of_lt hle hlt)
      | @embedded _ _ us ts hus hts =>
          obtain ⟨s₁, hs₁, heq⟩ := takes_embedded_part hus hts ⟨passed, t, us ++ ts⟩ rfl
          rw [heq]
          rw [← hs₁] at hts
          refine hcons _ s₁ hts ?_
          rw [hs₁]
          show ts.length < (t :: (us ++ ts)).length
          rw [List.length_cons, List.length_append]
          omega

omit hcode in
theorem interpolation_goes (opening : Token) :
    Parser.Goes (.text :: fs) fs (interpolation inner opening) := by
  intro t s _ hs
  obtain ⟨herror, hok⟩ := partItems_goes h s.remaining.length s hs (Nat.le_refl _)
  simp only [interpolation, bind, andThen]
  have hlength : s.ahead.length + 1 = s.remaining.length := rfl
  rw [hlength]
  cases hr : partItems inner s.remaining.length s with
  | error e =>
      refine ⟨fun e' he' => ?_, fun a s' ha => (by cases ha)⟩
      cases he'
      exact herror e hr
  | ok result =>
      obtain ⟨parts, s₁⟩ := result
      obtain ⟨hs₁, hle, hquote⟩ := hok _ _ hr
      have hcheck : s₁.check .quote = true := beq_iff_eq.mpr hquote
      simp only [expect, TokenStream.expect, hcheck, if_true]
      refine ⟨fun e' he' => (by cases he'), fun a s' ha => ?_⟩
      cases ha
      have hlater : Lexed fs s₁.ahead := hs₁.behind_closing hquote
      obtain ⟨u, us, hus⟩ := List.exists_cons_of_ne_nil hlater.ne_nil
      have hremaining : s₁.remaining = s₁.current :: u :: us := by
        rw [TokenStream.remaining, hus]
      rw [s₁.remaining_advance hremaining (by simp [hquote]), ← hus]
      exact ⟨hlater, Nat.le_trans (Nat.le_succ _) hle⟩

/-! ### Operands -/

theorem primary_goes : Parser.Goes fs fs (primary inner) := by
  intro t
  refine goesAt_peek ?_
  split
  case h_1 | h_2 | h_3 | h_4 | h_5 | h_6 =>
    next hkind =>
      exact goesAt_token hcode (by rw [hkind]; rfl) fun _ _ => goesAt_pure
  case h_7 =>
    next hkind =>
      refine goesAt_token hcode (by rw [hkind]; rfl) fun _ u => ?_
      refine goesAt_bind (h.assignment hcode u) fun e => ?_
      exact goes_expect_token hcode rfl (by decide) fun _ _ => goesAt_pure
  case h_8 =>
    next hkind =>
      have hnext := goesAt_next hcode (t := t) (by simp [hkind])
      rw [hkind, TokenKind.framesAfter_quote hcode] at hnext
      exact goesAt_bind hnext fun _ => interpolation_goes h t
  case h_9 =>
    next hkind =>
      refine goesAt_token hcode (by rw [hkind]; rfl) fun _ u => ?_
      exact goesAt_bind (arrayElements_goes h hcode rfl (by decide) u) fun _ _ => goesAt_pure
  case h_10 =>
    next hkind =>
      refine goesAt_token hcode (by rw [hkind]; rfl) fun _ => ?_
      refine goes_expect_token hcode rfl (by decide) fun _ u => ?_
      exact goesAt_bind (arrayElements_goes h hcode rfl (by decide) u) fun _ _ => goesAt_pure
  case h_11 =>
    next hkind =>
      refine goesAt_token hcode (by rw [hkind]; rfl) fun _ u => goesAt_peek ?_
      split
      · exact goesAt_pure
      · rw [String.append_assoc]
        exact goesAt_unexpected (notMem_interpolationDemands (by decide))
  case h_12 => exact goesAt_unexpected (by decide)

theorem memberName_goes (op : Token) (isStatic : Bool) :
    Parser.Goes fs fs (memberName inner op isStatic) := by
  intro t
  refine goesAt_peek ?_
  split
  · next hword =>
      have hplain : t.kind.isPlain = true := by
        cases hk : t.kind <;> first | rfl | (rw [hk] at hword; cases hword)
      exact goesAt_token hcode hplain fun _ _ => goesAt_pure
  · split
    · next hvariable =>
        have hkind : t.kind = .variable := by simp_all
        exact goesAt_token hcode (by rw [hkind]; rfl) fun _ _ => goesAt_pure
    · split
      · next hbrace =>
          have hkind : t.kind = .lbrace := by simp_all
          obtain ⟨hinside, hback⟩ := framesAfter_lbrace hcode
          have hnext := goesAt_next hcode (t := t) (by simp [hkind])
          rw [hkind] at hnext
          refine goesAt_bind hnext fun _ u => ?_
          refine goesAt_bind (h.assignment hinside u) fun name v => ?_
          have hrbrace : TokenKind.rbrace ≠ .eof := by decide
          have hexpect := goes_expect hinside hrbrace
            (show "'\x7d'" ∉ interpolationDemands by decide) v
          rw [hback] at hexpect
          exact goesAt_bind hexpect fun _ _ => goesAt_pure
      · rw [String.append_assoc]
        exact goesAt_unexpected (notMem_interpolationDemands (by decide))

theorem member_goes (target : Expr) (op : Token) (isStatic : Bool) :
    Parser.Goes fs fs (member inner target op isStatic) := by
  intro t
  refine goesAt_bind (memberName_goes h hcode op isStatic t) fun name => ?_
  refine goes_accept hcode (by decide) (fun _ => goesAt_pure) fun _ u => ?_
  exact goesAt_bind (arguments_goes h hcode u) fun _ _ => goesAt_pure

theorem moreSuffixes_goes (e : Expr) : Parser.Goes fs fs (moreSuffixes inner e) := by
  intro t
  refine goesAt_peek ?_
  split
  · next hstart => exact h.suffix hcode e (List.contains_iff_mem.mp hstart)
  · exact goesAt_pure

theorem suffix_goes (e : Expr) {t : Token} (ht : t.kind ∈ suffixStarts) :
    GoesAt t fs fs (suffix inner e) := by
  have hmore : ∀ whole, Parser.Goes fs fs (moreSuffixes inner whole) := moreSuffixes_goes h hcode
  have hplain : t.kind.isPlain = true := by
    simp only [suffixStarts, List.mem_cons, List.not_mem_nil, or_false] at ht
    rcases ht with hkind | hkind | hkind | hkind <;>
    · rw [hkind]
      rfl
  refine goesAt_token hcode hplain fun u v => ?_
  dsimp only
  split
  · exact goesAt_bind (member_goes h hcode e u true v) hmore
  · exact goesAt_bind (member_goes h hcode e u false v) hmore
  · refine goesAt_bind (h.assignment hcode v) fun offset => ?_
    exact goes_expect_token hcode rfl (by decide) fun _ => hmore (.access e u offset)
  · exact goesAt_bind (arguments_goes h hcode v) fun args => hmore (.call e u args)

theorem operand_goes : Parser.Goes fs fs (operand inner) := fun t =>
  goesAt_bind (primary_goes h hcode t) (moreSuffixes_goes h hcode)

/-! ### Operators -/

theorem moreInstanceOf_goes (e : Expr) : Parser.Goes fs fs (moreInstanceOf inner e) :=
  goes_accept hcode (by decide) (fun _ => goesAt_pure) (h.classOperand hcode e)

theorem classOperand_goes (value : Expr) (op : Token) :
    Parser.Goes fs fs (classOperand inner value op) := by
  have hmore : ∀ cls, Parser.Goes fs fs (moreInstanceOf inner (.instanceOf value op cls)) :=
    fun cls => moreInstanceOf_goes h hcode _
  refine goes_accept hcode (by decide) (fun t => ?_) fun name => hmore _
  exact goesAt_bind (operand_goes h hcode t) hmore

theorem instanceOf_goes : Parser.Goes fs fs (instanceOf inner) := fun t =>
  goesAt_bind (operand_goes h hcode t) (moreInstanceOf_goes h hcode)

theorem unary_goes : Parser.Goes fs fs (unary inner) := by
  have hoperand : ∀ f : Expr → Expr, Parser.Goes fs fs (inner.level [] >>= fun e => pure (f e)) :=
    fun f t => goesAt_bind (h.level hcode (by simp [AreOperators]) t) fun _ _ => goesAt_pure
  refine goes_accept hcode (by decide) ?_ fun op => hoperand _
  refine goes_accept hcode (by decide) (instanceOf_goes h hcode) fun op t => ?_
  dsimp only
  split
  · exact hoperand _ t
  · refine goesAt_fail fun x hx => ?_
    cases hx
    decide

theorem moreChain_goes {ops : List TokenKind} {tighter : List Rule}
    (hops : ∀ k ∈ ops, 0 < k.tightness) (htighter : AreOperators tighter) (e : Expr) :
    Parser.Goes fs fs (moreChain inner ops tighter e) :=
  goes_accept hcode (fun k hk => isPlain_of_tightness (hops k hk)) (fun _ => goesAt_pure)
    fun op => h.chain hcode e op hops htighter

theorem level_goes {rs : List Rule} (hrs : AreOperators rs) :
    Parser.Goes fs fs (level inner rs) := by
  induction rs with
  | nil => exact unary_goes h hcode
  | cons r tighter ih =>
      have htighter : AreOperators tighter := fun r' hr' => hrs r' (List.mem_cons_of_mem r hr')
      have hr := hrs r List.mem_cons_self
      intro t
      cases r with
      | left ops =>
          refine goesAt_bind (ih htighter t) fun e => ?_
          exact moreChain_goes h hcode (hr.resolve_left (by simp)) htighter e
      | right op =>
          have hop : ∀ k ∈ [op], 0 < k.tightness := hr.resolve_left (by simp)
          refine goesAt_bind (ih htighter t) fun e => ?_
          refine goes_accept hcode (fun k hk => isPlain_of_tightness (hop k hk))
            (fun _ => goesAt_pure) fun _ u => ?_
          exact goesAt_bind (h.level hcode hrs u) fun _ _ => goesAt_pure
      | ternary =>
          refine goesAt_bind (ih htighter t) fun e => ?_
          refine goes_accept hcode (by decide) (fun _ => goesAt_pure) fun _ u => ?_
          refine goesAt_bind (h.level hcode hrs u) fun yes => ?_
          refine goes_expect_token hcode rfl (by decide) fun _ v => ?_
          exact goesAt_bind (h.level hcode hrs v) fun _ _ => goesAt_pure

theorem chain_goes {ops : List TokenKind} {tighter : List Rule} (left : Expr) (op : Token)
    (hops : ∀ k ∈ ops, 0 < k.tightness) (htighter : AreOperators tighter) :
    Parser.Goes fs fs (chain inner ops tighter left op) := fun t =>
  goesAt_bind (level_goes h hcode htighter t) fun _ => moreChain_goes h hcode hops htighter _

theorem assignment_goes : Parser.Goes fs fs (assignment inner) := by
  have hrules : AreOperators rules.reverse := by
    unfold AreOperators
    decide
  intro t
  refine goesAt_bind (level_goes h hcode hrules t) fun target => ?_
  refine goes_accept hcode (by decide) (fun _ => goesAt_pure) fun _ u => ?_
  exact goesAt_bind (h.assignment hcode u) fun _ _ => goesAt_pure

end Rules

theorem around_goes {inner : Inner} (h : inner.Goes) : (around inner).Goes where
  level hcode _ hrs := level_goes h hcode hrs
  assignment := assignment_goes h
  chain hcode _ _ e op hops htighter := chain_goes h hcode e op hops htighter
  classOperand := classOperand_goes h
  suffix hcode e _ ht := suffix_goes h hcode e ht

theorem ofDepth_goes (limit depth : Nat) : (ofDepth limit depth).Goes := by
  induction depth with
  | zero => exact exhausted_goes limit
  | succ depth ih => exact around_goes ih

end Grammar

/-- **Scanner and parser agree on strings with embedded expressions.**  The tokens of a source nest
as the grammar of strings says, and so the parser never finds fault with a string: with its closing
quote, with the offset or the property behind a variable, or with the digits of an offset. -/
theorem scanner_and_parser_agree_on_strings {source : String} {ts : List Token}
    (h : tokenize source = .ok ts) :
    IsSource ts ∧ ∀ limit e, Expr.parse limit source = .error e → e.IsSpared := by
  refine ⟨isSource_of_tokenize h, fun limit e herror => ?_⟩
  have hlexed := lexed_of_tokenize h
  obtain ⟨t, ts, rfl⟩ := List.exists_cons_of_ne_nil hlexed.ne_nil
  have hcode : ([] : List Frame).head? ≠ some .text := by simp
  obtain ⟨hspared, -⟩ := (Grammar.ofDepth_goes limit limit).assignment hcode t
    (.ofList (t :: ts)) rfl hlexed
  unfold Expr.parse at herror
  rw [h] at herror
  dsimp only at herror
  unfold Expr.ofTokens Expr.ofStream at herror
  split at herror
  · next e' hr =>
      cases herror
      exact hspared e hr
  · split at herror
    · cases herror
    · cases herror
      exact Parser.isSpared_unexpected (by decide) _

/-- A string within a string, and a string whose embedded expression is at fault. -/
theorem nested_string_nests :
    (∃ ts, tokenize "\"a$b[0]\x7b$c.\"$d\"\x7d\"" = .ok ts ∧ IsSource ts) ∧
    ∃ ts e, tokenize "\"\x7b$a $b\x7d\"" = .ok ts ∧ Expr.parse 3 "\"\x7b$a $b\x7d\"" = .error e ∧
      e.IsSpared := by
  refine ⟨?_, ?_⟩
  · have htokens : tokenize "\"a$b[0]\x7b$c.\"$d\"\x7d\"" = .ok
        [⟨.quote, "\"", ⟨0, 1, 1, 1⟩⟩, ⟨.fragment, "a", ⟨1, 1, 1, 2⟩⟩,
         ⟨.variable, "$b", ⟨2, 2, 1, 3⟩⟩, ⟨.lbracket, "[", ⟨4, 1, 1, 5⟩⟩,
         ⟨.integer, "0", ⟨5, 1, 1, 6⟩⟩, ⟨.rbracket, "]", ⟨6, 1, 1, 7⟩⟩,
         ⟨.lbrace, "\x7b", ⟨7, 1, 1, 8⟩⟩, ⟨.variable, "$c", ⟨8, 2, 1, 9⟩⟩,
         ⟨.dot, ".", ⟨10, 1, 1, 11⟩⟩, ⟨.quote, "\"", ⟨11, 1, 1, 12⟩⟩,
         ⟨.variable, "$d", ⟨12, 2, 1, 13⟩⟩, ⟨.quote, "\"", ⟨14, 1, 1, 15⟩⟩,
         ⟨.rbrace, "\x7d", ⟨15, 1, 1, 16⟩⟩, ⟨.quote, "\"", ⟨16, 1, 1, 17⟩⟩,
         ⟨.eof, "", ⟨17, 0, 1, 18⟩⟩] := rfl
    exact ⟨_, htokens, (scanner_and_parser_agree_on_strings htokens).1⟩
  · have htokens : tokenize "\"\x7b$a $b\x7d\"" = .ok
        [⟨.quote, "\"", ⟨0, 1, 1, 1⟩⟩, ⟨.lbrace, "\x7b", ⟨1, 1, 1, 2⟩⟩,
         ⟨.variable, "$a", ⟨2, 2, 1, 3⟩⟩, ⟨.variable, "$b", ⟨5, 2, 1, 6⟩⟩,
         ⟨.rbrace, "\x7d", ⟨7, 1, 1, 8⟩⟩, ⟨.quote, "\"", ⟨8, 1, 1, 9⟩⟩,
         ⟨.eof, "", ⟨9, 0, 1, 10⟩⟩] := rfl
    have hparse : Expr.parse 3 "\"\x7b$a $b\x7d\""
        = .error ⟨.unexpectedToken "$b" "'\x7d'", ⟨5, 2, 1, 6⟩⟩ := by
      unfold Expr.parse
      rw [htokens]
      rfl
    exact ⟨_, _, htokens, hparse, (scanner_and_parser_agree_on_strings htokens).2 3 _ hparse⟩

end GuardedExpr
