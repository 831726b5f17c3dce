/-
# Reading back — words that are one operand

Tokens with the same words are read alike, whatever their places.  What is read is
left to a property `R` of trees, because it keeps the places: `ReadsOperand n ws R`
says that tokens with the words `ws` are read as one operand of which `R` holds,
with `n` levels of nesting to go, and `ReadsAs n ws R` is the same for expressions.

There is a rule for every way in which words are put together: a single token, an
expression in parentheses, a list in brackets, an offset behind an operand, and
signs, casts and operators with operands next to them.
-/
import GuardedExpr.Proofs.Precedence
import Mathlib.Data.List.Forall2

namespace GuardedExpr

/-! ## Words -/

/-- A token as it is spelt, wherever it stands. -/
abbrev Word := TokenKind × String

def Token.word (t : Token) : Word := (t.kind, t.text)

/-- The tokens among some pieces, as they are spelt. -/
def Piece.words (ps : List Piece) : List Word :=
  ps.filterMap fun
    | .blank _ => none
    | .lexeme kind text => some (kind, String.ofList text)

theorem Piece.map_word_place (ps : List Piece) (p : Position) :
    (place p ps).map Token.word = words ps ++ [(.eof, "")] := by
  induction ps generalizing p with
  | nil => rfl
  | cons q ps ih =>
      cases q with
      | blank text => exact ih (p.after text)
      | lexeme kind text => exact congrArg ((kind, String.ofList text) :: ·) (ih (p.after text))

namespace Grammar

open GuardedExpr.Parser

/-! ## Tokens that are read -/

/-- The kinds of token at which an expression goes on. -/
def ends : List TokenKind := .assign :: goesOn rules.reverse

/-- With at least `n` levels to go, tokens with these words are read as an expression of which `R`
holds. -/
def ReadsAs (n : Nat) (ws : List Word) (R : Expr → Prop) : Prop :=
  ∀ limit depth ts rest, ts.map Token.word = ws → n ≤ depth → Stops ends rest →
    ∃ e, R e ∧ Takes (ofDepth limit depth).assignment ts rest (pure e)

/-- With at least `n` levels to go, tokens with these words are read as an operand of which `R`
holds, and what is read behind it is more suffixes, at most `n` levels further in. -/
def ReadsOperand (n : Nat) (ws : List Word) (R : Expr → Prop) : Prop :=
  ∀ limit depth ts rest, ts.map Token.word = ws → n ≤ depth → rest ≠ [] →
    ∃ e d, R e ∧ depth ≤ d + n ∧
      Takes (operand (ofDepth limit depth)) ts rest (moreSuffixes (ofDepth limit d) e)

/-- The kinds of token that an operand starts with here. -/
def operandStarts : List TokenKind :=
  [.integer, .float, .string, .bool, .null, .variable, .lparen, .lbracket]

section Tokens

variable {n : Nat} {ws : List Word} {R : Expr → Prop}

theorem ReadsAs.mono {m : Nat} (h : ReadsAs n ws R) (hle : n ≤ m) : ReadsAs m ws R :=
  fun limit depth ts rest hts hdepth => h limit depth ts rest hts (Nat.le_trans hle hdepth)

theorem ReadsOperand.mono {m : Nat} (h : ReadsOperand n ws R) (hle : n ≤ m) :
    ReadsOperand m ws R := by
  intro limit depth ts rest hts hdepth hrest
  obtain ⟨e, d, he, hd, htakes⟩ := h limit depth ts rest hts (Nat.le_trans hle hdepth) hrest
  exact ⟨e, d, he, by omega, htakes⟩

/-- An operand without signs is read by the rule of unary operators. -/
theorem ReadsOperand.unary (h : ReadsOperand n ws R) (hstart : ∃ w ∈ ws.head?, w.1 ∈ operandStarts)
    (limit depth : Nat) {ts rest : List Token} (hts : ts.map Token.word = ws) (hdepth : n ≤ depth)
    (hrest : Stops (goesOn []) rest) :
    ∃ e, R e ∧ Takes (Grammar.unary (ofDepth limit depth)) ts rest (pure e) := by
  obtain ⟨e, d, he, -, htakes⟩ := h limit depth ts rest hts hdepth hrest.ne_nil
  refine ⟨e, he, ?_⟩
  obtain ⟨w, hw, hkind⟩ := hstart
  obtain ⟨t, ts, rfl⟩ : ∃ t us, ts = t :: us := by
    cases ts with
    | nil =>
        subst hts
        cases hw
    | cons t us => exact ⟨t, us, rfl⟩
  have hw : w = t.word := by
    subst hts
    cases hw
    rfl
  have hsign : t.kind ∉ [.minus, .plus, .bang, .cast] := by
    intro hmem
    rw [hw] at hkind
    have hdisjoint : ∀ k ∈ operandStarts, k ∉ [TokenKind.minus, .plus, .bang, .cast] := by decide
    exact hdisjoint t.kind hkind hmem
  refine takes_unary_of_instanceOf hsign ?_
  have hsuffix : Stops suffixStarts rest := hrest.mono fun k hk => by simp [goesOn, hk]
  have hinstance : Stops [.instanceOf] rest := hrest.mono fun k hk => by simp_all [goesOn]
  have hmore : Takes (moreSuffixes (ofDepth limit d) e) [] rest (pure e) :=
    takes_moreSuffixes e (List.Subset.refl _) hsuffix
  have hoperand : Takes (operand (ofDepth limit depth)) (t :: ts) rest (pure e) := by
    rw [← List.append_nil (t :: ts)]
    exact Takes.trans htakes hmore
  exact hoperand.last (takes_moreInstanceOf e hinstance)

/-- The loosest rule reads what the others read where no assignment follows. -/
theorem takes_assignment {inner : Inner} {ts rest : List Token} {e : Expr}
    (h : Takes (level inner rules.reverse) ts rest (pure e)) (hrest : Stops ends rest) :
    Takes (assignment inner) ts rest (pure e) := by
  have hassign : Stops [.assign] rest := hrest.mono (by decide)
  exact h.last ((takes_accept_none hassign).bind _)

/-! ### Operands -/

theorem exists_token {ts : List Token} {w : Word} (h : ts.map Token.word = [w]) :
    ∃ t, ts = [t] ∧ t.kind = w.1 ∧ t.word = w := by
  obtain ⟨t, us, rfl, ht, hus⟩ := List.map_eq_cons_iff.mp h
  obtain rfl := List.map_eq_nil_iff.mp hus
  exact ⟨t, rfl, congrArg Prod.fst ht, ht⟩

theorem readsOperand_of_primary
    (h : ∀ (inner : Inner) (ts rest : List Token), ts.map Token.word = ws → rest ≠ [] →
      ∃ e, R e ∧ Takes (primary inner) ts rest (pure e)) : ReadsOperand 0 ws R := by
  intro limit depth ts rest hts _ hrest
  obtain ⟨e, he, htakes⟩ := h (ofDepth limit depth) ts rest hts hrest
  exact ⟨e, depth, he, Nat.le_refl _, htakes.bind _⟩

/-- A literal of one token. -/
theorem readsOperand_literal {w : Word}
    (hw : w.1 ∈ [TokenKind.integer, .float, .string, .bool, .null]) :
    ReadsOperand 0 [w] fun e => ∃ t, t.word = w ∧ e = .literal t := by
  refine readsOperand_of_primary fun inner ts rest hts hrest => ?_
  obtain ⟨t, rfl, hkind, ht⟩ := exists_token hts
  refine ⟨.literal t, ⟨t, ht, rfl⟩, ?_⟩
  rw [← hkind] at hw
  have heof : t.kind ≠ .eof := by
    intro heof
    simp [heof] at hw
  refine (takes_peek t rest).here ?_
  simp only [List.mem_cons, List.not_mem_nil, or_false] at hw
  rcases hw with hk | hk | hk | hk | hk <;>
  · simp only [hk]
    exact (takes_next heof hrest).bind _

theorem readsOperand_variable {s : String} :
    ReadsOperand 0 [(.variable, s)] fun e => ∃ t, t.word = (.variable, s) ∧ e = .variable t := by
  refine readsOperand_of_primary fun inner ts rest hts hrest => ?_
  obtain ⟨t, rfl, hkind, ht⟩ := exists_token hts
  refine ⟨.variable t, ⟨t, ht, rfl⟩, (takes_peek t rest).here ?_⟩
  have hkind : t.kind = .variable := hkind
  simp only [hkind]
  exact (takes_next (by simp [hkind]) hrest).bind _

theorem stops_ends {t : Token} (ht : t.kind ∉ ends) (rest : List Token) :
    Stops ends (t :: rest) := ht

/-- An expression in parentheses. -/
theorem ReadsAs.parenthesised (h : ReadsAs n ws R) :
    ReadsOperand n ((.lparen, "(") :: ws ++ [(.rparen, ")")]) R := by
  intro limit depth ts rest hts hdepth hrest
  obtain ⟨us, vs, rfl, hus, hvs⟩ := List.map_eq_append_iff.mp hts
  obtain ⟨opening, us, rfl, hopening, hus⟩ := List.map_eq_cons_iff.mp hus
  obtain ⟨close, rfl, hclose, -⟩ := exists_token hvs
  have hopening : opening.kind = .lparen := congrArg Prod.fst hopening
  have hclose : close.kind = .rparen := hclose
  have hstop : Stops ends (close :: rest) := stops_ends (by rw [hclose]; decide) rest
  obtain ⟨e, he, htakes⟩ := h limit depth us (close :: rest) hus hdepth hstop
  refine ⟨e, depth, he, Nat.le_add_right _ _, ?_⟩
  have hprimary : Takes (primary (ofDepth limit depth)) (opening :: (us ++ [close])) rest
      (pure e) := by
    refine (takes_peek opening (us ++ [close] ++ rest)).here ?_
    simp only [hopening]
    refine (takes_next (by simp [hopening]) (by simp)).then ?_
    exact Takes.then htakes ((takes_expect hclose (by simp [hclose]) hrest).bind _)
  exact hprimary.bind _

/-- An offset behind an operand. -/
theorem ReadsOperand.access {m : Nat} {vs : List Word} {closing : String} {Q : Expr → Prop}
    (h : ReadsOperand n ws R) (ho : ReadsAs m vs Q) :
    ReadsOperand (n + m + 1) (ws ++ (.lbracket, "[") :: vs ++ [(.rbracket, closing)])
      fun e => ∃ target bracket offset, R target ∧ Q offset ∧ bracket.word = (.lbracket, "[") ∧
        e = .access target bracket offset := by
  intro limit depth ts rest hts hdepth hrest
  obtain ⟨front, zs, rfl, hfront, hzs⟩ := List.map_eq_append_iff.mp hts
  obtain ⟨us, back, rfl, hus, hback⟩ := List.map_eq_append_iff.mp hfront
  obtain ⟨bracket, ys, rfl, hbracket, hys⟩ := List.map_eq_cons_iff.mp hback
  obtain ⟨close, rfl, hclose, -⟩ := exists_token hzs
  have hkind : bracket.kind = .lbracket := congrArg Prod.fst hbracket
  have hclose : close.kind = .rbracket := hclose
  obtain ⟨target, d, htarget, hd, htakes⟩ :=
    h limit depth us (bracket :: (ys ++ close :: rest)) hus (by omega) (List.cons_ne_nil _ _)
  obtain ⟨d, rfl⟩ : ∃ d', d = d' + 1 := ⟨d - 1, by omega⟩
  have hstop : Stops ends (close :: rest) := stops_ends (by rw [hclose]; decide) rest
  obtain ⟨offset, hoffset, hoffsets⟩ := ho limit d ys (close :: rest) hys (by omega) hstop
  refine ⟨.access target bracket offset, d, ⟨target, bracket, offset, htarget, hoffset, hbracket,
    rfl⟩, by omega, ?_⟩
  have hsuffix : Takes (moreSuffixes (ofDepth limit (d + 1)) target) (bracket :: (ys ++ [close]))
      rest (moreSuffixes (ofDepth limit d) (.access target bracket offset)) := by
    refine (takes_peek bracket (ys ++ [close] ++ rest)).here ?_
    rw [if_pos (by rw [hkind]; rfl)]
    show Takes (suffix (ofDepth limit d) target) _ _ _
    refine (takes_next (by simp [hkind]) (by simp)).then ?_
    simp only [hkind]
    exact Takes.then hoffsets ((takes_expect hclose (by simp [hclose]) hrest).bind _)
  have hall : us ++ bracket :: ys ++ [close] = us ++ bracket :: (ys ++ [close]) := by simp
  rw [hall]
  refine Takes.trans ?_ hsuffix
  rwa [List.cons_append, List.append_assoc]

/-! ### Signs, casts and operators -/

/-- What the rule of unary operators reads is an expression, one level further out. -/
theorem readsAs_of_unary
    (h : ∀ limit depth ts rest, ts.map Token.word = ws → n ≤ depth → Stops (goesOn []) rest →
      ∃ e, R e ∧ Takes (Grammar.unary (ofDepth limit depth)) ts rest (pure e)) :
    ReadsAs (n + 1) ws R := by
  intro limit depth ts rest hts hdepth hrest
  obtain ⟨d, rfl⟩ : ∃ d, depth = d + 1 := ⟨depth - 1, by omega⟩
  have hlevel : Stops (goesOn rules.reverse) rest := hrest.mono (List.subset_cons_self _ _)
  obtain ⟨e, he, htakes⟩ :=
    h limit d ts rest hts (Nat.le_of_succ_le_succ hdepth) (hlevel.mono (goesOn_nil_subset _))
  exact ⟨e, he, takes_assignment (takes_level_of_unary htakes _ hlevel) hrest⟩

variable (h : ReadsOperand n ws R) (hstart : ∃ w ∈ ws.head?, w.1 ∈ operandStarts)

include h hstart

/-- An operand is an expression, one level further out. -/
theorem ReadsOperand.expression : ReadsAs (n + 1) ws R :=
  readsAs_of_unary fun limit depth _ _ => h.unary hstart limit depth

/-- A sign in front of an operand. -/
theorem ReadsOperand.signed {w : Word} (hw : w.1 ∈ [TokenKind.minus, .plus, .bang]) :
    ReadsAs (n + 2) (w :: ws) fun e => ∃ op x, op.word = w ∧ R x ∧ e = .unary op x := by
  refine readsAs_of_unary fun limit depth ts rest hts hdepth hrest => ?_
  obtain ⟨op, us, rfl, hop, hus⟩ := List.map_eq_cons_iff.mp hts
  obtain ⟨d, rfl⟩ : ∃ d, depth = d + 1 := ⟨depth - 1, by omega⟩
  obtain ⟨x, hx, htakes⟩ := h.unary hstart limit d hus (Nat.le_of_succ_le_succ hdepth) hrest
  refine ⟨.unary op x, ⟨op, x, hop, hx, rfl⟩, ?_⟩
  subst hop
  exact takes_unary_sign hw htakes (by simp [hrest.ne_nil])

/-- A cast in front of an operand. -/
theorem ReadsOperand.casted {text : String} {type : CastType}
    (htype : CastType.ofText? text = some type) :
    ReadsAs (n + 2) ((.cast, text) :: ws) fun e =>
      ∃ op x, op.word = (.cast, text) ∧ R x ∧ e = .cast op type x := by
  refine readsAs_of_unary fun limit depth ts rest hts hdepth hrest => ?_
  obtain ⟨op, us, rfl, hop, hus⟩ := List.map_eq_cons_iff.mp hts
  obtain ⟨d, rfl⟩ : ∃ d, depth = d + 1 := ⟨depth - 1, by omega⟩
  obtain ⟨x, hx, htakes⟩ := h.unary hstart limit d hus (Nat.le_of_succ_le_succ hdepth) hrest
  refine ⟨.cast op type x, ⟨op, x, hop, hx, rfl⟩, ?_⟩
  have hkind : op.kind = .cast := congrArg Prod.fst hop
  have htext : op.text = text := congrArg Prod.snd hop
  have hne : us ++ rest ≠ [] := by simp [hrest.ne_nil]
  refine (takes_accept_none (by simp [Stops, hkind])).here ?_
  refine (takes_accept (List.mem_singleton.mpr hkind) (by simp [hkind]) hne).then ?_
  simp only [htext, htype]
  exact htakes.bind _

omit h hstart

/-- Some rules that handle an operator read it with operands at its sides. -/
theorem takes_level_operator {limit d floor : Nat} {rs : List Rule} (hladder : Ladder floor rs)
    {l r : Expr} {op : Token} {ts us rest : List Token} (hfloor : floor ≤ op.kind.tightness)
    (hpos : 0 < op.kind.tightness) (hrest : Stops (goesOn rs) rest)
    (hl : ∀ rest', Stops (goesOn []) rest' → rest' = op :: us ++ rest →
      Takes (Grammar.unary (ofDepth limit (d + 1))) ts rest' (pure l))
    (hr : Takes (Grammar.unary (ofDepth limit d)) us rest (pure r)) :
    Takes (level (ofDepth limit (d + 1)) rs) (ts ++ op :: us) rest (pure (.binary l op r)) := by
  have hne : us ++ rest ≠ [] := by simp [hrest.ne_nil]
  have heof : op.kind ≠ .eof := ne_eof_of_tightness hpos
  -- the rules tighter than the operator read the operand on its left and stop there
  have hleft : ∀ {floor' : Nat} {tighter : List Rule}, Ladder floor' tighter →
      op.kind.tightness < floor' →
      Takes (level (ofDepth limit (d + 1)) tighter) ts (op :: us ++ rest) (pure l) := by
    intro floor' tighter htighter hlt
    have hstop := htighter.stops_at hpos hlt (us ++ rest)
    exact takes_level_of_unary (hl _ (hstop.mono (goesOn_nil_subset _)) rfl) _ hstop
  induction hladder with
  | nil => exact absurd hfloor (Nat.not_le_of_lt op.kind.tightness_lt)
  | @left floor ops tighter htable _ _ htighter ih =>
      have hstop := hrest.mono (goesOn_tighter (.left ops) tighter)
      have hops := hrest.mono (kinds_subset_goesOn (.left ops) tighter)
      by_cases heq : op.kind.tightness = floor
      · refine (hleft htighter (by omega)).then ?_
        have hlink : Takes (moreChain (ofDepth limit (d + 1)) ops tighter l) (op :: us) rest
            (moreChain (ofDepth limit d) ops tighter (.binary l op r)) :=
          takes_link ((htable op.kind).mpr heq) heof hne (takes_level_of_unary hr tighter hstop)
        rw [← List.append_nil (op :: us)]
        exact hlink.trans (takes_moreChain tighter _ hops)
      · exact takes_level_cons (ih (by omega) hstop) hops
  | @right floor k tighter htable _ _ htighter ih =>
      have hstop := hrest.mono (goesOn_tighter (.right k) tighter)
      have hops := hrest.mono (kinds_subset_goesOn (.right k) tighter)
      by_cases heq : op.kind.tightness = floor
      · refine (hleft htighter (by omega)).then ?_
        have hop : op.kind = k := (htable op.kind).mpr heq
        refine (takes_accept (List.mem_singleton.mpr hop) heof hne).then ?_
        exact (takes_level_of_unary hr (.right k :: tighter) hrest).bind _
      · exact takes_level_cons (ih (by omega) hstop) hops
  | @ternary floor tighter _ ih =>
      have hstop := hrest.mono (goesOn_tighter .ternary tighter)
      exact takes_level_cons (ih hfloor hstop)
        (hrest.mono (kinds_subset_goesOn .ternary tighter))

variable {vs zs : List Word} {P Q : Expr → Prop} (hp : ReadsOperand n vs P)
  (hpstart : ∃ w ∈ vs.head?, w.1 ∈ operandStarts)

include h hstart hp hpstart

/-- A binary operator between two operands. -/
theorem ReadsOperand.binary {w : Word} (hw : 0 < w.1.tightness) :
    ReadsAs (n + 2) (ws ++ w :: vs) fun e =>
      ∃ l op r, op.word = w ∧ R l ∧ P r ∧ e = .binary l op r := by
  intro limit depth ts rest hts hdepth hrest
  obtain ⟨us, back, rfl, hus, hback⟩ := List.map_eq_append_iff.mp hts
  obtain ⟨op, ys, rfl, hop, hys⟩ := List.map_eq_cons_iff.mp hback
  obtain ⟨d, rfl⟩ : ∃ d, depth = d + 2 := ⟨depth - 2, by omega⟩
  subst hop
  have hlevel : Stops (goesOn rules.reverse) rest := hrest.mono (List.subset_cons_self _ _)
  have hstop : Stops (goesOn []) (op :: ys ++ rest) :=
    Ladder.nil.stops_at hw op.kind.tightness_lt (ys ++ rest)
  obtain ⟨l, hl, hleft⟩ := h.unary hstart limit (d + 1) hus (by omega) hstop
  obtain ⟨r, hr, hright⟩ := hp.unary hpstart limit d hys (by omega)
    (hlevel.mono (goesOn_nil_subset _))
  refine ⟨.binary l op r, ⟨l, op, r, rfl, hl, hr, rfl⟩, ?_⟩
  have htakes := takes_level_operator rules_ladder hw hw hlevel
    (fun _ _ heq => heq ▸ hleft) hright
  exact takes_assignment htakes hrest

/-- An assignment to an operand. -/
theorem ReadsOperand.assigned :
    ReadsAs (n + 2) (ws ++ (.assign, "=") :: vs) fun e =>
      ∃ target op value, op.word = (.assign, "=") ∧ R target ∧ P value ∧
        e = .assign target op value := by
  intro limit depth ts rest hts hdepth hrest
  obtain ⟨us, back, rfl, hus, hback⟩ := List.map_eq_append_iff.mp hts
  obtain ⟨op, ys, rfl, hop, hys⟩ := List.map_eq_cons_iff.mp hback
  obtain ⟨d, rfl⟩ : ∃ d, depth = d + 2 := ⟨depth - 2, by omega⟩
  have hkind : op.kind = .assign := congrArg Prod.fst hop
  have hstop : Stops (goesOn rules.reverse) (op :: (ys ++ rest)) := by
    show op.kind ∉ _
    rw [hkind]
    decide
  obtain ⟨target, htarget, hleft⟩ := h.unary hstart limit (d + 1) hus (by omega)
    (hstop.mono (goesOn_nil_subset _))
  obtain ⟨value, hvalue, hright⟩ := (hp.expression hpstart) limit (d + 1) ys rest hys (by omega)
    hrest
  refine ⟨.assign target op value, ⟨target, op, value, hop, htarget, hvalue, rfl⟩, ?_⟩
  refine Takes.then (takes_level_of_unary hleft _ hstop) ?_
  refine (takes_accept (List.mem_singleton.mpr hkind) (by simp [hkind]) ?_).then (hright.bind _)
  simp [hrest.ne_nil]

/-- A conditional with operands. -/
theorem ReadsOperand.conditional (hq : ReadsOperand n zs Q)
    (hqstart : ∃ w ∈ zs.head?, w.1 ∈ operandStarts) :
    ReadsAs (n + 2) (ws ++ (.question, "?") :: vs ++ (.colon, ":") :: zs) fun e =>
      ∃ c question yes no, question.word = (.question, "?") ∧ R c ∧ P yes ∧ Q no ∧
        e = .ternary c question yes no := by
  intro limit depth ts rest hts hdepth hrest
  obtain ⟨front, back, rfl, hfront, hback⟩ := List.map_eq_append_iff.mp hts
  obtain ⟨us, middle, rfl, hus, hmiddle⟩ := List.map_eq_append_iff.mp hfront
  obtain ⟨question, ys, rfl, hquestion, hys⟩ := List.map_eq_cons_iff.mp hmiddle
  obtain ⟨colon, xs, rfl, hcolon, hxs⟩ := List.map_eq_cons_iff.mp hback
  obtain ⟨d, rfl⟩ : ∃ d, depth = d + 2 := ⟨depth - 2, by omega⟩
  have hkind : question.kind = .question := congrArg Prod.fst hquestion
  have hcolon : colon.kind = .colon := congrArg Prod.fst hcolon
  -- the conditional stands below the words, and looser than all other operators
  obtain ⟨tighter, hrules⟩ : ∃ tighter, rules.reverse
      = [.left [.or], .left [.xor], .left [.and]] ++ .ternary :: tighter := ⟨_, rfl⟩
  have hlevel : Stops (goesOn rules.reverse) rest := hrest.mono (List.subset_cons_self _ _)
  have hternary : Stops (goesOn (.ternary :: tighter)) rest := by
    refine hlevel.mono fun k hk => ?_
    rw [hrules]
    simp only [goesOn, List.mem_cons, List.mem_append, List.flatMap_append] at hk ⊢
    exact hk.imp_right .inr
  have htighter : rules.reverse.drop 4 = tighter := by
    rw [hrules]
    rfl
  have hquestions : Stops (goesOn tighter) (question :: (ys ++ colon :: (xs ++ rest))) := by
    show question.kind ∉ _
    rw [hkind, ← htighter]
    decide
  have hcolons : Stops (goesOn (.ternary :: tighter)) (colon :: (xs ++ rest)) := by
    show colon.kind ∉ _
    rw [hcolon, ← htighter]
    decide
  obtain ⟨c, hc, hcondition⟩ := h.unary hstart limit (d + 1) hus (by omega)
    (hquestions.mono (goesOn_nil_subset _))
  obtain ⟨yes, hyes, hfirst⟩ := hp.unary hpstart limit d hys (by omega)
    (hcolons.mono (goesOn_nil_subset _))
  obtain ⟨no, hno, hsecond⟩ := hq.unary hqstart limit d hxs (by omega)
    (hternary.mono (goesOn_nil_subset _))
  refine ⟨.ternary c question yes no, ⟨c, question, yes, no, hquestion, hc, hyes, hno, rfl⟩, ?_⟩
  have htakes : Takes (level (ofDepth limit (d + 1)) (.ternary :: tighter))
      (us ++ question :: (ys ++ colon :: xs)) rest (pure (.ternary c question yes no)) := by
    refine Takes.then ?_ ?_ (a := c)
    · rw [List.cons_append, List.append_assoc, List.cons_append]
      exact takes_level_of_unary hcondition _ hquestions
    · refine (takes_accept (List.mem_singleton.mpr hkind) (by simp [hkind]) (by simp)).then ?_
      refine Takes.then (takes_level_of_unary hfirst _ hcolons) ?_
      have hne : xs ++ rest ≠ [] := by simp [hrest.ne_nil]
      refine (takes_expect hcolon (by simp [hcolon]) hne).then ?_
      exact (takes_level_of_unary hsecond _ hternary).bind _
  refine takes_assignment ?_ hrest
  rw [List.append_assoc, List.cons_append, hrules]
  have hword : ∀ {k : TokenKind}, k ∈ [TokenKind.or, .xor, .and] → Stops (Rule.left [k]).kinds rest := by
    intro k hk
    refine hlevel.mono fun k' hk' => ?_
    obtain rfl := List.mem_singleton.mp hk'
    revert k'
    decide
  refine takes_level_cons (takes_level_cons (takes_level_cons htakes ?_) ?_) ?_
  · exact hword (by simp)
  · exact hword (by simp)
  · exact hword (by simp)

end Tokens

/-! ### Elements of arrays -/

/-- What is read behind an element. -/
def moreElements (inner : Inner) (most : Nat) (element : Element) : Parser (List Element) := do
  match ← accept [.comma] with
  | none => pure [element]
  | some _ => do
    let rest ← elementItems inner .rbracket most
    pure (element :: rest)

/-- With at least `n` levels to go, tokens with these words are read as an element in brackets of
which `P` holds. -/
def ReadsElement (n : Nat) (ws : List Word) (P : Element → Prop) : Prop :=
  ∀ limit depth most ts rest, ts.map Token.word = ws → n ≤ depth →
    Stops (.doubleArrow :: ends) rest → ∃ element, P element ∧
      Takes (elementItems (ofDepth limit depth) .rbracket (most + 1)) ts rest
        (moreElements (ofDepth limit depth) most element)

section Elements

variable {n : Nat} {ws vs : List Word} {R Q : Expr → Prop}

theorem exists_cons_of_head {ts : List Token} {w : Word} (hts : ts.map Token.word = ws)
    (hw : w ∈ ws.head?) : ∃ t us, ts = t :: us ∧ t.word = w := by
  subst hts
  cases ts with
  | nil => cases hw
  | cons t us =>
      cases hw
      exact ⟨t, us, rfl, rfl⟩

theorem ReadsAs.item (h : ReadsAs n ws R) (hstart : ∃ w ∈ ws.head?, w.1 ≠ .rbracket) :
    ReadsElement n ws fun element => ∃ e, R e ∧ element = .item e := by
  intro limit depth most ts rest hts hdepth hrest
  obtain ⟨w, hw, hkind⟩ := hstart
  obtain ⟨t, us, rfl, rfl⟩ := exists_cons_of_head hts hw
  have hkind : t.kind ≠ .rbracket := hkind
  obtain ⟨e, he, htakes⟩ :=
    h limit depth (t :: us) rest hts hdepth (hrest.mono (List.subset_cons_self _ _))
  refine ⟨.item e, ⟨e, he, rfl⟩, (takes_peek t (us ++ rest)).here ?_⟩
  rw [if_neg hkind]
  exact htakes.last ((takes_accept_none (hrest.mono (by simp))).bind _)

theorem ReadsAs.pair (h : ReadsAs n ws R) (hstart : ∃ w ∈ ws.head?, w.1 ≠ .rbracket)
    (h' : ReadsAs n vs Q) : ReadsElement n (ws ++ (.doubleArrow, "=>") :: vs)
      fun element => ∃ key value, R key ∧ Q value ∧ element = .pair key value := by
  intro limit depth most ts rest hts hdepth hrest
  obtain ⟨us, back, rfl, hus, hback⟩ := List.map_eq_append_iff.mp hts
  obtain ⟨arrow, ys, rfl, harrow, hys⟩ := List.map_eq_cons_iff.mp hback
  have harrow : arrow.kind = .doubleArrow := congrArg Prod.fst harrow
  obtain ⟨w, hw, hkind⟩ := hstart
  obtain ⟨t, us, rfl, rfl⟩ := exists_cons_of_head hus hw
  have hkind : t.kind ≠ .rbracket := hkind
  have hstop : Stops ends (arrow :: (ys ++ rest)) := stops_ends (by rw [harrow]; decide) _
  have hends : Stops ends rest := hrest.mono (List.subset_cons_self _ _)
  obtain ⟨key, hkey, hkeys⟩ := h limit depth (t :: us) _ hus hdepth hstop
  obtain ⟨value, hvalue, hvalues⟩ := h' limit depth ys rest hys hdepth hends
  refine ⟨.pair key value, ⟨key, value, hkey, hvalue, rfl⟩, ?_⟩
  refine (takes_peek t (us ++ arrow :: ys ++ rest)).here ?_
  rw [if_neg hkind]
  refine Takes.then hkeys ?_
  have hne : ys ++ rest ≠ [] := by simp [hrest.ne_nil]
  refine (takes_accept (List.mem_singleton.mpr harrow) (by simp [harrow]) hne).then ?_
  exact hvalues.bind _

/-- The elements of an array, a comma between them. -/
theorem takes_elements {items : List (List Word × (Element → Prop))}
    (h : ∀ x ∈ items, ReadsElement n x.1 x.2) (limit : Nat) {depth most : Nat} {ts : List Token}
    (rest : List Token) {close : Token}
    (hts : ts.map Token.word = List.intercalate [(.comma, ",")] (items.map Prod.fst))
    (hdepth : n ≤ depth) (hclose : close.kind = .rbracket) (hmost : items.length ≤ most) :
    ∃ es, List.Forall₂ (fun x element => x.2 element) items es ∧
      Takes (elementItems (ofDepth limit depth) .rbracket most) ts (close :: rest) (pure es) := by
  have hstop : Stops (.doubleArrow :: ends) (close :: rest) := by
    show close.kind ∉ _
    rw [hclose]
    decide
  induction items generalizing most ts with
  | nil =>
      obtain rfl := List.map_eq_nil_iff.mp hts
      refine ⟨[], .nil, ?_⟩
      cases most with
      | zero => exact takes_nil _ _
      | succ most =>
          refine (takes_peek close rest).here ?_
          rw [if_pos hclose]
          exact takes_nil _ _
  | cons x items ih =>
      obtain ⟨most, rfl⟩ : ∃ m, most = m + 1 := ⟨most - 1, by simp at hmost; omega⟩
      have hx := h x List.mem_cons_self
      cases items with
      | nil =>
          rw [List.map_singleton, List.intercalate_singleton] at hts
          obtain ⟨element, helement, htakes⟩ := hx limit depth most ts _ hts hdepth hstop
          refine ⟨[element], .cons helement .nil, ?_⟩
          rw [← List.append_nil ts]
          exact Takes.trans htakes ((takes_accept_none (by simp [Stops, hclose])).bind _)
      | cons y items =>
          rw [List.map_cons, List.map_cons, List.intercalate_cons_cons] at hts
          obtain ⟨front, ys, rfl, hfront, hys⟩ := List.map_eq_append_iff.mp hts
          obtain ⟨us, back, rfl, hus, hback⟩ := List.map_eq_append_iff.mp hfront
          obtain ⟨comma, rfl, hcomma, -⟩ := exists_token hback
          have hcomma : comma.kind = .comma := hcomma
          obtain ⟨es, hes, hmore⟩ := ih (fun z hz => h z (List.mem_cons_of_mem x hz)) hys
            (Nat.le_of_succ_le_succ hmost)
          have hnext : Stops (.doubleArrow :: ends) (comma :: (ys ++ close :: rest)) := by
            show comma.kind ∉ _
            rw [hcomma]
            decide
          obtain ⟨element, helement, htakes⟩ := hx limit depth most us _ hus hdepth hnext
          refine ⟨element :: es, .cons helement hes, ?_⟩
          rw [List.append_assoc, List.singleton_append]
          refine Takes.trans htakes ?_
          refine (takes_accept (List.mem_singleton.mpr hcomma) (by simp [hcomma]) ?_).then ?_
          · simp
          · exact hmore.bind _

/-- Every element takes a word. -/
theorem length_le_intercalate {items : List (List Word × (Element → Prop))}
    (hne : ∀ x ∈ items, x.1 ≠ []) :
    items.length ≤ (List.intercalate [(.comma, ",")] (items.map Prod.fst)).length := by
  induction items with
  | nil => exact Nat.zero_le _
  | cons x items ih =>
      have hx := List.length_pos_iff.mpr (hne x List.mem_cons_self)
      have hitems := ih fun z hz => hne z (List.mem_cons_of_mem x hz)
      cases items with
      | nil =>
          rw [List.map_singleton, List.intercalate_singleton]
          exact hx
      | cons y items =>
          rw [List.map_cons, List.map_cons, List.intercalate_cons_cons]
          simp only [List.length_append, List.length_cons, List.map_cons] at hitems ⊢
          omega

/-- An array in brackets. -/
theorem readsOperand_array (items : List (List Word × (Element → Prop)))
    (h : ∀ x ∈ items, ReadsElement n x.1 x.2) (hne : ∀ x ∈ items, x.1 ≠ []) :
    ReadsOperand n ((.lbracket, "[") :: List.intercalate [(.comma, ",")] (items.map Prod.fst)
        ++ [(.rbracket, "]")])
      fun e => ∃ opening es, opening.word = (.lbracket, "[") ∧
        List.Forall₂ (fun x element => x.2 element) items es ∧ e = .array opening es := by
  intro limit depth ts rest hts hdepth hrest
  obtain ⟨front, zs, rfl, hfront, hzs⟩ := List.map_eq_append_iff.mp hts
  obtain ⟨opening, ys, rfl, hopening, hys⟩ := List.map_eq_cons_iff.mp hfront
  obtain ⟨close, rfl, hclose, -⟩ := exists_token hzs
  have hclose : close.kind = .rbracket := hclose
  have hkind : opening.kind = .lbracket := congrArg Prod.fst hopening
  have hlength : items.length ≤ (ys ++ close :: rest).length := by
    have hwords := length_le_intercalate hne
    rw [← hys, List.length_map] at hwords
    rw [List.length_append]
    omega
  obtain ⟨es, hes, htakes⟩ :=
    takes_elements h limit rest hys hdepth hclose hlength
  refine ⟨.array opening es, depth, ⟨opening, es, hopening, hes, rfl⟩, Nat.le_add_right _ _, ?_⟩
  have helements : Takes (arrayElements (ofDepth limit depth) .rbracket "',' or ']'")
      (ys ++ [close]) rest (pure es) := by
    intro s hs
    have hmost : s.ahead.length + 1 = (ys ++ close :: rest).length := by
      rw [List.append_assoc] at hs
      exact congrArg List.length hs
    have hread : Takes (elementItems (ofDepth limit depth) .rbracket (s.ahead.length + 1) >>=
        fun es => expect .rbracket "',' or ']'" >>= fun _ => pure es) (ys ++ [close]) rest
          (pure es) := by
      rw [hmost]
      exact Takes.then htakes ((takes_expect hclose (by simp [hclose]) hrest).bind _)
    exact hread s hs
  have hprimary : Takes (primary (ofDepth limit depth)) (opening :: (ys ++ [close])) rest
      (pure (.array opening es)) := by
    refine (takes_peek opening (ys ++ [close] ++ rest)).here ?_
    simp only [hkind]
    exact (takes_next (by simp [hkind]) (by simp)).then (helements.bind _)
  exact hprimary.bind _

end Elements

end Grammar

end GuardedExpr
