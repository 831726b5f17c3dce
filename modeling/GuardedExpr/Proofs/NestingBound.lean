/-
# The nesting of a parsed tree

The parser counts a level for every step further in and for every repetition on the
left, but gives the repetitions back when their chain ends.  A chain is therefore
free for the chain around it: with `depth` levels to go, each of the twelve rules
that repeat on the left may put `depth` nodes on top of what the rules below it
have built, and each of the three rules that group to the right one more.  This is
`expressionBound`, and in closed form `2 * m * (3 * m - 1)` levels where the limit
is `m` (`expressionBound_eq`).
-/
import Mathlib.Algebra.GroupWithZero.Nat
import GuardedExpr.Proofs.Nesting
import GuardedExpr.Proofs.ParserResult

namespace GuardedExpr

open GuardedExpr.Parser

namespace Grammar

/-! ## Bounds -/

/-- The nodes that one rule puts on top of the operand on its left. -/
def Rule.growth (depth : Nat) : Rule → Nat
  | .left _ => depth
  | .right _ | .ternary => min depth 1

/-- The levels that an expression needs, where the parser has `depth` levels to go. -/
def expressionBound : (depth : Nat) → Nat
  | 0 => 0
  | depth + 1 => max 4 (expressionBound depth + 1) + 12 * depth + 3 * min depth 1

/-- Those of an operand with its suffixes, behind which `depth` levels are to go. The four are a
variable that is embedded with a negative offset, which is not counted. -/
def operandBound (depth : Nat) : Nat := max 4 (expressionBound depth + 1) + depth

/-- Those of the rules of a list, over unary operands. -/
def levelBound : (depth : Nat) → List Rule → Nat
  | 0, _ => 0
  | depth + 1, rs => operandBound depth + depth + (rs.map (Rule.growth depth)).sum

theorem expressionBound_eq_levelBound :
    ∀ depth, expressionBound depth = levelBound depth rules.reverse
  | 0 => rfl
  | depth + 1 => by
      simp [expressionBound, levelBound, operandBound, rules, Rule.growth]
      omega

theorem levelBound_cons (depth : Nat) (r : Rule) (rs : List Rule) :
    levelBound (depth + 1) (r :: rs) = levelBound (depth + 1) rs + r.growth depth := by
  simp only [levelBound, List.map_cons, List.sum_cons]
  omega

theorem expressionBound_pos (n : Nat) :
    expressionBound (n + 1) = 2 * (n + 1) * (3 * n + 2) := by
  induction n with
  | zero => rfl
  | succ n ih =>
      have h4 : 2 * 2 ≤ 2 * (n + 1) * (3 * n + 2) := Nat.mul_le_mul (by omega) (by omega)
      rw [expressionBound, ih]
      grind

theorem expressionBound_eq : ∀ m : Nat, expressionBound m = 2 * m * (3 * m - 1)
  | 0 => rfl
  | n + 1 => by rw [expressionBound_pos, show 3 * (n + 1) - 1 = 3 * n + 2 by omega]

theorem expressionBound_le_succ (depth : Nat) :
    expressionBound depth ≤ expressionBound (depth + 1) := by
  rw [expressionBound]
  omega

theorem operandBound_le_succ (depth : Nat) : operandBound depth ≤ operandBound (depth + 1) := by
  have := expressionBound_le_succ depth
  simp only [operandBound]
  omega

theorem expressionBound_pred_le : ∀ depth, expressionBound (depth - 1) ≤ expressionBound depth
  | 0 => Nat.le_refl _
  | depth + 1 => expressionBound_le_succ depth

theorem operandBound_pred_le : ∀ depth, operandBound (depth - 1) ≤ operandBound depth
  | 0 => Nat.le_refl _
  | depth + 1 => operandBound_le_succ depth

theorem Rule.growth_le_succ (depth : Nat) (r : Rule) : r.growth depth ≤ r.growth (depth + 1) := by
  cases r <;> simp only [Rule.growth] <;> omega

theorem Rule.growth_le (depth : Nat) (r : Rule) : r.growth depth ≤ depth := by
  cases r <;> simp only [Rule.growth] <;> omega

theorem levelBound_le_succ (rs : List Rule) :
    ∀ depth, levelBound depth rs ≤ levelBound (depth + 1) rs
  | 0 => Nat.zero_le _
  | depth + 1 => by
      induction rs with
      | nil =>
          have := operandBound_le_succ depth
          simp only [levelBound, List.map_nil, List.sum_nil]
          omega
      | cons r rs ih =>
          have := r.growth_le_succ depth
          rw [levelBound_cons, levelBound_cons]
          omega

/-- The rules one level further in need less than those of one rule fewer here. -/
theorem levelBound_cons_le (r : Rule) (rs : List Rule) :
    ∀ depth, levelBound depth (r :: rs) ≤ levelBound (depth + 1) rs
  | 0 => Nat.zero_le _
  | depth + 1 => by
      rw [levelBound_cons]
      have hr := r.growth_le depth
      induction rs with
      | nil =>
          simp only [levelBound, operandBound]
          rw [expressionBound]
          simp only [List.map_nil, List.sum_nil]
          omega
      | cons r' rs ih =>
          have := r'.growth_le_succ depth
          rw [levelBound_cons, levelBound_cons]
          omega

/-! ## The parsers keep the bounds -/

/-- What the parsers with `depth` levels to go build fits in the bounds for `depth`; what goes on
with a given tree puts no more than `depth` nodes on top of it. -/
structure Inner.Bounded (inner : Inner) (depth : Nat) : Prop where
  level : ∀ rs, Yields (inner.level rs) (Expr.FitsIn (levelBound depth rs))
  assignment : Yields inner.assignment (Expr.FitsIn (expressionBound depth))
  chain : ∀ ops {tighter e bound} op, e.FitsIn bound → levelBound depth tighter ≤ bound →
    Yields (inner.chain ops tighter e op) (Expr.FitsIn (bound + depth))
  classOperand : ∀ {e bound} op, e.FitsIn bound → operandBound (depth - 1) ≤ bound →
    Yields (inner.classOperand e op) (Expr.FitsIn (bound + depth))
  suffix : ∀ {e bound}, e.FitsIn bound → expressionBound (depth - 1) ≤ bound →
    Yields (inner.suffix e) (Expr.FitsIn (bound + depth))

theorem fitsIn_literal (t : Token) (n : Nat) : (Expr.literal t).FitsIn (n + 1) :=
  Expr.fitsIn_of_operands (by simp [Expr.operands])

theorem fitsIn_variable (t : Token) (n : Nat) : (Expr.variable t).FitsIn (n + 1) :=
  Expr.fitsIn_of_operands (by simp [Expr.operands])

/-! ### Embedded variables -/

theorem embeddedOffset_bounded : Yields embeddedOffset (Expr.FitsIn 2) := by
  refine yields_then fun t => ?_
  split
  · exact yields_then fun digits => yields_pure (Expr.fitsIn_of_operands (by
      simpa [Expr.operands] using fitsIn_literal digits 0))
  · exact yields_pure (fitsIn_literal t 1)
  · exact yields_pure (fitsIn_literal t 1)
  · exact yields_pure (fitsIn_variable t 1)
  · exact yields_fail

theorem embeddedVariable_bounded (var : Token) : Yields (embeddedVariable var) (Expr.FitsIn 3) := by
  have hvar := fitsIn_variable var 1
  refine yields_then fun bracket => ?_
  cases bracket with
  | some bracket =>
      refine yields_bind embeddedOffset_bounded fun offset hoffset => yields_then fun _ => ?_
      exact yields_pure (Expr.fitsIn_of_operands (by simpa [Expr.operands] using ⟨hvar, hoffset⟩))
  | none =>
      refine yields_then fun op => ?_
      cases op with
      | some op =>
          refine yields_then fun name => yields_pure (Expr.fitsIn_of_operands ?_)
          simpa [Expr.operands] using ⟨hvar, fitsIn_literal name 1⟩
      | none => exact yields_pure (fitsIn_variable var 2)

/-- An operand on the right of a rule is read one level further in, so it is no higher than the
one on the left. -/
theorem fitsIn_of_inner_level {depth : Nat} {r : Rule} {tighter : List Rule}
    (hr : r.growth depth = min depth 1) {right : Expr}
    (hright : right.FitsIn (levelBound depth (r :: tighter))) :
    right.FitsIn (levelBound (depth + 1) tighter) ∧
      levelBound (depth + 1) (r :: tighter) = levelBound (depth + 1) tighter + 1 := by
  refine ⟨hright.mono (levelBound_cons_le r tighter depth), ?_⟩
  rw [levelBound_cons, hr]
  cases depth with
  | zero => exact hright.elim
  | succ d => omega

/-! ### The innermost level -/

theorem yields_tooDeep {α : Type} (limit : Nat) (Q : α → Prop) : Yields (tooDeep limit) Q := by
  intro s a s' hr
  cases hr

theorem exhausted_bounded (limit : Nat) : (exhausted limit).Bounded 0 where
  level _ := yields_tooDeep limit _
  assignment := yields_tooDeep limit _
  chain _ _ _ _ _ _ _ := yields_tooDeep limit _
  classOperand _ _ _ := yields_tooDeep limit _
  suffix _ _ := yields_tooDeep limit _

section Around

variable {inner : Inner} {depth : Nat} (h : inner.Bounded depth)
include h

/-! ### Lists -/

theorem argumentItems_bounded (most : Nat) : Yields (argumentItems inner most)
    fun args => ∀ x ∈ args.map Argument.value, x.FitsIn (expressionBound depth) := by
  induction most with
  | zero => exact yields_pure (by simp)
  | succ most ih =>
      refine yields_then fun t => ?_
      split
      · exact yields_pure (by simp)
      · refine yields_then fun mark => yields_bind h.assignment fun value hvalue => ?_
        refine yields_optional (yields_pure ?_) fun comma => ?_
        · simpa [Argument.value] using hvalue
        refine yields_bind ih fun rest hrest => yields_pure ?_
        intro x hx
        rcases List.mem_cons.mp hx with rfl | hx
        · exact hvalue
        · exact hrest x hx

theorem arguments_bounded : Yields (arguments inner)
    fun args => ∀ x ∈ args.map Argument.value, x.FitsIn (expressionBound depth) := by
  intro s
  exact yields_bind (argumentItems_bounded h _) (fun args hargs =>
    yields_then fun _ => yields_pure hargs) s

omit h in
theorem fitsIn_cons {el : Element} {es : List Element} {n : Nat}
    (hel : ∀ x ∈ el.operands, x.FitsIn n)
    (hes : ∀ x ∈ es.flatMap Element.operands, x.FitsIn n) :
    ∀ x ∈ (el :: es).flatMap Element.operands, x.FitsIn n := by
  intro x hx
  rw [List.flatMap_cons] at hx
  exact (List.mem_append.mp hx).elim (hel x) (hes x)

theorem elementItems_bounded (close : TokenKind) (most : Nat) :
    Yields (elementItems inner close most)
      fun es => ∀ x ∈ es.flatMap Element.operands, x.FitsIn (expressionBound depth) := by
  induction most with
  | zero => exact yields_pure (by simp)
  | succ most ih =>
      refine yields_then fun t => ?_
      split
      · exact yields_pure (by simp)
      · refine yields_bind h.assignment fun first hfirst => yields_then fun arrow => ?_
        cases arrow with
        | none =>
            have hitem : ∀ x ∈ (Element.item first).operands, x.FitsIn (expressionBound depth) := by
              simpa [Element.operands] using hfirst
            refine yields_optional (yields_pure (by simpa using hitem)) fun comma => ?_
            exact yields_bind ih fun rest hrest => yields_pure (fitsIn_cons hitem hrest)
        | some _ =>
            refine yields_bind h.assignment fun value hvalue => ?_
            have hpair : ∀ x ∈ (Element.pair first value).operands,
                x.FitsIn (expressionBound depth) := by
              simpa [Element.operands] using ⟨hfirst, hvalue⟩
            refine yields_optional (yields_pure (by simpa using hpair)) fun comma => ?_
            exact yields_bind ih fun rest hrest => yields_pure (fitsIn_cons hpair hrest)

theorem arrayElements_bounded (close : TokenKind) (expected : String) :
    Yields (arrayElements inner close expected)
      fun es => ∀ x ∈ es.flatMap Element.operands, x.FitsIn (expressionBound depth) := by
  intro s
  exact yields_bind (elementItems_bounded h close _) (fun es hes =>
    yields_then fun _ => yields_pure hes) s

/-! ### Operands -/

theorem partItems_bounded (most : Nat) : Yields (partItems inner most)
    fun ps => ∀ x ∈ ps, x.FitsIn (max 3 (expressionBound depth)) := by
  induction most with
  | zero => exact yields_pure (by simp)
  | succ most ih =>
      refine yields_then fun t => ?_
      split
      · refine yields_then fun _ => yields_bind ih fun rest hrest => ?_
        exact yields_pure (List.forall_mem_cons.mpr
          ⟨(fitsIn_literal t 2).mono (Nat.le_max_left 3 _), hrest⟩)
      · refine yields_then fun _ => yields_bind (embeddedVariable_bounded t) fun part hpart => ?_
        refine yields_bind ih fun rest hrest => ?_
        exact yields_pure (List.forall_mem_cons.mpr ⟨hpart.mono (Nat.le_max_left 3 _), hrest⟩)
      · refine yields_then fun _ => yields_bind h.assignment fun part hpart => ?_
        refine yields_then fun _ => yields_bind ih fun rest hrest => ?_
        exact yields_pure (List.forall_mem_cons.mpr ⟨hpart.mono (Nat.le_max_right 3 _), hrest⟩)
      · exact yields_pure (by simp)

theorem interpolation_bounded (opening : Token) :
    Yields (interpolation inner opening) (Expr.FitsIn (max 4 (expressionBound depth + 1))) := by
  intro s
  refine yields_bind (partItems_bounded h _) (fun ps hps => yields_then fun _ => yields_pure ?_) s
  exact (Expr.fitsIn_of_operands (e := .interpolation opening ps) hps).mono (by omega)

theorem primary_bounded :
    Yields (primary inner) (Expr.FitsIn (max 4 (expressionBound depth + 1))) := by
  have hleaf : 3 + 1 ≤ max 4 (expressionBound depth + 1) := Nat.le_max_left 4 _
  have hnode : expressionBound depth + 1 ≤ max 4 (expressionBound depth + 1) := Nat.le_max_right 4 _
  refine yields_then fun t => ?_
  split
  iterate 5 exact yields_then fun _ => yields_pure ((fitsIn_literal t 3).mono hleaf)
  · exact yields_then fun _ => yields_pure ((fitsIn_variable t 3).mono hleaf)
  · refine yields_then fun _ => yields_bind h.assignment fun e he => yields_then fun _ => ?_
    exact yields_pure (he.mono (by omega))
  · exact yields_then fun _ => interpolation_bounded h t
  · refine yields_then fun _ => yields_bind (arrayElements_bounded h _ _) fun es hes => ?_
    exact yields_pure ((Expr.fitsIn_of_operands (e := .array t es) hes).mono hnode)
  · refine yields_then fun _ => yields_then fun _ => ?_
    refine yields_bind (arrayElements_bounded h _ _) fun es hes => ?_
    exact yields_pure ((Expr.fitsIn_of_operands (e := .array t es) hes).mono hnode)
  · refine yields_then fun _ => yields_then fun follower => ?_
    split
    · exact yields_pure ((fitsIn_literal t 3).mono hleaf)
    · exact yields_unexpected
  · exact yields_unexpected

theorem memberName_bounded (op : Token) (isStatic : Bool) {bound : Nat}
    (hb : expressionBound depth ≤ bound + 1) :
    Yields (memberName inner op isStatic) (Expr.FitsIn (bound + 1)) := by
  refine yields_then fun t => ?_
  split
  · exact yields_then fun _ => yields_pure (fitsIn_literal t bound)
  · split
    · exact yields_then fun _ => yields_pure (fitsIn_variable t bound)
    · split
      · refine yields_then fun _ => yields_bind h.assignment fun name hname => ?_
        refine yields_then fun _ => ?_
        exact yields_pure (hname.mono hb)
      · exact yields_unexpected

theorem member_bounded {target : Expr} (op : Token) (isStatic : Bool) {bound : Nat}
    (ht : target.FitsIn (bound + 1)) (hb : expressionBound depth ≤ bound + 1) :
    Yields (member inner target op isStatic) (Expr.FitsIn (bound + 2)) := by
  refine yields_bind (memberName_bounded h op isStatic hb) fun name hname => yields_then fun t => ?_
  cases t with
  | some _ =>
      refine yields_bind (arguments_bounded h) fun args hargs => yields_pure ?_
      refine Expr.fitsIn_of_operands fun x hx => ?_
      rcases List.mem_cons.mp hx with rfl | hx
      · exact ht
      · rcases List.mem_cons.mp hx with rfl | hx
        · exact hname
        · exact (hargs x hx).mono hb
  | none => exact yields_pure (Expr.fitsIn_of_operands (by simpa [Expr.operands] using ⟨ht, hname⟩))

theorem moreSuffixes_bounded {e : Expr} {bound : Nat} (he : e.FitsIn bound)
    (hb : expressionBound (depth - 1) ≤ bound) :
    Yields (moreSuffixes inner e) (Expr.FitsIn (bound + depth)) := by
  refine yields_then fun t => ?_
  split
  · exact h.suffix he hb
  · exact yields_pure (he.mono (Nat.le_add_right _ _))

theorem suffix_bounded {e : Expr} {bound : Nat} (he : e.FitsIn bound)
    (hb : expressionBound depth ≤ bound) :
    Yields (suffix inner e) (Expr.FitsIn (bound + (depth + 1))) := by
  obtain _ | bound := bound
  · exact he.elim
  have hrest : ∀ whole : Expr, whole.FitsIn (bound + 2) →
      Yields (moreSuffixes inner whole) (Expr.FitsIn (bound + 1 + (depth + 1))) := by
    intro whole hwhole
    have hd := expressionBound_pred_le depth
    rw [show bound + 1 + (depth + 1) = bound + 2 + depth by omega]
    exact moreSuffixes_bounded h hwhole (by omega)
  refine yields_then fun t => ?_
  dsimp only
  split
  · exact yields_bind (member_bounded h t true he hb) hrest
  · exact yields_bind (member_bounded h t false he hb) hrest
  · refine yields_bind h.assignment fun offset hoffset => yields_then fun _ => hrest _ ?_
    exact Expr.fitsIn_of_operands (by simpa [Expr.operands] using ⟨he, hoffset.mono hb⟩)
  · refine yields_bind (arguments_bounded h) fun args hargs => hrest _ ?_
    refine Expr.fitsIn_of_operands fun x hx => ?_
    rcases List.mem_cons.mp hx with rfl | hx
    · exact he
    · exact (hargs x hx).mono hb

theorem operand_bounded : Yields (operand inner) (Expr.FitsIn (operandBound depth)) := by
  have hd := expressionBound_pred_le depth
  exact yields_bind (primary_bounded h) fun e he => moreSuffixes_bounded h he (by omega)

theorem moreInstanceOf_bounded {e : Expr} {bound : Nat} (he : e.FitsIn bound)
    (hb : operandBound (depth - 1) ≤ bound) :
    Yields (moreInstanceOf inner e) (Expr.FitsIn (bound + depth)) := by
  refine yields_then fun op => ?_
  cases op with
  | some op => exact h.classOperand op he hb
  | none => exact yields_pure (he.mono (Nat.le_add_right _ _))

theorem classOperand_bounded {e : Expr} {bound : Nat} (op : Token) (he : e.FitsIn bound)
    (hb : operandBound depth ≤ bound) :
    Yields (classOperand inner e op) (Expr.FitsIn (bound + (depth + 1))) := by
  have hpos : 0 + 1 ≤ bound := by
    have : 4 ≤ operandBound depth := Nat.le_add_right_of_le (Nat.le_max_left 4 _)
    omega
  have hrest : ∀ cls : Expr, cls.FitsIn bound →
      Yields (moreInstanceOf inner (.instanceOf e op cls)) (Expr.FitsIn (bound + (depth + 1))) := by
    intro cls hcls
    have hd := operandBound_pred_le depth
    have hnode : (Expr.instanceOf e op cls).FitsIn (bound + 1) :=
      Expr.fitsIn_of_operands (by simpa [Expr.operands] using ⟨he, hcls⟩)
    rw [show bound + (depth + 1) = bound + 1 + depth by omega]
    exact moreInstanceOf_bounded h hnode (by omega)
  refine yields_then fun name => ?_
  cases name with
  | some name => exact hrest _ ((fitsIn_literal name 0).mono hpos)
  | none => exact yields_bind (operand_bounded h) fun cls hcls => hrest cls (hcls.mono hb)

theorem instanceOf_bounded : Yields (instanceOf inner) (Expr.FitsIn (operandBound depth + depth)) :=
  yields_bind (operand_bounded h) fun _ he =>
    moreInstanceOf_bounded h he (operandBound_pred_le depth)

/-! ### Operators -/

theorem unary_bounded : Yields (unary inner) (Expr.FitsIn (levelBound (depth + 1) [])) := by
  have hnode : ∀ e : Expr, e.FitsIn (levelBound depth []) →
      e.FitsIn (operandBound depth + depth - 1) := by
    intro e he
    refine he.mono ?_
    cases depth with
    | zero => exact Nat.zero_le _
    | succ d =>
        have := operandBound_le_succ d
        simp only [levelBound, List.map_nil, List.sum_nil]
        omega
  have hpos : operandBound depth + depth - 1 + 1 = levelBound (depth + 1) [] := by
    have : 4 ≤ operandBound depth := Nat.le_add_right_of_le (Nat.le_max_left 4 _)
    simp only [levelBound, List.map_nil, List.sum_nil]
    omega
  rw [← hpos]
  refine yields_then fun sign => ?_
  cases sign with
  | some op =>
      refine yields_bind (h.level []) fun e he => yields_pure (Expr.fitsIn_of_operands ?_)
      simpa [Expr.operands] using hnode e he
  | none =>
      refine yields_then fun op => ?_
      cases op with
      | none =>
          rw [hpos]
          exact instanceOf_bounded h
      | some op =>
          dsimp only
          split
          · refine yields_bind (h.level []) fun e he => yields_pure (Expr.fitsIn_of_operands ?_)
            simpa [Expr.operands] using hnode e he
          · exact yields_fail

theorem moreChain_bounded (ops : List TokenKind) {tighter : List Rule} {e : Expr} {bound : Nat}
    (he : e.FitsIn bound) (hb : levelBound depth tighter ≤ bound) :
    Yields (moreChain inner ops tighter e) (Expr.FitsIn (bound + depth)) := by
  refine yields_then fun op => ?_
  cases op with
  | some op => exact h.chain ops op he hb
  | none => exact yields_pure (he.mono (Nat.le_add_right _ _))

theorem level_bounded (rs : List Rule) :
    Yields (level inner rs) (Expr.FitsIn (levelBound (depth + 1) rs)) := by
  induction rs with
  | nil => exact unary_bounded h
  | cons r tighter ih =>
      cases r with
      | left ops =>
          rw [levelBound_cons]
          refine yields_bind ih fun e he => ?_
          exact moreChain_bounded h ops he (levelBound_le_succ tighter depth)
      | right op =>
          refine yields_bind ih fun e he => yields_then fun t => ?_
          cases t with
          | none =>
              rw [levelBound_cons]
              exact yields_pure (he.mono (Nat.le_add_right _ _))
          | some t =>
              refine yields_bind (h.level _) fun right hright => yields_pure ?_
              obtain ⟨hright, hlevel⟩ := fitsIn_of_inner_level rfl hright
              rw [hlevel]
              exact Expr.fitsIn_of_operands (by simpa [Expr.operands] using ⟨he, hright⟩)
      | ternary =>
          refine yields_bind ih fun e he => yields_then fun t => ?_
          cases t with
          | none =>
              rw [levelBound_cons]
              exact yields_pure (he.mono (Nat.le_add_right _ _))
          | some t =>
              refine yields_bind (h.level _) fun yes hyes => yields_then fun _ => ?_
              refine yields_bind (h.level _) fun no hno => yields_pure ?_
              obtain ⟨hyes, hlevel⟩ := fitsIn_of_inner_level rfl hyes
              obtain ⟨hno, -⟩ := fitsIn_of_inner_level rfl hno
              rw [hlevel]
              exact Expr.fitsIn_of_operands (by simpa [Expr.operands] using ⟨he, hyes, hno⟩)

theorem chain_bounded (ops : List TokenKind) {tighter : List Rule} {e : Expr} {bound : Nat}
    (op : Token) (he : e.FitsIn bound) (hb : levelBound (depth + 1) tighter ≤ bound) :
    Yields (chain inner ops tighter e op) (Expr.FitsIn (bound + (depth + 1))) := by
  have hd := levelBound_le_succ tighter depth
  refine yields_bind (level_bounded h tighter) fun right hright => ?_
  have hnode : (Expr.binary e op right).FitsIn (bound + 1) :=
    Expr.fitsIn_of_operands (by simpa [Expr.operands] using ⟨he, hright.mono hb⟩)
  rw [show bound + (depth + 1) = bound + 1 + depth by omega]
  exact moreChain_bounded h ops hnode (by omega)

theorem assignment_bounded :
    Yields (assignment inner) (Expr.FitsIn (expressionBound (depth + 1))) := by
  rw [expressionBound_eq_levelBound]
  unfold assignment
  generalize rules.reverse = rs
  refine yields_bind (level_bounded h rs) fun target ht => yields_then fun t => ?_
  cases t with
  | none => exact yields_pure ht
  | some op =>
      -- an assignment is refused without a look at its operands
      refine yields_then fun value => yields_pure ?_
      have hnone : (Expr.assign target op value).FitsIn (0 + 1) := by
        intro x hx
        cases hx
      refine hnone.mono ?_
      simp only [levelBound, operandBound]
      omega

theorem around_bounded : (around inner).Bounded (depth + 1) where
  level := level_bounded h
  assignment := assignment_bounded h
  chain ops _ _ _ op := chain_bounded h ops op
  classOperand op := classOperand_bounded h op
  suffix := suffix_bounded h

end Around

theorem ofDepth_bounded (limit depth : Nat) : (ofDepth limit depth).Bounded depth := by
  induction depth with
  | zero => exact exhausted_bounded limit
  | succ depth ih => exact around_bounded ih

end Grammar

/-- A parsed tree fits in the bound for the limit that it was parsed with. -/
theorem Expr.fitsIn_of_parse {limit : Nat} {source : String} {t : Expr}
    (h : Expr.parse limit source = .ok t) : t.FitsIn (Grammar.expressionBound limit) := by
  unfold Expr.parse at h
  split at h
  · cases h
  · next ts hts =>
      unfold Expr.ofTokens Expr.ofStream at h
      split at h
      · cases h
      · next e s hread =>
          split at h
          · cases h
            exact (Grammar.ofDepth_bounded limit limit).assignment _ _ _ hread
          · cases h

end GuardedExpr
