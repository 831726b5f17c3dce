/-
# Nesting — how many levels an evaluation needs

`e.FitsIn depth` says that evaluating `e` never goes more than `depth` levels deep,
whatever the values are: every operand that a node may visit fits in one level
less.  Such an evaluation never meets the limit (`evaluateWithin_fits`).  Where a
tree does not fit, the limit may still be out of reach, because a branch is not
taken; but the first operand of a node is evaluated in any case, so a limit met
there is met by the whole node (`runOn_node_of_leading`).
-/
import GuardedExpr.Proofs.NodeContract

namespace GuardedExpr

namespace Expr

/-- The evaluation goes at most `depth` levels deep. -/
def FitsIn : (depth : Nat) → Expr → Prop
  | 0, _ => False
  | depth + 1, e => ∀ x ∈ e.visited, FitsIn depth x

theorem eq_of_mem_computedName {name x : Expr} (h : x ∈ name.computedName) : x = name := by
  unfold computedName at h
  split at h
  · cases h
  · exact List.mem_singleton.mp h

/-- What is visited is directly below the node. -/
theorem visited_subset_operands (e : Expr) : e.visited ⊆ e.operands := by
  intro x hx
  cases e with
  | assign => cases hx
  | instanceOf value op cls =>
      rcases List.mem_cons.mp hx with rfl | hx
      · exact List.mem_cons_self
      · simp [operands, eq_of_mem_computedName hx]
  | property target op isStatic name =>
      rcases List.mem_append.mp hx with hx | hx
      · have : x = target := by
          cases isStatic with
          | true => exact eq_of_mem_computedName hx
          | false => exact List.mem_singleton.mp hx
        simp [operands, this]
      · simp [operands, eq_of_mem_computedName hx]
  | methodCall target op isStatic name args =>
      rcases List.mem_append.mp hx with hx | hx
      · rcases List.mem_append.mp hx with hx | hx
        · have : x = target := by
            cases isStatic with
            | true => exact eq_of_mem_computedName hx
            | false => exact List.mem_singleton.mp hx
          simp [operands, this]
        · simp [operands, eq_of_mem_computedName hx]
      · exact List.mem_cons_of_mem _ (List.mem_cons_of_mem _ hx)
  | call callee paren args =>
      rcases List.mem_append.mp hx with hx | hx
      · simp [operands, eq_of_mem_computedName hx]
      · exact List.mem_cons_of_mem _ hx
  | interpolation opening parts => exact (List.mem_filter.mp hx).1
  | _ => exact hx

theorem fitsIn_of_operands {depth : Nat} {e : Expr} (h : ∀ x ∈ e.operands, x.FitsIn depth) :
    e.FitsIn (depth + 1) := by
  intro x hx
  exact h x (visited_subset_operands e hx)

theorem FitsIn.mono {depth depth' : Nat} (hd : depth ≤ depth') {e : Expr} (h : e.FitsIn depth) :
    e.FitsIn depth' := by
  induction depth generalizing depth' e with
  | zero => exact h.elim
  | succ d ih =>
      obtain ⟨d', rfl⟩ : ∃ d', depth' = d' + 1 := ⟨depth' - 1, by omega⟩
      intro x hx
      exact ih (Nat.le_of_succ_le_succ hd) (h x hx)

end Expr

/-! ## Fitting trees stay below the limit -/

/-- Nothing is required but that no limit is met. -/
def Contract.unlimited : Contract := ⟨fun _ => True, fun _ => True, fun f => f.isLimit = false⟩

theorem Contract.unlimited_admits (env : Environment) : Contract.unlimited.Admits env :=
  ⟨fun _ _ => trivial, fun _ hf => hf⟩

theorem evaluateWithin_fits (env : Environment) (limit depth : Nat) (e : Expr)
    (h : e.FitsIn depth) : Contract.unlimited.Holds (e.evaluateWithin env limit depth) := by
  induction depth generalizing e with
  | zero => exact h.elim
  | succ depth ih =>
      have hadmits := Contract.unlimited_admits env
      refine Contract.holds_node hadmits.nodes trivial (fun _ _ => trivial) (hadmits.operator e)
        (fun _ _ t _ => hadmits.literal t) ?_
      intro x hx
      exact ih x (h x hx)

/-! ## The operand that is evaluated first -/

namespace Expr

/-- The operand that the evaluation of a node starts with, whatever the values are. -/
def leading? : Expr → Option Expr
  | .unary _ x | .cast _ _ x | .binary x _ _ | .ternary x _ _ _ | .instanceOf x _ _
  | .access x _ _ | .property x _ false _ => some x
  | .array _ (.item x :: _) | .array _ (.pair x _ :: _) => some x
  | .interpolation _ (x :: _) => if x.fragment?.isNone then some x else none
  | _ => none

end Expr

/-- An error of the first operand is the error of the node. -/
theorem runOn_node_of_leading {env : Environment} {eval : Expr → EvalM Value} {e x : Expr}
    (hx : e.leading? = some x) {past calls : List Call} {err : EvalError}
    (herr : (eval x).runOn past = (.error err, calls)) :
    (Eval.node env eval e).runOn past = (.error err, calls) := by
  cases e with
  | unary op operand =>
      cases hx
      exact EvalM.runOn_bind_error herr
  | cast op type operand =>
      cases hx
      exact EvalM.runOn_bind_error herr
  | binary left op right =>
      cases hx
      unfold Eval.node Eval.binary
      dsimp only
      split <;> exact EvalM.runOn_bind_error herr
  | ternary condition question yes no =>
      cases hx
      exact EvalM.runOn_bind_error herr
  | instanceOf value op cls =>
      cases hx
      exact EvalM.runOn_bind_error herr
  | access target bracket offset =>
      cases hx
      exact EvalM.runOn_bind_error herr
  | property target op isStatic name =>
      cases isStatic with
      | true => cases hx
      | false =>
          cases hx
          exact EvalM.runOn_bind_error herr
  | interpolation opening ps =>
      rcases ps with _ | ⟨p, rest⟩
      · cases hx
      · simp only [Expr.leading?] at hx
        split at hx
        · next hpart =>
            cases hx
            have hpart : (Eval.part env eval x).runOn past = (.error err, calls) := by
              unfold Eval.part
              rw [Option.isNone_iff_eq_none.mp hpart]
              exact EvalM.runOn_bind_error herr
            exact EvalM.runOn_bind_error (EvalM.runOn_bind_error hpart)
        · cases hx
  | array opening es =>
      refine EvalM.runOn_bind_error ?_
      rcases es with _ | ⟨⟨value⟩ | ⟨key, value⟩, rest⟩
      · cases hx
      · cases hx
        exact EvalM.runOn_bind_error herr
      · cases hx
        exact EvalM.runOn_bind_error herr
  | _ => cases hx

/-! ## Trees that do not fit -/

/-- With fewer than `levels` levels left, the evaluation meets the limit. -/
def Overflows (env : Environment) (limit : Nat) (e : Expr) (levels : Nat) : Prop :=
  ∀ depth < levels, ∀ past, ∃ l calls,
    (e.evaluateWithin env limit depth).runOn past = (.error ⟨.stackOverflow limit, l⟩, calls)

theorem overflows_one (env : Environment) (limit : Nat) (e : Expr) : Overflows env limit e 1 := by
  intro depth hdepth past
  obtain rfl : depth = 0 := by omega
  exact ⟨_, _, rfl⟩

/-- A node needs one level more than the operand that it starts with. -/
theorem Overflows.of_leading {env : Environment} {limit levels : Nat} {e x : Expr}
    (h : Overflows env limit x levels) (hx : e.leading? = some x) :
    Overflows env limit e (levels + 1) := by
  intro depth hdepth past
  cases depth with
  | zero => exact ⟨_, _, rfl⟩
  | succ depth =>
      obtain ⟨l, calls, herr⟩ := h depth (by omega) past
      exact ⟨l, calls, runOn_node_of_leading hx herr⟩

end GuardedExpr
