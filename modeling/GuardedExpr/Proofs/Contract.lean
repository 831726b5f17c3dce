/-
# Contracts — what an evaluation may ask of the host, and how it may fail

An evaluation is known by its result and by the calls that it puts on record.  A
contract says which calls may be put on record and which errors may end the
evaluation; it is kept by sequencing, so that a computation obeys a contract as
soon as its single calls and failures do.

`Contract.Holds` is stated for every record that the computation may start from.
This is what lets a nested evaluation, which starts from the record of what came
before it, be treated like a whole one.
-/
import GuardedExpr.Eval.Evaluate

namespace GuardedExpr

namespace EvalM

variable {α β : Type}

/-- The result, and the record behind the computation, when it starts from the record `past`. -/
def runOn (x : EvalM α) (past : List Call) : Except EvalError α × List Call := x.run.run past

theorem runOn_bind_ok {x : EvalM α} {f : α → EvalM β} {past calls : List Call} {a : α}
    (h : x.runOn past = (.ok a, calls)) : (x >>= f).runOn past = (f a).runOn calls := by
  have hx : x.run.run past = (.ok a, calls) := h
  simp only [runOn, ExceptT.run_bind, StateT.run_bind, hx]
  rfl

theorem runOn_bind_error {x : EvalM α} {f : α → EvalM β} {past calls : List Call} {e : EvalError}
    (h : x.runOn past = (.error e, calls)) : (x >>= f).runOn past = (.error e, calls) := by
  have hx : x.run.run past = (.error e, calls) := h
  simp only [runOn, ExceptT.run_bind, StateT.run_bind, hx]
  rfl

end EvalM

/-- What a computation may do: the calls it may put on record, where its errors may stand and
what may cause them. -/
structure Contract where
  call : Call → Prop
  place : Location → Prop
  fault : EvalFault → Prop

namespace Contract

variable {α β : Type} (k : Contract)

/-- The computation only adds permitted calls to the record, whatever the record, and ends in
permitted errors only. -/
def Holds (x : EvalM α) : Prop :=
  ∀ past, ∃ calls, (x.runOn past).2 = calls ++ past ∧ (∀ c ∈ calls, k.call c) ∧
    ∀ e, (x.runOn past).1 = .error e → k.place e.location ∧ k.fault e.fault

theorem holds_pure (a : α) : k.Holds (pure a) := by
  intro past
  refine ⟨[], rfl, by simp, ?_⟩
  intro e herr
  cases herr

variable {k}

theorem holds_fail {l : Location} {fault : EvalFault} (hl : k.place l) (hf : k.fault fault) :
    k.Holds (EvalM.fail l fault : EvalM α) := by
  intro past
  refine ⟨[], rfl, by simp, ?_⟩
  intro e herr
  cases herr
  exact ⟨hl, hf⟩

theorem holds_ask {env : Environment} {c : Call} (hc : k.call c) : k.Holds (env.ask c) := by
  intro past
  refine ⟨[c], rfl, by simpa using hc, ?_⟩
  intro e herr
  cases herr

theorem holds_bind {x : EvalM α} {f : α → EvalM β} (hx : k.Holds x) (hf : ∀ a, k.Holds (f a)) :
    k.Holds (x >>= f) := by
  intro past
  obtain ⟨calls, hrec, hcalls, herr⟩ := hx past
  cases hrun : x.runOn past with
  | mk result after =>
      rw [hrun] at hrec herr
      cases result with
      | error e =>
          rw [EvalM.runOn_bind_error hrun]
          exact ⟨calls, hrec, hcalls, fun e' he' => herr e' (by cases he'; rfl)⟩
      | ok a =>
          rw [EvalM.runOn_bind_ok hrun]
          obtain ⟨more, hrec', hmore, herr'⟩ := hf a after
          refine ⟨more ++ calls, ?_, ?_, herr'⟩
          · rw [hrec', show after = calls ++ past from hrec, List.append_assoc]
          · intro c hc
            rcases List.mem_append.mp hc with h | h
            · exact hmore c h
            · exact hcalls c h

theorem holds_someOrFail {l : Location} {fault : EvalFault} (hl : k.place l) (hf : k.fault fault)
    (o : Option α) : k.Holds (EvalM.someOrFail l fault o) := by
  cases o with
  | none => exact holds_fail hl hf
  | some a => exact holds_pure k a

theorem holds_orFail {ε : Type} {l : Location} {fault : ε → EvalFault} (hl : k.place l)
    (hf : ∀ e, k.fault (fault e)) (r : Except ε α) : k.Holds (EvalM.orFail l fault r) := by
  cases r with
  | error e => exact holds_fail hl (hf e)
  | ok a => exact holds_pure k a

end Contract

end GuardedExpr
