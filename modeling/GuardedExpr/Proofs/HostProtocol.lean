/-
# The protocol of host calls

The calls of one evaluation are well bracketed.  Use is made of something only
behind the question whether it is there, answered with yes; between the two stand
the calls that evaluating the arguments puts on record, and nothing else.  An
answer that refuses (it is not there, or the host fails) ends the evaluation: at
most the class of the object is asked for, and the error is the one of the refusal.

`Licensed` says why a call may be made, `Refused` which answers refuse.  `Obeys` is
the protocol for a stretch of the record, given the result of the computation that
put it there; stretches are put together as computations are sequenced
(`obeys_append`), because a stretch with a result that is no error holds no refusal.
-/
import GuardedExpr.Proofs.Composition
import GuardedExpr.Proofs.Nesting

namespace GuardedExpr

/-- The first expression stands in the second, at any depth. -/
inductive Expr.Within : Expr → Expr → Prop
  | refl (e : Expr) : Within e e
  | operand {x y e : Expr} : y ∈ e.operands → Within x y → Within x e

/-- The call makes use of something. -/
def Call.isUse : Call → Bool
  | .getProperty .. | .invokeMethod .. | .constantValue .. | .invokeStaticMethod ..
  | .invokeFunction .. => true
  | _ => false

/-- Arguments are passed on to it. -/
def Offer.takesArguments : Offer → Bool
  | .property .. | .constant .. => false
  | _ => true

/-- Why a call may be made when the record is `before`, in an evaluation of `e` that started when
the record was `past`. The question that a licence goes back to is one of this evaluation, so
`past` lies below it. -/
inductive Licensed (env : Environment) (limit : Nat) (e : Expr) (past : List Call) :
    List Call → Call → Prop
  /-- A property is read right behind the question whether it is there. -/
  | property {o : Handle} {n : String} {rest : List Call} :
      past <:+ rest → env.host rest (.hasProperty o n) = true →
      Licensed env limit e past (.hasProperty o n :: rest) (.getProperty o n)
  /-- So is a constant. -/
  | constant {cls n : String} {rest : List Call} :
      past <:+ rest → env.host rest (.hasConstant cls n) = true →
      Licensed env limit e past (.hasConstant cls n :: rest) (.constantValue cls n)
  /-- Methods and functions are invoked behind the question and the calls of the arguments that
  the node passes. -/
  | invocation {x : Expr} {offer : Offer} {args : List Argument} {vs : List Value} {depth : Nat}
      {rest before : List Call} :
      x.Within e → x.Requests offer args → offer.takesArguments = true →
      past <:+ rest → offer.isThere env.host rest = true →
      (Eval.arguments (Expr.evaluateWithin env limit depth) args).runOn (offer.query :: rest)
        = (.ok vs, before) →
      Licensed env limit e past before (offer.use vs)
  /-- A question needs no licence. -/
  | question {before : List Call} {c : Call} : c.isUse = false → Licensed env limit e past before c

/-- The host refuses a call that is made when the record is `before`: the offer that it is about,
and the fault, in which the class is still to be named. -/
inductive Refused (host : Host) (before : List Call) :
    Call → Offer → (String → EvalFault) → Prop
  | query {offer : Offer} : offer.isThere host before = false →
      Refused host before offer.query offer fun cls => offer.undefined cls
  | use {offer : Offer} {vs : List Value} {err : HostError} :
      offer.result host before vs = .error err →
      Refused host before (offer.use vs) offer fun cls => .host (offer.callee cls) err

/-- The questions that follow a refusal: the class of the object, if it is about one. -/
def Offer.ownerCalls (offer : Offer) : List Call := offer.owner?.toList.map .classNameOf

theorem Call.isUse_of_isPlain {c : Call} (h : c.isPlain = true) : c.isUse = false := by
  cases c <;> first | rfl | cases h

namespace Offer

theorem isUse_query (offer : Offer) : offer.query.isUse = false := by cases offer <;> rfl

theorem isPlain_query (offer : Offer) : offer.query.isPlain = false := by cases offer <;> rfl

theorem isPlain_use (offer : Offer) (vs : List Value) : (offer.use vs).isPlain = false := by
  cases offer <;> rfl

theorem isPlain_of_mem_ownerCalls {offer : Offer} {c : Call} (h : c ∈ offer.ownerCalls) :
    c.isPlain = true := by
  obtain ⟨o, -, rfl⟩ := List.mem_map.mp h
  rfl

end Offer

/-! ## Licences and refusals -/

theorem Expr.Within.trans {x y e : Expr} (h : x.Within y) (h' : y.Within e) : x.Within e := by
  induction h' with
  | refl => exact h
  | operand hmem _ ih => exact .operand hmem ih

section Licences

variable {env : Environment} {limit : Nat} {e e' : Expr} {past past' before : List Call} {c : Call}

theorem Licensed.mono (h : Licensed env limit e past before c) (hpast : past' <:+ past)
    (he : e.Within e') : Licensed env limit e' past' before c := by
  cases h with
  | property hrest hthere => exact .property (hpast.trans hrest) hthere
  | constant hrest hthere => exact .constant (hpast.trans hrest) hthere
  | invocation hx hreq htakes hrest hthere hrun =>
      exact .invocation (hx.trans he) hreq htakes (hpast.trans hrest) hthere hrun
  | question hc => exact .question hc

end Licences

namespace Refused

variable {host : Host} {before : List Call} {offer offer' : Offer} {fault : String → EvalFault}

theorem isPlain_eq_false {c : Call} (h : Refused host before c offer fault) :
    c.isPlain = false := by
  cases h with
  | query => exact offer.isPlain_query
  | use => exact offer.isPlain_use _

/-- A question is refused by the answer no, and by nothing else. -/
theorem of_query (h : Refused host before offer.query offer' fault) :
    offer' = offer ∧ offer.isThere host before = false ∧
      fault = fun cls => offer.undefined cls := by
  generalize hq : offer.query = q at h
  cases h with
  | query habsent =>
      obtain rfl : offer' = offer := by cases offer <;> cases offer' <;> cases hq <;> rfl
      exact ⟨rfl, habsent, rfl⟩
  | use => cases offer <;> cases offer' <;> cases hq

/-- A use is refused by an error of the host, and by nothing else. -/
theorem of_use {vs : List Value} (h : Refused host before (offer.use vs) offer' fault) :
    offer' = offer ∧ ∃ err, offer.result host before vs = .error err ∧
      fault = fun cls => .host (offer.callee cls) err := by
  generalize hq : offer.use vs = q at h
  cases h with
  | query => cases offer <;> cases offer' <;> cases hq
  | use herr => cases offer <;> cases offer' <;> cases hq <;> exact ⟨rfl, _, herr, rfl⟩

end Refused

/-! ## Stretches of the record -/

/-- The calls obey the protocol when the record before them is `base` and the computation that
makes them ends in `result`. -/
def Obeys (env : Environment) (limit : Nat) (e : Expr) (past base : List Call) {α : Type}
    (calls : List Call) (result : Except EvalError α) : Prop :=
  ∀ after c before, calls = after ++ c :: before →
    Licensed env limit e past (before ++ base) c ∧
    ∀ offer fault, Refused env.host (before ++ base) c offer fault →
      after = offer.ownerCalls ∧
      ∃ l, result = .error ⟨fault (offer.ownerClass env.host (c :: (before ++ base))), l⟩

section Stretches

variable {env : Environment} {limit : Nat} {e e' : Expr} {past past' base calls more : List Call}
  {α β : Type} {result : Except EvalError α}

theorem Obeys.mono (h : Obeys env limit e past base calls result) (hpast : past' <:+ past)
    (he : e.Within e') : Obeys env limit e' past' base calls result := by
  intro after c before hsplit
  obtain ⟨hlicence, hrefused⟩ := h after c before hsplit
  exact ⟨hlicence.mono hpast he, hrefused⟩

/-- An error goes through unchanged. -/
theorem Obeys.error {err : EvalError}
    (h : Obeys env limit e past base calls (.error err : Except EvalError α)) :
    Obeys env limit e past base calls (.error err : Except EvalError β) := by
  intro after c before hsplit
  obtain ⟨hlicence, hrefused⟩ := h after c before hsplit
  refine ⟨hlicence, fun offer fault hr => ?_⟩
  obtain ⟨hafter, l, hl⟩ := hrefused offer fault hr
  exact ⟨hafter, l, by cases hl; rfl⟩

theorem obeys_plain (h : ∀ c ∈ calls, c.isPlain = true) :
    Obeys env limit e past base calls result := by
  intro after c before hsplit
  have hc : c.isPlain = true := h c (by simp [hsplit])
  refine ⟨.question (Call.isUse_of_isPlain hc), fun offer fault hr => ?_⟩
  rw [hr.isPlain_eq_false] at hc
  cases hc

/-- Behind a stretch without an error the record goes on. -/
theorem obeys_append {a : β}
    (h : Obeys env limit e past base calls (.ok a : Except EvalError β))
    (hmore : Obeys env limit e past (calls ++ base) more result) :
    Obeys env limit e past base (more ++ calls) result := by
  -- in the first stretch no call is refused
  have hfirst : ∀ after c before, calls = after ++ c :: before →
      Licensed env limit e past (before ++ base) c ∧
        ∀ offer fault, ¬ Refused env.host (before ++ base) c offer fault := by
    intro after c before hsplit
    obtain ⟨hlicence, hrefused⟩ := h after c before hsplit
    refine ⟨hlicence, fun offer fault hr => ?_⟩
    obtain ⟨-, l, hl⟩ := hrefused offer fault hr
    cases hl
  intro after c before hsplit
  rcases List.append_eq_append_iff.mp hsplit with ⟨front, -, hcalls⟩ | ⟨back, hback, hcalls⟩
  · obtain ⟨hlicence, hnone⟩ := hfirst front c before hcalls
    exact ⟨hlicence, fun offer fault hr => absurd hr (hnone offer fault)⟩
  · rcases back with _ | ⟨c', back⟩
    · obtain ⟨hlicence, hnone⟩ := hfirst [] c before hcalls.symm
      exact ⟨hlicence, fun offer fault hr => absurd hr (hnone offer fault)⟩
    · rw [List.cons_append, List.cons.injEq] at hcalls
      obtain ⟨rfl, rfl⟩ := hcalls
      rw [List.append_assoc]
      exact hmore after c back hback

/-- A call and the plain questions behind it. -/
theorem obeys_call {c : Call} (hplain : ∀ q ∈ more, q.isPlain = true)
    (hlicence : Licensed env limit e past base c)
    (hrefused : ∀ offer fault, Refused env.host base c offer fault →
      more = offer.ownerCalls ∧
      ∃ l, result = .error ⟨fault (offer.ownerClass env.host (c :: base)), l⟩) :
    Obeys env limit e past base (more ++ [c]) result := by
  intro after c' before hsplit
  rcases List.append_eq_append_iff.mp hsplit with ⟨front, hfront, hc⟩ | ⟨back, hback, hc⟩
  · obtain ⟨rfl, rfl, rfl⟩ : front = [] ∧ c' = c ∧ before = [] := by
      rcases front with _ | ⟨_, _ | _⟩ <;> simp_all
    rw [List.append_nil] at hfront
    exact hfront ▸ ⟨hlicence, hrefused⟩
  · rcases back with _ | ⟨q, back⟩
    · obtain ⟨rfl, rfl⟩ : c' = c ∧ before = [] := by simpa using hc
      rw [List.append_nil] at hback
      exact hback ▸ ⟨hlicence, hrefused⟩
    · obtain ⟨rfl, rfl⟩ : c' = q ∧ before = back ++ [c] := by simpa using hc
      have hq : c'.isPlain = true := hplain c' (by simp [hback])
      refine ⟨.question (Call.isUse_of_isPlain hq), fun offer fault hr => ?_⟩
      rw [hr.isPlain_eq_false] at hq
      cases hq

end Stretches

/-! ## Computations -/

/-- From the record `base` a run goes on by a stretch that obeys the protocol. -/
def GoesOn (env : Environment) (limit : Nat) (e : Expr) (past base : List Call) {α : Type}
    (run : Except EvalError α × List Call) : Prop :=
  ∃ calls, run.2 = calls ++ base ∧ Obeys env limit e past base calls run.1

/-- The computation goes on in this way from any record. -/
def Follows (env : Environment) (limit : Nat) (e : Expr) {α : Type} (x : EvalM α) : Prop :=
  ∀ past, GoesOn env limit e past past (x.runOn past)

section Computations

open EvalM Eval

variable {env : Environment} {limit : Nat} {e e' : Expr} {α β : Type}

theorem goesOn_behind {past base calls : List Call} {a : β} {run : Except EvalError α × List Call}
    (h : Obeys env limit e past base calls (.ok a : Except EvalError β))
    (hrun : GoesOn env limit e past (calls ++ base) run) : GoesOn env limit e past base run := by
  obtain ⟨more, hrec, hobeys⟩ := hrun
  exact ⟨more ++ calls, by rw [hrec, List.append_assoc], obeys_append h hobeys⟩

theorem Follows.mono {x : EvalM α} (h : Follows env limit e x) (he : e.Within e') :
    Follows env limit e' x := by
  intro past
  obtain ⟨calls, hrec, hobeys⟩ := h past
  exact ⟨calls, hrec, hobeys.mono (List.suffix_refl past) he⟩

theorem follows_plain {x : EvalM α} (h : Contract.plain.Holds x) : Follows env limit e x := by
  intro past
  obtain ⟨calls, hrec, hplain, -⟩ := h past
  exact ⟨calls, hrec, obeys_plain hplain⟩

/-- A computation goes on from the one before it, unless that ends in an error. -/
theorem goesOn_bind {x : EvalM α} {f : α → EvalM β} {past base : List Call}
    (hx : GoesOn env limit e past base (x.runOn base))
    (hf : ∀ a after, x.runOn base = (.ok a, after) →
      GoesOn env limit e past after ((f a).runOn after)) :
    GoesOn env limit e past base ((x >>= f).runOn base) := by
  obtain ⟨calls, hrec, hobeys⟩ := hx
  cases hrun : x.runOn base with
  | mk result after =>
      rw [hrun] at hrec hobeys
      obtain rfl : after = calls ++ base := hrec
      cases result with
      | error err =>
          rw [runOn_bind_error hrun]
          exact ⟨calls, rfl, hobeys.error⟩
      | ok a =>
          rw [runOn_bind_ok hrun]
          exact goesOn_behind hobeys (hf a _ hrun)

theorem Follows.goesOn {x : EvalM α} (h : Follows env limit e x) {past base : List Call}
    (hpast : past <:+ base) : GoesOn env limit e past base (x.runOn base) := by
  obtain ⟨calls, hrec, hobeys⟩ := h base
  exact ⟨calls, hrec, hobeys.mono hpast (.refl e)⟩

theorem follows_bind {x : EvalM α} {f : α → EvalM β} (hx : Follows env limit e x)
    (hf : ∀ a, Follows env limit e (f a)) : Follows env limit e (x >>= f) := by
  intro past
  refine goesOn_bind (hx past) fun a after hrun => (hf a).goesOn ?_
  obtain ⟨calls, hrec, -⟩ := hx past
  rw [hrun] at hrec
  exact ⟨calls, hrec.symm⟩

theorem follows_arguments {eval : Expr → EvalM Value} {args : List Argument}
    (h : ∀ x ∈ args.map Argument.value, Follows env limit e (eval x)) :
    Follows env limit e (arguments eval args) := by
  induction args with
  | nil => exact follows_plain (Contract.holds_pure _ _)
  | cons arg rest ih =>
      obtain ⟨byRef, value⟩ := arg
      cases byRef with
      | true => exact follows_plain (Contract.holds_fail trivial rfl)
      | false =>
          refine follows_bind (h value List.mem_cons_self) fun v => ?_
          refine follows_bind (ih fun x hx => h x (List.mem_cons_of_mem value hx)) fun vs => ?_
          exact follows_plain (Contract.holds_pure _ _)

/-! ## Requests -/

theorem runOn_askWhether (offer : Offer) (past : List Call) :
    (askWhether env offer).runOn past
      = (.ok (offer.isThere env.host past), offer.query :: past) := by
  cases offer <;> rfl

theorem runOn_makeUse (offer : Offer) (vs : List Value) (past : List Call) :
    (makeUse env vs offer).runOn past
      = (.ok (offer.result env.host past vs), offer.use vs :: past) := by
  cases offer <;> rfl

theorem runOn_askOwnerClass (offer : Offer) (past : List Call) :
    (askOwnerClass env offer).runOn past
      = (.ok (offer.ownerClass env.host past), offer.ownerCalls ++ past) := by
  cases offer <;> rfl

/-- A refusal ends the evaluation behind the question for the class. -/
theorem runOn_refusal (offer : Offer) (l : Location) (fault : String → EvalFault)
    (past : List Call) :
    ((do fail l (fault (← askOwnerClass env offer))) : EvalM α).runOn past
      = (.error ⟨fault (offer.ownerClass env.host past), l⟩, offer.ownerCalls ++ past) :=
  runOn_bind_ok (runOn_askOwnerClass offer past)

/-- What a node asked for and was promised, it may use behind its arguments. -/
theorem licensed_use {x : Expr} {offer : Offer} {args : List Argument} {vs : List Value}
    {depth : Nat} {past before : List Call} (hx : x.Within e) (hreq : x.Requests offer args)
    (hthere : offer.isThere env.host past = true)
    (hrun : (arguments (Expr.evaluateWithin env limit depth) args).runOn (offer.query :: past)
      = (.ok vs, before)) :
    Licensed env limit e past before (offer.use vs) := by
  have hinvocation : offer.takesArguments = true →
      Licensed env limit e past before (offer.use vs) := fun htakes =>
    .invocation hx hreq htakes (List.suffix_refl past) hthere hrun
  cases hreq with
  | property | entry =>
      cases hrun
      exact .property (List.suffix_refl past) hthere
  | constant =>
      cases hrun
      exact .constant (List.suffix_refl past) hthere
  | method | staticMethod | call => exact hinvocation rfl

/-- The question, when the answer is yes. -/
theorem obeys_query {offer : Offer} {past base : List Call} {a : α}
    (hthere : offer.isThere env.host base = true) :
    Obeys env limit e past base [offer.query] (.ok a : Except EvalError α) := by
  show Obeys env limit e past base ([] ++ [offer.query]) _
  refine obeys_call (by simp) (.question offer.isUse_query) fun offer' fault hr => ?_
  obtain ⟨-, habsent, -⟩ := hr.of_query
  rw [hthere] at habsent
  cases habsent

/-- The use, when `finish` is what follows on the answer. -/
theorem goesOn_makeUse {offer : Offer} {vs : List Value} {past base : List Call} (used : Location)
    (hlicence : Licensed env limit e past base (offer.use vs)) {finish : HostResult → EvalM Value}
    (hok : ∀ v, finish (.ok v) = pure v)
    (herror : ∀ err, finish (.error err) =
      do fail used (.host (offer.callee (← askOwnerClass env offer)) err)) :
    GoesOn env limit e past base ((makeUse env vs offer >>= finish).runOn base) := by
  rw [runOn_bind_ok (runOn_makeUse offer vs base)]
  cases hresult : offer.result env.host base vs with
  | ok v =>
      rw [hok]
      refine ⟨[] ++ [offer.use vs], rfl, ?_⟩
      refine obeys_call (by simp) hlicence fun offer' fault hr => ?_
      obtain ⟨-, err, herr, -⟩ := hr.of_use
      rw [hresult] at herr
      cases herr
  | error err =>
      rw [herror, runOn_refusal offer used (fun cls => .host (offer.callee cls) err)]
      refine ⟨offer.ownerCalls ++ [offer.use vs], by simp, ?_⟩
      refine obeys_call (fun q => Offer.isPlain_of_mem_ownerCalls) hlicence ?_
      intro offer' fault hr
      obtain ⟨rfl, err', herr, rfl⟩ := hr.of_use
      obtain rfl : err = err' := by simpa [hresult] using herr
      exact ⟨rfl, used, rfl⟩

theorem follows_request {depth : Nat} {x : Expr} {offer : Offer} {args : List Argument}
    (absent used : Location) (hx : x.Within e) (hreq : x.Requests offer args)
    (h : ∀ y ∈ args.map Argument.value, Follows env limit e (y.evaluateWithin env limit depth)) :
    Follows env limit e
      (request env (Expr.evaluateWithin env limit depth) offer absent used args) := by
  intro past
  unfold request
  rw [runOn_bind_ok (runOn_askWhether offer past)]
  cases hthere : offer.isThere env.host past with
  | false =>
      rw [if_neg Bool.false_ne_true, runOn_refusal offer absent fun cls => offer.undefined cls]
      refine ⟨offer.ownerCalls ++ [offer.query], by simp, ?_⟩
      refine obeys_call (fun q => Offer.isPlain_of_mem_ownerCalls) (.question offer.isUse_query)
        fun offer' fault hr => ?_
      obtain ⟨rfl, -, rfl⟩ := hr.of_query
      exact ⟨rfl, absent, rfl⟩
  | true =>
      rw [if_pos rfl]
      have hquery : Obeys env limit e past past [offer.query] (.ok () : Except EvalError Unit) :=
        obeys_query hthere
      refine goesOn_behind hquery ?_
      refine goesOn_bind ((follows_arguments h).goesOn (List.suffix_cons offer.query past)) ?_
      intro vs before hrun
      exact goesOn_makeUse used (licensed_use hx hreq hthere hrun) (fun _ => rfl) fun _ => rfl

/-! ## Evaluations -/

theorem Eval.Composed.follows {depth : Nat} {f : (Expr → EvalM Value) → EvalM α}
    (hf : Composed env e f)
    (h : ∀ x ∈ e.visited, Follows env limit e (x.evaluateWithin env limit depth)) :
    Follows env limit e (f (Expr.evaluateWithin env limit depth)) := by
  induction hf with
  | own hplain => exact follows_plain hplain
  | operand hx => exact h _ hx
  | request absent used hreq =>
      exact follows_request absent used (.refl e) hreq fun y hy => h y (hreq.visited hy)
  | bind _ _ ihf ihg => exact follows_bind ihf ihg

theorem follows_evaluateWithin (depth : Nat) (e : Expr) :
    Follows env limit e (e.evaluateWithin env limit depth) := by
  induction depth generalizing e with
  | zero =>
      intro past
      exact ⟨[], rfl, obeys_plain (by simp)⟩
  | succ depth ih =>
      refine (composed_node env e).follows fun x hx => ?_
      exact (ih x).mono (.operand (e.visited_subset_operands hx) (.refl x))

end Computations

/-- **The host is asked by protocol.** The calls of an evaluation come on top of the record, and
each one is licensed by the record that it is made on: a property or a constant is read right
behind the question whether it is there, answered with yes; a method or a function is invoked
behind that question and the calls of the arguments that are passed to it.  If the host refuses,
the evaluation ends with the error that names the refusal, and at most the class of the object is
asked for before it does. -/
theorem host_is_asked_by_protocol (env : Environment) (limit : Nat) (e : Expr)
    (past : List Call) :
    ∃ calls, ((e.evaluate env limit).runOn past).2 = calls ++ past ∧
      ∀ after c before, calls = after ++ c :: before →
        Licensed env limit e past (before ++ past) c ∧
        ∀ offer fault, Refused env.host (before ++ past) c offer fault →
          after = offer.ownerCalls ∧ ∃ l, ((e.evaluate env limit).runOn past).1
            = .error ⟨fault (offer.ownerClass env.host (c :: (before ++ past))), l⟩ :=
  follows_evaluateWithin limit e past

/-- A host with one function, which is none of arguments. -/
def strictEnvironment : Environment where
  context := .empty
  denied := .empty
  host := fun _ c =>
    match c with
    | .functionExists name => name == "f"
    | .invokeFunction _ [] => .ok .null
    | .invokeFunction name args => .error (.arity name "0" args.length)
    | c => c.absentAnswer

/-- The expression `f(f())`. -/
def callOfCall : Expr :=
  .call (.literal ⟨.identifier, "f", ⟨0, 1, 1, 1⟩⟩) ⟨.lparen, "(", ⟨1, 1, 1, 2⟩⟩
    [.mk false (.call (.literal ⟨.identifier, "f", ⟨2, 1, 1, 3⟩⟩) ⟨.lparen, "(", ⟨3, 1, 1, 4⟩⟩ [])]

/-- The call of the argument stands between the question for the outer function and its use, which
the host refuses. -/
theorem outer_call_is_licensed_and_refused :
    Licensed strictEnvironment 8 callOfCall []
      [.invokeFunction "f" [], .functionExists "f", .functionExists "f"]
      (.invokeFunction "f" [.null]) ∧
    ∃ l, ((callOfCall.evaluate strictEnvironment 8).runOn []).1
      = .error ⟨.host (.function "f") (.arity "f" "0" 1), l⟩ := by
  obtain ⟨calls, hrec, hcalls⟩ := host_is_asked_by_protocol strictEnvironment 8 callOfCall []
  have hrun : ((callOfCall.evaluate strictEnvironment 8).runOn []).2
      = [.invokeFunction "f" [.null], .invokeFunction "f" [], .functionExists "f",
          .functionExists "f"] := rfl
  rw [hrun, List.append_nil] at hrec
  obtain ⟨hlicence, hrefused⟩ := hcalls [] _ _ hrec.symm
  have herr : (Offer.function "f").result strictEnvironment.host
      [.invokeFunction "f" [], .functionExists "f", .functionExists "f"] [.null]
      = .error (.arity "f" "0" 1) := rfl
  exact ⟨hlicence, (hrefused _ _ (.use herr)).2⟩

end GuardedExpr
