/-
# Skipped operands — what a run passes over has no part in it

A `Slot` is a node with one of its operands left out.  What the evaluation of the
node does before it comes to that operand does not depend on what stands there;
`Slot.approach` is this part of the evaluation, and its answer is whether the
evaluation then comes to the operand or passes over it.  It passes over

  * the right operand of a logical operator, or of the one for null, that its left
    operand decides;
  * the branch of a conditional that is not taken;
  * the class that a value which is no object is tested for;
  * the arguments of a call that is denied, or of a member or function that the
    host does not have;
  * both sides of an assignment.

A path is a list of slots from the root of a tree on.  `Skipped` follows a run down
a path, from each slot to the operand in it with the record of the calls that the
run has made by then, to a slot whose operand is passed over; the path may go on inside.

Two things of an operand are looked at without evaluating it: where it stands, and
whether it is a bare word or a fragment of a string.  Along a path both are those
of a node that stays (`Slot.fill_looksLike`).
-/
import GuardedExpr.Proofs.CutOff

namespace GuardedExpr

/-! ## Outcomes that agree -/

/-- The fault without the text of the expression that it quotes. -/
def EvalFault.withoutText : EvalFault → EvalFault
  | .interpolationPart _ kind => .interpolationPart "" kind
  | fault => fault

def EvalError.withoutText (e : EvalError) : EvalError := ⟨e.fault.withoutText, e.location⟩

namespace EvalM

variable {α β : Type}

/-- The same value, or errors that are the same in this view, and the same calls on record. -/
def AgreeBy {δ : Type} (view : EvalError → δ) (r r' : Except EvalError α × List Call) : Prop :=
  r.1.mapError view = r'.1.mapError view ∧ r.2 = r'.2

theorem agreeBy_bind {δ : Type} {view : EvalError → δ} {x y : EvalM α} {f g : α → EvalM β}
    {past : List Call} (h : AgreeBy view (x.runOn past) (y.runOn past))
    (hf : ∀ a calls, x.runOn past = (.ok a, calls) →
      AgreeBy view ((f a).runOn calls) ((g a).runOn calls)) :
    AgreeBy view ((x >>= f).runOn past) ((y >>= g).runOn past) := by
  obtain ⟨hresult, hcalls⟩ := h
  rcases hx : x.runOn past with ⟨e | a, calls⟩ <;> rcases hy : y.runOn past with ⟨e' | b, calls'⟩
  · rw [hx, hy] at hresult hcalls
    rw [runOn_bind_error hx, runOn_bind_error hy]
    exact ⟨congrArg Except.error (Except.error.inj hresult), hcalls⟩
  · rw [hx, hy] at hresult
    cases hresult
  · rw [hx, hy] at hresult
    cases hresult
  · rw [hx, hy] at hresult hcalls
    obtain rfl : a = b := Except.ok.inj hresult
    obtain rfl : calls = calls' := hcalls
    rw [runOn_bind_ok hx, runOn_bind_ok hy]
    exact hf a calls hx

/-- The same value, or the same error but for the text of an expression that it quotes, and the
same calls on record. -/
def Agree (r r' : Except EvalError α × List Call) : Prop :=
  r.1.mapError EvalError.withoutText = r'.1.mapError EvalError.withoutText ∧ r.2 = r'.2

theorem Agree.refl (r : Except EvalError α × List Call) : Agree r r := ⟨rfl, rfl⟩

theorem agree_bind {x y : EvalM α} {f g : α → EvalM β} {past : List Call}
    (h : Agree (x.runOn past) (y.runOn past))
    (hf : ∀ a calls, x.runOn past = (.ok a, calls) →
      Agree ((f a).runOn calls) ((g a).runOn calls)) :
    Agree ((x >>= f).runOn past) ((y >>= g).runOn past) := agreeBy_bind h hf

end EvalM

open EvalM

/-- What is looked at of an operand that is not evaluated is the same. -/
structure Expr.LooksLike (x y : Expr) : Prop where
  location : x.location = y.location
  bareName : x.bareName? = y.bareName?
  fragment : x.fragment? = y.fragment?

/-! ## Slots -/

/-- A node with one of its operands left out. -/
inductive Slot where
  | unaryOperand (op : Token)
  | castOperand (op : Token) (type : CastType)
  | leftOperand (op : Token) (right : Expr)
  | rightOperand (left : Expr) (op : Token)
  | conditionOf (question : Token) (yes no : Expr)
  | yesBranch (condition : Expr) (question : Token) (no : Expr)
  | noBranch (condition : Expr) (question : Token) (yes : Expr)
  | assignTarget (op : Token) (value : Expr)
  | assignValue (target : Expr) (op : Token)
  | testedValue (op : Token) (cls : Expr)
  | testedClass (value : Expr) (op : Token)
  | accessTarget (bracket : Token) (offset : Expr)
  | accessOffset (target : Expr) (bracket : Token)
  | item (opening : Token) (before after : List Element)
  | pairKey (opening : Token) (before : List Element) (value : Expr) (after : List Element)
  | pairValue (opening : Token) (before : List Element) (key : Expr) (after : List Element)
  | owner (op : Token) (isStatic : Bool) (name : Expr)
  | memberName (target : Expr) (op : Token) (isStatic : Bool)
  | methodOwner (op : Token) (isStatic : Bool) (name : Expr) (args : List Argument)
  | methodName (target : Expr) (op : Token) (isStatic : Bool) (args : List Argument)
  | methodArgument (target : Expr) (op : Token) (isStatic : Bool) (name : Expr)
      (before : List Argument) (byRef : Bool) (after : List Argument)
  | calleeOf (paren : Token) (args : List Argument)
  | callArgument (callee : Expr) (paren : Token) (before : List Argument) (byRef : Bool)
      (after : List Argument)
  | partOf (opening : Token) (before after : List Expr)

/-- With this value on its left, the operator evaluates its right operand. -/
def TokenKind.needsRight (op : TokenKind) (left : Value) : Bool :=
  match op with
  | .andAnd | .and => left.truthy
  | .orOr | .or => !left.truthy
  | .coalesce => left.isNull
  | _ => true

namespace Slot

/-- The node with the operand put in. -/
def fill (x : Expr) : Slot → Expr
  | unaryOperand op => .unary op x
  | castOperand op type => .cast op type x
  | leftOperand op right => .binary x op right
  | rightOperand left op => .binary left op x
  | conditionOf question yes no => .ternary x question yes no
  | yesBranch condition question no => .ternary condition question x no
  | noBranch condition question yes => .ternary condition question yes x
  | assignTarget op value => .assign x op value
  | assignValue target op => .assign target op x
  | testedValue op cls => .instanceOf x op cls
  | testedClass value op => .instanceOf value op x
  | accessTarget bracket offset => .access x bracket offset
  | accessOffset target bracket => .access target bracket x
  | item opening before after => .array opening (before ++ .item x :: after)
  | pairKey opening before value after => .array opening (before ++ .pair x value :: after)
  | pairValue opening before key after => .array opening (before ++ .pair key x :: after)
  | owner op isStatic name => .property x op isStatic name
  | memberName target op isStatic => .property target op isStatic x
  | methodOwner op isStatic name args => .methodCall x op isStatic name args
  | methodName target op isStatic args => .methodCall target op isStatic x args
  | methodArgument target op isStatic name before byRef after =>
    .methodCall target op isStatic name (before ++ .mk byRef x :: after)
  | calleeOf paren args => .call x paren args
  | callArgument callee paren before byRef after =>
    .call callee paren (before ++ .mk byRef x :: after)
  | partOf opening before after => .interpolation opening (before ++ x :: after)

theorem fill_looksLike (f : Slot) (x y : Expr) : (f.fill x).LooksLike (f.fill y) := by
  cases f <;> exact ⟨rfl, rfl, rfl⟩

section Approach

variable (env : Environment) (eval : Expr → EvalM Value)

/-- Ask for what is to be called; the arguments are passed over when it is not there. -/
def approachArgument (offer : Offer) (before : List Argument) : EvalM Bool := do
  if ← Eval.askWhether env offer then
    let _ ← Eval.arguments eval before
    return true
  else return false

/-- What the evaluation of the node does before it comes to the operand that is left out, and
whether it comes to it. -/
def approach : Slot → EvalM Bool
  | unaryOperand _ | castOperand .. | leftOperand .. | conditionOf .. | testedValue ..
  | accessTarget .. | owner .. | methodOwner .. | calleeOf .. => pure true
  | rightOperand left op => do return op.kind.needsRight (← eval left)
  | yesBranch condition _ _ => do return (← eval condition).truthy
  | noBranch condition _ _ => do return !(← eval condition).truthy
  | assignTarget .. | assignValue .. => pure false
  | testedClass value _ => do return (← eval value).asObject?.isSome
  | accessOffset target _ => do
    let _ ← eval target
    return true
  | item _ before _ | pairKey _ before _ _ => do
    let _ ← Eval.elements eval [] before
    return true
  | pairValue _ before key _ => do
    let _ ← Eval.elements eval [] before
    let _ ← Eval.keyOf key.location (← eval key)
    return true
  | memberName target _ isStatic | methodName target _ isStatic _ =>
    if isStatic then do
      let _ ← Eval.className env eval target
      return true
    else do
      let _ ← eval target
      return true
  | methodArgument target op isStatic name before _ _ =>
    if isStatic then do
      let cls ← Eval.className env eval target
      let member ← Eval.stringName eval .member name
      approachArgument env eval (.staticMethod cls member) before
    else do
      let v ← eval target
      let member ← Eval.stringName eval .member name
      let o ← Eval.objectOf op.location member v
      approachArgument env eval (.method o member) before
  | callArgument callee _ before _ _ => do
    let name ← Eval.stringName eval .function callee
    if env.denied.denies name then return false
    else approachArgument env eval (.function name) before
  | partOf _ before _ => do
    let _ ← Eval.parts env eval before
    return true

end Approach

end Slot

/-- The tree with the operand at the end of the path. -/
def Expr.plug (x : Expr) : List Slot → Expr
  | [] => x
  | f :: path => f.fill (x.plug path)

/-- The run from the record `past`, with `depth` of the `limit` levels left, goes down the path to
a slot where it passes over the operand, so also over what is at the end of the path. -/
inductive Skipped (env : Environment) (limit : Nat) : Nat → List Call → List Slot → Prop
  | here {depth : Nat} {past calls : List Call} {f : Slot} {path : List Slot} :
      (f.approach env (Expr.evaluateWithin env limit depth)).runOn past = (.ok false, calls) →
      Skipped env limit (depth + 1) past (f :: path)
  | inside {depth : Nat} {past calls : List Call} {f : Slot} {path : List Slot} :
      (f.approach env (Expr.evaluateWithin env limit depth)).runOn past = (.ok true, calls) →
      Skipped env limit depth calls path → Skipped env limit (depth + 1) past (f :: path)

/-! ## Lists of operands -/

namespace Eval

variable {env : Environment} {eval : Expr → EvalM Value}

theorem elements_append (t : Table) (es fs : List Element) :
    elements eval t (es ++ fs) = (do
      let t' ← elements eval t es
      elements eval t' fs) := by
  induction es generalizing t with
  | nil => rfl
  | cons el rest ih =>
      cases el with
      | item value =>
          simp only [List.cons_append, elements, bind_assoc]
          exact bind_congr fun v => ih _
      | pair key value =>
          simp only [List.cons_append, elements, bind_assoc]
          exact bind_congr fun kv => bind_congr fun k => bind_congr fun v => ih _

theorem arguments_append (as bs : List Argument) :
    arguments eval (as ++ bs) = (do
      let vs ← arguments eval as
      let ws ← arguments eval bs
      return vs ++ ws) := by
  induction as with
  | nil => simp [arguments]
  | cons arg rest ih =>
      obtain ⟨byRef, value⟩ := arg
      cases byRef with
      | true => rfl
      | false =>
          simp only [List.cons_append, arguments, Bool.false_eq_true, if_false, ih, bind_assoc,
            pure_bind]

theorem parts_append (ps qs : List Expr) :
    parts env eval (ps ++ qs) = (do
      let s ← parts env eval ps
      let t ← parts env eval qs
      return s ++ t) := by
  induction ps with
  | nil => simp only [List.nil_append, parts, pure_bind, String.empty_append, bind_pure]
  | cons p rest ih =>
      simp only [List.cons_append, parts, ih, bind_assoc, pure_bind, String.append_assoc]

end Eval

/-! ## One node -/

section Node

variable {env : Environment} {eval : Expr → EvalM Value} {α β : Type} {x y : Expr}
  {past : List Call}

/-- Where the approach ends at the operand, the two operands look alike and their evaluations
agree. -/
def AgreeBehind (eval : Expr → EvalM Value) (x y : Expr) (approach : EvalM Bool)
    (past : List Call) : Prop :=
  ∀ calls, approach.runOn past = (.ok true, calls) →
    x.LooksLike y ∧ Agree ((eval x).runOn calls) ((eval y).runOn calls)

/-- The node starts as its approach does. -/
theorem AgreeBehind.agree_bind {a : EvalM α} {p : α → EvalM Bool} {f g : α → EvalM β}
    (h : AgreeBehind eval x y (a >>= p) past)
    (hf : ∀ v calls, AgreeBehind eval x y (p v) calls →
      Agree ((f v).runOn calls) ((g v).runOn calls)) :
    Agree ((a >>= f).runOn past) ((a >>= g).runOn past) := by
  refine EvalM.agree_bind (.refl _) fun v calls hv => hf v calls ?_
  intro calls' hcalls'
  exact h calls' (by rwa [runOn_bind_ok hv])

theorem AgreeBehind.now (h : AgreeBehind eval x y (pure true) past) :
    x.LooksLike y ∧ Agree ((eval x).runOn past) ((eval y).runOn past) := h past rfl

namespace Eval

theorem agree_stringName (h : AgreeBehind eval x y (pure true) past) (role : NameRole) :
    Agree ((stringName eval role x).runOn past) ((stringName eval role y).runOn past) := by
  obtain ⟨hlook, hagree⟩ := h.now
  unfold stringName
  rw [← hlook.bareName, ← hlook.location]
  cases x.bareName? with
  | some word => exact .refl _
  | none => exact agree_bind hagree fun _ _ _ => .refl _

theorem agree_className (h : AgreeBehind eval x y (pure true) past) :
    Agree ((className env eval x).runOn past) ((className env eval y).runOn past) := by
  obtain ⟨hlook, hagree⟩ := h.now
  unfold className
  rw [← hlook.bareName, ← hlook.location]
  cases x.bareName? with
  | some word => exact .refl _
  | none => exact agree_bind hagree fun _ _ _ => .refl _

theorem agree_arguments {before : List Argument} (byRef : Bool) (after : List Argument)
    (h : AgreeBehind eval x y (arguments eval before >>= fun _ => pure true) past) :
    Agree ((arguments eval (before ++ .mk byRef x :: after)).runOn past)
      ((arguments eval (before ++ .mk byRef y :: after)).runOn past) := by
  simp only [arguments_append]
  refine h.agree_bind fun vs calls h => ?_
  obtain ⟨hlook, hagree⟩ := h.now
  refine agree_bind ?_ fun _ _ _ => .refl _
  unfold arguments
  split
  · rw [hlook.location]
    exact .refl _
  · exact agree_bind hagree fun _ _ _ => .refl _

theorem agree_request {offer : Offer} {before : List Argument} (byRef : Bool)
    (after : List Argument) (absent used : Location)
    (h : AgreeBehind eval x y (Slot.approachArgument env eval offer before) past) :
    Agree ((request env eval offer absent used (before ++ .mk byRef x :: after)).runOn past)
      ((request env eval offer absent used (before ++ .mk byRef y :: after)).runOn past) := by
  refine h.agree_bind fun there calls h => ?_
  cases there with
  | false => exact .refl _
  | true => exact agree_bind (agree_arguments byRef after h) fun _ _ _ => .refl _

/-- A binary operator decides by the value on its left whether it goes on to its right. -/
theorem exists_binary_eq (env : Environment) (eval : Expr → EvalM Value) (op : Token) :
    ∃ (decided : Value → Value) (rest : Value → Value → EvalM Value),
      ∀ left right, binary env eval left op right = (do
        let v ← eval left
        if op.kind.needsRight v then
          let w ← eval right
          rest v w
        else return decided v) := by
  unfold binary
  split
  iterate 2
    next hop =>
      exact ⟨fun _ => .bool false, fun _ w => pure (.bool w.truthy), fun _ _ => by rw [hop]; rfl⟩
  iterate 2
    next hop =>
      refine ⟨fun _ => .bool true, fun _ w => pure (.bool w.truthy), fun left right => ?_⟩
      refine bind_congr fun v => ?_
      rw [hop, TokenKind.needsRight]
      cases v.truthy <;> rfl
  · next hop =>
      refine ⟨id, fun _ w => pure w, fun left right => ?_⟩
      simp only [hop, TokenKind.needsRight, bind_pure]
      rfl
  · refine ⟨id, fun v w => binaryOperation env op v w, fun left right => bind_congr fun v => ?_⟩
    rw [if_pos]
    unfold TokenKind.needsRight
    split <;> simp_all

theorem agree_elements {before after : List Element} {el el' : Element} {p : Table → EvalM Bool}
    (h : AgreeBehind eval x y (elements eval [] before >>= p) past)
    (hel : ∀ t calls, AgreeBehind eval x y (p t) calls →
      Agree ((elements eval t (el :: after)).runOn calls)
        ((elements eval t (el' :: after)).runOn calls)) (opening : Token) :
    Agree ((node env eval (.array opening (before ++ el :: after))).runOn past)
      ((node env eval (.array opening (before ++ el' :: after))).runOn past) := by
  simp only [node, elements_append]
  exact agree_bind (h.agree_bind hel) fun _ _ _ => .refl _

theorem agree_part (h : AgreeBehind eval x y (pure true) past) :
    Agree ((part env eval x).runOn past) ((part env eval y).runOn past) := by
  obtain ⟨hlook, hagree⟩ := h.now
  unfold part
  rw [← hlook.fragment, ← hlook.location]
  cases x.fragment? with
  | some t => exact .refl _
  | none =>
      refine agree_bind hagree fun v calls _ => agree_bind (.refl _) fun s calls _ => ?_
      cases s with
      | some s => exact .refl _
      | none => exact ⟨rfl, rfl⟩

theorem agree_parts {before : List Expr} (after : List Expr)
    (h : AgreeBehind eval x y (parts env eval before >>= fun _ => pure true) past) :
    Agree ((parts env eval (before ++ x :: after)).runOn past)
      ((parts env eval (before ++ y :: after)).runOn past) := by
  simp only [parts_append]
  refine h.agree_bind fun s calls h => agree_bind ?_ fun _ _ _ => .refl _
  exact agree_bind (agree_part h) fun _ _ _ => .refl _

end Eval

/-- **A node keeps agreement**: where its run comes to the operand, two operands that look alike
and agree there give outcomes that agree; where it does not, any two operands do. -/
theorem Slot.agree {f : Slot} (h : AgreeBehind eval x y (f.approach env eval) past) :
    Agree ((Eval.node env eval (f.fill x)).runOn past)
      ((Eval.node env eval (f.fill y)).runOn past) := by
  cases f with
  | unaryOperand | castOperand | conditionOf | testedValue | accessTarget =>
      exact EvalM.agree_bind h.now.2 fun _ _ _ => .refl _
  | leftOperand op right =>
      obtain ⟨decided, rest, hbinary⟩ := Eval.exists_binary_eq env eval op
      simp only [fill, Eval.node, hbinary]
      exact EvalM.agree_bind h.now.2 fun _ _ _ => .refl _
  | rightOperand left op =>
      obtain ⟨decided, rest, hbinary⟩ := Eval.exists_binary_eq env eval op
      simp only [fill, Eval.node, hbinary]
      refine h.agree_bind fun v calls h => ?_
      split
      · next hneeds =>
          rw [hneeds] at h
          exact EvalM.agree_bind h.now.2 fun _ _ _ => .refl _
      · exact .refl _
  | yesBranch condition question no =>
      refine h.agree_bind fun v calls h => ?_
      cases hv : v.truthy with
      | true =>
          rw [hv] at h
          exact h.now.2
      | false => exact .refl _
  | noBranch condition question yes =>
      refine h.agree_bind fun v calls h => ?_
      cases hv : v.truthy with
      | true => exact .refl _
      | false =>
          rw [hv] at h
          exact h.now.2
  | assignTarget | assignValue => exact .refl _
  | testedClass value op =>
      refine h.agree_bind fun v calls h => ?_
      cases v with
      | object o => exact EvalM.agree_bind (Eval.agree_className h) fun _ _ _ => .refl _
      | _ => exact .refl _
  | accessOffset target bracket =>
      refine h.agree_bind fun v calls h => EvalM.agree_bind h.now.2 fun _ _ _ => ?_
      rw [h.now.1.location]
      exact .refl _
  | item opening before after =>
      refine Eval.agree_elements h (fun t calls h => ?_) opening
      exact EvalM.agree_bind h.now.2 fun _ _ _ => .refl _
  | pairKey opening before value after =>
      refine Eval.agree_elements h (fun t calls h => ?_) opening
      refine EvalM.agree_bind h.now.2 fun _ _ _ => ?_
      rw [h.now.1.location]
      exact .refl _
  | pairValue opening before key after =>
      refine Eval.agree_elements h (fun t calls h => ?_) opening
      refine h.agree_bind fun v calls h => h.agree_bind fun k calls h => ?_
      exact EvalM.agree_bind h.now.2 fun _ _ _ => .refl _
  | owner op isStatic | methodOwner op isStatic =>
      cases isStatic with
      | true => exact EvalM.agree_bind (Eval.agree_className h) fun _ _ _ => .refl _
      | false => exact EvalM.agree_bind h.now.2 fun _ _ _ => .refl _
  | memberName target op isStatic | methodName target op isStatic =>
      cases isStatic with
      | true =>
          refine h.agree_bind fun cls calls h => ?_
          exact EvalM.agree_bind (Eval.agree_stringName h _) fun _ _ _ => .refl _
      | false =>
          refine h.agree_bind fun v calls h => ?_
          exact EvalM.agree_bind (Eval.agree_stringName h _) fun _ _ _ => .refl _
  | methodArgument target op isStatic name before byRef after =>
      cases isStatic with
      | true =>
          simp only [fill, Eval.node, if_true, Eval.staticMethod_eq]
          refine h.agree_bind fun cls calls h => h.agree_bind fun member calls h => ?_
          exact Eval.agree_request byRef after _ _ h
      | false =>
          simp only [fill, Eval.node, Bool.false_eq_true, if_false, Eval.method_eq]
          refine h.agree_bind fun v calls h => h.agree_bind fun member calls h => ?_
          exact h.agree_bind fun o calls h => Eval.agree_request byRef after _ _ h
  | calleeOf paren args =>
      obtain ⟨hlook, -⟩ := h.now
      simp only [fill, Eval.node, Eval.call, hlook.location]
      exact EvalM.agree_bind (Eval.agree_stringName h _) fun _ _ _ => .refl _
  | callArgument callee paren before byRef after =>
      simp only [fill, Eval.node, Eval.call_eq]
      refine h.agree_bind fun name calls h => ?_
      split
      · exact .refl _
      · next hdenied =>
          rw [if_neg hdenied] at h
          exact Eval.agree_request byRef after _ _ h
  | partOf opening before after =>
      exact EvalM.agree_bind (Eval.agree_parts after h) fun _ _ _ => .refl _

end Node

/-! ## Whole runs -/

theorem Skipped.agree {env : Environment} {limit depth : Nat} {past : List Call} {path : List Slot}
    (h : Skipped env limit depth past path) (x y : Expr) :
    (x.plug path).LooksLike (y.plug path) ∧
      Agree (((x.plug path).evaluateWithin env limit depth).runOn past)
        (((y.plug path).evaluateWithin env limit depth).runOn past) := by
  induction h with
  | @here depth past calls f path hover =>
      refine ⟨f.fill_looksLike _ _, Slot.agree ?_⟩
      intro calls' hcomes
      rw [hover] at hcomes
      cases hcomes
  | @inside depth past calls f path hcomes _ ih =>
      refine ⟨f.fill_looksLike _ _, Slot.agree ?_⟩
      intro calls' hcomes'
      rw [hcomes] at hcomes'
      obtain rfl : calls = calls' := congrArg Prod.snd hcomes'
      exact ih

/-- **Skipped operands do not matter.**  Where a run goes down a path in a tree to an operand that
it passes over, the tree with anything else at the end of the path gives the same value or the same
error at the same place, but for the text of an expression that the error quotes, and makes the
same calls of the host. -/
theorem skipped_operand_does_not_matter {env : Environment} {limit : Nat} {past : List Call}
    {path : List Slot} (h : Skipped env limit limit past path) (x y : Expr) :
    Agree (((x.plug path).evaluate env limit).runOn past)
      (((y.plug path).evaluate env limit).runOn past) := (h.agree x y).2

/-- From the root of `f($a, [$b => !($a || …)])` to the right operand of `||`. -/
def pathToDecided : List Slot :=
  [.callArgument (.literal ⟨.identifier, "f", ⟨0, 1, 1, 1⟩⟩) ⟨.lparen, "(", ⟨1, 1, 1, 2⟩⟩
      [.mk false (.variable ⟨.variable, "$a", ⟨2, 2, 1, 3⟩⟩)] false [],
    .pairValue ⟨.lbracket, "[", ⟨6, 1, 1, 7⟩⟩ [] (.variable ⟨.variable, "$b", ⟨7, 2, 1, 8⟩⟩) [],
    .unaryOperand ⟨.bang, "!", ⟨13, 1, 1, 14⟩⟩,
    .rightOperand (.variable ⟨.variable, "$a", ⟨15, 2, 1, 16⟩⟩) ⟨.orOr, "||", ⟨18, 2, 1, 19⟩⟩]

def decidingEnvironment : Environment :=
  ⟨.ofList [("a", .bool true), ("b", .str "k")], echoHost, .empty⟩

/-- With `$a` true and `$b` the string `k`, an unbound variable in that place does as well as
null: the call is made. -/
theorem unbound_variable_does_not_matter :
    Skipped decidingEnvironment 5 5 [] pathToDecided ∧
    (((Expr.variable ⟨.variable, "$z", ⟨21, 2, 1, 22⟩⟩).plug pathToDecided).evaluate
        decidingEnvironment 5).runOn []
      = (.ok (.bool true),
        [.invokeFunction "f" [.bool true, .table [(.str "k", .bool false)]],
          .functionExists "f"]) ∧
    Agree ((((Expr.variable ⟨.variable, "$z", ⟨21, 2, 1, 22⟩⟩).plug pathToDecided).evaluate
        decidingEnvironment 5).runOn [])
      ((((Expr.literal ⟨.null, "null", ⟨21, 4, 1, 22⟩⟩).plug pathToDecided).evaluate
        decidingEnvironment 5).runOn []) := by
  have hskipped : Skipped decidingEnvironment 5 5 [] pathToDecided :=
    .inside rfl (.inside rfl (.inside rfl (.here rfl)))
  exact ⟨hskipped, rfl, skipped_operand_does_not_matter hskipped _ _⟩

end GuardedExpr
