/-
# Composition — what the evaluation of a node is put together from

The evaluation of a node is stated over `eval`, the evaluation of its operands.
`Composed` says that such a computation is a sequence of three kinds of steps: what
the evaluator does by itself (`Contract.plain`), the evaluation of an operand, and
a request of something that the host may offer.  Every node is composed in this way
(`composed_node`), so a property that holds of the three kinds of steps and is kept
by sequencing holds of every node, whatever evaluates its operands.

Five nodes make a request: it is asked for first, then the arguments are evaluated,
then use is made of it.  `Offer` and `Eval.request` are the five in one.
-/
import GuardedExpr.Proofs.NodeContract

namespace GuardedExpr

/-- What a host may offer under a name. -/
inductive Offer where
  | property (object : Handle) (name : String)
  | method (object : Handle) (name : String)
  | constant (cls name : String)
  | staticMethod (cls name : String)
  | function (name : String)
deriving DecidableEq

namespace Offer

/-- The call that asks whether it is there. -/
def query : Offer → Call
  | property o name => .hasProperty o name
  | method o name => .hasMethod o name
  | constant cls name => .hasConstant cls name
  | staticMethod cls name => .hasStaticMethod cls name
  | function name => .functionExists name

/-- The call that makes use of it. A property and a constant take no arguments. -/
def use : Offer → List Value → Call
  | property o name, _ => .getProperty o name
  | method o name, args => .invokeMethod o name args
  | constant cls name, _ => .constantValue cls name
  | staticMethod cls name, args => .invokeStaticMethod cls name args
  | function name, args => .invokeFunction name args

/-- What the host answers when it is asked whether it is there. -/
def isThere (host : Host) (past : List Call) : Offer → Bool
  | property o name => host past (.hasProperty o name)
  | method o name => host past (.hasMethod o name)
  | constant cls name => host past (.hasConstant cls name)
  | staticMethod cls name => host past (.hasStaticMethod cls name)
  | function name => host past (.functionExists name)

/-- What the host answers when use is made of it. -/
def result (host : Host) (past : List Call) (args : List Value) : Offer → HostResult
  | property o name => host past (.getProperty o name)
  | method o name => host past (.invokeMethod o name args)
  | constant cls name => host past (.constantValue cls name)
  | staticMethod cls name => host past (.invokeStaticMethod cls name args)
  | function name => host past (.invokeFunction name args)

/-- The object whose class a failure names. -/
def owner? : Offer → Option Handle
  | property o _ | method o _ => some o
  | _ => none

/-- The class that a failure names. -/
def ownerClass (host : Host) (past : List Call) : Offer → String
  | property o _ | method o _ => host past (.classNameOf o)
  | constant cls _ | staticMethod cls _ => cls
  | function _ => ""

/-- The fault when it is not there. -/
def undefined (cls : String) : Offer → EvalFault
  | property _ name => .undefinedProperty name cls
  | method _ name => .undefinedMethod name cls
  | constant _ name => .undefinedConstant name cls
  | staticMethod _ name => .undefinedStaticMethod name cls
  | function name => .undefinedFunction name

/-- How a failure of the host names it. -/
def callee (cls : String) : Offer → Callee
  | property _ name => .property cls name
  | method _ name => .method cls name
  | constant _ name => .constant cls name
  | staticMethod _ name => .staticMethod cls name
  | function name => .function name

end Offer

namespace Eval

open EvalM

variable (env : Environment) (eval : Expr → EvalM Value)

def askWhether : Offer → EvalM Bool
  | .property o name => env.ask (.hasProperty o name)
  | .method o name => env.ask (.hasMethod o name)
  | .constant cls name => env.ask (.hasConstant cls name)
  | .staticMethod cls name => env.ask (.hasStaticMethod cls name)
  | .function name => env.ask (.functionExists name)

def makeUse (args : List Value) : Offer → EvalM HostResult
  | .property o name => env.ask (.getProperty o name)
  | .method o name => env.ask (.invokeMethod o name args)
  | .constant cls name => env.ask (.constantValue cls name)
  | .staticMethod cls name => env.ask (.invokeStaticMethod cls name args)
  | .function name => env.ask (.invokeFunction name args)

/-- Only the class of an object has to be asked for. -/
def askOwnerClass : Offer → EvalM String
  | .property o _ | .method o _ => env.ask (.classNameOf o)
  | .constant cls _ | .staticMethod cls _ => pure cls
  | .function _ => pure ""

/-- Ask whether there is such a thing, evaluate the arguments, make use of it. The failures are at
`absent` when it is not there, and at `used` when the host fails. -/
def request (offer : Offer) (absent used : Location) (args : List Argument) : EvalM Value := do
  if ← askWhether env offer then
    let vs ← arguments eval args
    match ← makeUse env vs offer with
    | .ok v => return v
    | .error e =>
      let cls ← askOwnerClass env offer
      fail used (.host (offer.callee cls) e)
  else
    let cls ← askOwnerClass env offer
    fail absent (offer.undefined cls)

/-! ## The five requests -/

variable {env eval}

theorem readProperty_eq (l : Location) (o : Handle) (name : String) :
    readProperty env l o name = request env eval (.property o name) l l [] := by
  simp only [readProperty, request, askWhether, arguments, makeUse, askOwnerClass, pure_bind]
  refine bind_congr fun there => ?_
  cases there with
  | false => rfl
  | true =>
      refine bind_congr fun answer => ?_
      cases answer <;> rfl

theorem method_eq (target : Expr) (op : Token) (name : Expr) (args : List Argument) :
    method env eval target op name args = (do
      let v ← eval target
      let member ← stringName eval .member name
      let o ← objectOf op.location member v
      request env eval (.method o member) op.location op.location args) := by
  simp only [method, request, askWhether, makeUse, askOwnerClass]
  refine bind_congr fun v => bind_congr fun member => bind_congr fun o => ?_
  refine bind_congr fun there => ?_
  cases there with
  | false => rfl
  | true =>
      refine bind_congr fun vs => bind_congr fun answer => ?_
      cases answer <;> rfl

theorem constant_eq (target : Expr) (op : Token) (name : Expr) :
    constant env eval target op name = (do
      let cls ← className env eval target
      let member ← stringName eval .member name
      if Text.sameFolded member "class" then return .str cls
      else request env eval (.constant cls member) op.location op.location []) := by
  simp only [constant, request, askWhether, arguments, makeUse, askOwnerClass, pure_bind]
  refine bind_congr fun cls => bind_congr fun member => ?_
  split
  · rfl
  · refine bind_congr fun there => ?_
    cases there with
    | false => rfl
    | true =>
        refine bind_congr fun answer => ?_
        cases answer <;> rfl

theorem staticMethod_eq (target : Expr) (op : Token) (name : Expr) (args : List Argument) :
    staticMethod env eval target op name args = (do
      let cls ← className env eval target
      let member ← stringName eval .member name
      request env eval (.staticMethod cls member) op.location op.location args) := by
  simp only [staticMethod, request, askWhether, makeUse, askOwnerClass, pure_bind]
  refine bind_congr fun cls => bind_congr fun member => bind_congr fun there => ?_
  cases there with
  | false => rfl
  | true =>
      refine bind_congr fun vs => bind_congr fun answer => ?_
      cases answer <;> rfl

theorem call_eq (callee : Expr) (paren : Token) (args : List Argument) :
    call env eval callee paren args = (do
      let name ← stringName eval .function callee
      if env.denied.denies name then fail callee.location (.denied name)
      else request env eval (.function name) callee.location paren.location args) := by
  simp only [call, request, askWhether, makeUse, askOwnerClass, pure_bind]
  refine bind_congr fun name => ?_
  split
  · rfl
  · refine bind_congr fun there => ?_
    cases there with
    | false => rfl
    | true =>
        refine bind_congr fun vs => bind_congr fun answer => ?_
        cases answer <;> rfl

end Eval

/-! ## Composed computations -/

/-- A node of this kind makes the request, with these arguments. -/
inductive Expr.Requests : Expr → Offer → List Argument → Prop
  | property {target name : Expr} {op : Token} {o : Handle} {n : String} :
      Requests (.property target op false name) (.property o n) []
  | entry {target offset : Expr} {bracket : Token} {o : Handle} {n : String} :
      Requests (.access target bracket offset) (.property o n) []
  | constant {target name : Expr} {op : Token} {cls n : String} :
      Requests (.property target op true name) (.constant cls n) []
  | method {target name : Expr} {op : Token} {args : List Argument} {o : Handle} {n : String} :
      Requests (.methodCall target op false name args) (.method o n) args
  | staticMethod {target name : Expr} {op : Token} {args : List Argument} {cls n : String} :
      Requests (.methodCall target op true name args) (.staticMethod cls n) args
  | call {callee : Expr} {paren : Token} {args : List Argument} {n : String} :
      Requests (.call callee paren args) (.function n) args

theorem Expr.Requests.visited {e : Expr} {offer : Offer} {args : List Argument}
    (h : e.Requests offer args) : args.map Argument.value ⊆ e.visited := by
  cases h with
  | method | staticMethod | call => exact List.subset_append_right _ _
  | _ => exact List.nil_subset _

/-- Nothing is permitted but questions about objects that are there, and no limit is met. -/
def Contract.plain : Contract :=
  ⟨fun c => c.isPlain = true, fun _ => True, fun f => f.isLimit = false⟩

theorem Contract.plain_admitsPlain : Contract.plain.AdmitsPlain :=
  ⟨fun _ hc => hc, fun _ hf => EvalFault.isLimit_of_isOperational hf⟩

theorem Contract.plain_admitsLiteral (t : Token) : Contract.plain.AdmitsLiteral t :=
  fun _ _ => rfl

namespace Eval

open EvalM Contract

/-- A computation over the evaluation of the operands of `e`, in steps of three kinds. -/
inductive Composed (env : Environment) (e : Expr) :
    {α : Type} → ((Expr → EvalM Value) → EvalM α) → Prop
  | own {α : Type} {x : EvalM α} : plain.Holds x → Composed env e fun _ => x
  | operand {x : Expr} : x ∈ e.visited → Composed env e fun eval => eval x
  | request {offer : Offer} {args : List Argument} (absent used : Location) :
      e.Requests offer args → Composed env e fun eval => request env eval offer absent used args
  | bind {α β : Type} {f : (Expr → EvalM Value) → EvalM α}
      {g : α → (Expr → EvalM Value) → EvalM β} :
      Composed env e f → (∀ a, Composed env e (g a)) →
      Composed env e fun eval => f eval >>= fun a => g a eval

variable {env : Environment} {e : Expr} {α : Type}

theorem composed_pure (a : α) : Composed env e fun _ => pure a := .own (holds_pure plain a)

theorem composed_fail (l : Location) {fault : EvalFault} (hf : fault.isLimit = false) :
    Composed env e fun _ => (fail l fault : EvalM α) := .own (holds_fail trivial hf)

theorem composed_stringName {name : Expr} (h : name.computedName ⊆ e.visited) (role : NameRole) :
    Composed env e fun eval => stringName eval role name := by
  unfold stringName
  cases hb : name.bareName? with
  | some word => exact composed_pure word
  | none =>
      refine .bind (.operand (h (by simp [Expr.computedName, hb]))) fun v => ?_
      cases v with
      | str s => exact composed_pure s
      | _ => exact composed_fail _ rfl

theorem composed_className {target : Expr} (h : target.computedName ⊆ e.visited) :
    Composed env e fun eval => className env eval target := by
  unfold className
  cases hb : target.bareName? with
  | some word => exact composed_pure _
  | none =>
      refine .bind (.operand (h (by simp [Expr.computedName, hb]))) fun v => ?_
      cases v with
      | str s => exact composed_pure s
      | object o => exact .own (holds_askPlain plain_admitsPlain rfl)
      | _ => exact composed_fail _ rfl

/-! ## Members and functions -/

/-- Reading a property is a request without arguments. -/
theorem composed_readProperty {o : Handle} {name : String} (l : Location)
    (h : e.Requests (.property o name) []) :
    Composed env e fun _ => readProperty env l o name := by
  have hrequest : Composed env e fun eval => request env eval (.property o name) l l [] :=
    .request l l h
  simpa only [← readProperty_eq] using hrequest

theorem composed_property {target name : Expr} {op : Token} :
    Composed env (.property target op false name)
      fun eval => property env eval target op name := by
  have hvisited : name.computedName ⊆ (Expr.property target op false name).visited :=
    List.subset_append_right _ _
  refine .bind (.operand List.mem_cons_self) fun v => ?_
  refine .bind (composed_stringName hvisited .member) fun member => ?_
  refine .bind (.own (holds_objectOf plain_admitsPlain trivial member v)) fun o => ?_
  exact composed_readProperty op.location .property

theorem composed_method {target name : Expr} {op : Token} {args : List Argument} :
    Composed env (.methodCall target op false name args)
      fun eval => method env eval target op name args := by
  have hvisited : name.computedName ⊆ (Expr.methodCall target op false name args).visited :=
    List.Subset.trans (List.subset_append_right _ _) (List.subset_append_left _ _)
  simp only [method_eq]
  refine .bind (.operand List.mem_cons_self) fun v => ?_
  refine .bind (composed_stringName hvisited .member) fun member => ?_
  refine .bind (.own (holds_objectOf plain_admitsPlain trivial member v)) fun o => ?_
  exact .request _ _ .method

theorem composed_constant {target name : Expr} {op : Token} :
    Composed env (.property target op true name)
      fun eval => constant env eval target op name := by
  have hcls : target.computedName ⊆ (Expr.property target op true name).visited :=
    List.subset_append_left _ _
  have hname : name.computedName ⊆ (Expr.property target op true name).visited :=
    List.subset_append_right _ _
  simp only [constant_eq]
  refine .bind (composed_className hcls) fun cls => ?_
  refine .bind (composed_stringName hname .member) fun member => ?_
  split
  · exact composed_pure _
  · exact .request _ _ .constant

theorem composed_staticMethod {target name : Expr} {op : Token} {args : List Argument} :
    Composed env (.methodCall target op true name args)
      fun eval => staticMethod env eval target op name args := by
  have hcls : target.computedName ⊆ (Expr.methodCall target op true name args).visited :=
    List.Subset.trans (List.subset_append_left _ _) (List.subset_append_left _ _)
  have hname : name.computedName ⊆ (Expr.methodCall target op true name args).visited :=
    List.Subset.trans (List.subset_append_right _ _) (List.subset_append_left _ _)
  simp only [staticMethod_eq]
  refine .bind (composed_className hcls) fun cls => ?_
  refine .bind (composed_stringName hname .member) fun member => ?_
  exact .request _ _ .staticMethod

theorem composed_call {callee : Expr} {paren : Token} {args : List Argument} :
    Composed env (.call callee paren args) fun eval => call env eval callee paren args := by
  have hname : callee.computedName ⊆ (Expr.call callee paren args).visited :=
    List.subset_append_left _ _
  simp only [call_eq]
  refine .bind (composed_stringName hname .function) fun name => ?_
  split
  · exact composed_fail _ rfl
  · exact .request _ _ .call

/-! ## Nodes -/

theorem composed_binary {left right : Expr} {op : Token} :
    Composed env (.binary left op right) fun eval => binary env eval left op right := by
  have hleft : Composed env (.binary left op right) fun eval => eval left :=
    .operand List.mem_cons_self
  have hright : Composed env (.binary left op right) fun eval => eval right :=
    .operand (List.mem_cons_of_mem _ List.mem_cons_self)
  have htruth : Composed env (.binary left op right)
      fun eval => (do return Value.bool (← eval right).truthy : EvalM Value) :=
    .bind hright fun w => composed_pure _
  unfold binary
  split
  iterate 2
    refine .bind hleft fun v => ?_
    split
    · exact htruth
    · exact composed_pure _
  iterate 2
    refine .bind hleft fun v => ?_
    split
    · exact composed_pure _
    · exact htruth
  · refine .bind hleft fun v => ?_
    split
    · exact hright
    · exact composed_pure _
  · refine .bind hleft fun v => .bind hright fun w => ?_
    exact .own (holds_binaryOperation plain_admitsPlain trivial (fun _ => rfl) v w)

theorem composed_instanceOf {value cls : Expr} {op : Token} :
    Composed env (.instanceOf value op cls) fun eval => instanceOf env eval value cls := by
  refine .bind (.operand List.mem_cons_self) fun v => ?_
  cases v with
  | object o =>
      refine .bind (composed_className (List.subset_cons_self _ _)) fun name => ?_
      exact .own (holds_bind (holds_askPlain plain_admitsPlain rfl) fun _ => holds_pure plain _)
  | _ => exact composed_pure _

theorem composed_elements {es : List Element} (t : Table)
    (h : es.flatMap Element.operands ⊆ e.visited) :
    Composed env e fun eval => elements eval t es := by
  induction es generalizing t with
  | nil => exact composed_pure t
  | cons el rest ih =>
      rw [List.flatMap_cons, List.append_subset] at h
      obtain ⟨hel, hrest⟩ := h
      cases el with
      | item value =>
          refine .bind (.operand (hel List.mem_cons_self)) fun v => ?_
          exact ih _ hrest
      | pair key value =>
          refine .bind (.operand (hel List.mem_cons_self)) fun kv => ?_
          refine .bind (.own (holds_keyOf plain_admitsPlain trivial kv)) fun k => ?_
          refine .bind (.operand (hel (List.mem_cons_of_mem _ List.mem_cons_self))) fun v => ?_
          exact ih _ hrest

theorem composed_access {target offset : Expr} {bracket : Token} :
    Composed env (.access target bracket offset)
      fun eval => access env eval target bracket offset := by
  refine .bind (.operand List.mem_cons_self) fun container => ?_
  refine .bind (.operand (List.mem_cons_of_mem _ List.mem_cons_self)) fun position => ?_
  cases container with
  | table es =>
      refine .bind (.own (holds_keyOf plain_admitsPlain trivial position)) fun k => ?_
      exact .own (holds_someOrFail trivial rfl _)
  | object o =>
      refine .bind (.own (holds_offsetName plain_admitsPlain trivial position)) fun name => ?_
      exact composed_readProperty bracket.location .entry
  | _ => exact composed_fail _ rfl

theorem composed_part {part : Expr} (h : part.fragment?.isNone → part ∈ e.visited) :
    Composed env e fun eval => Eval.part env eval part := by
  unfold Eval.part
  cases hf : part.fragment? with
  | some t =>
      refine .bind (.own (holds_literalValue trivial (plain_admitsLiteral t))) fun v => ?_
      exact composed_pure _
  | none =>
      refine .bind (.operand (h (by simp [hf]))) fun v => ?_
      refine .bind (.own (holds_stringOf? plain_admitsPlain v)) fun s => ?_
      cases s with
      | none => exact composed_fail _ rfl
      | some s => exact composed_pure s

theorem composed_parts {ps : List Expr}
    (h : (ps.filter fun part => part.fragment?.isNone) ⊆ e.visited) :
    Composed env e fun eval => parts env eval ps := by
  induction ps with
  | nil => exact composed_pure ""
  | cons part rest ih =>
      have hpart : part.fragment?.isNone → part ∈ e.visited := by
        intro hnone
        exact h (List.mem_filter.mpr ⟨List.mem_cons_self, hnone⟩)
      have hrest : (rest.filter fun part => part.fragment?.isNone) ⊆ e.visited := by
        intro x hx
        obtain ⟨hmem, hnone⟩ := List.mem_filter.mp hx
        exact h (List.mem_filter.mpr ⟨List.mem_cons_of_mem part hmem, hnone⟩)
      refine .bind (composed_part hpart) fun s => ?_
      exact .bind (ih hrest) fun t => composed_pure _

/-- **Every node is composed** of its operands, of requests, and of what the evaluator does by
itself. -/
theorem composed_node (env : Environment) (e : Expr) :
    Composed env e fun eval => node env eval e := by
  unfold node
  cases e with
  | literal t => exact .own (holds_literalValue trivial (plain_admitsLiteral t))
  | «variable» t => exact .own (holds_someOrFail trivial rfl _)
  | unary op operand =>
      refine .bind (.operand List.mem_cons_self) fun v => ?_
      exact .own (holds_unaryOperation plain_admitsPlain trivial (fun _ => rfl) v)
  | cast op type operand =>
      refine .bind (.operand List.mem_cons_self) fun v => ?_
      exact .own (holds_castOperation plain_admitsPlain trivial type v)
  | binary left op right => exact composed_binary
  | ternary condition question yes no =>
      refine .bind (.operand List.mem_cons_self) fun c => ?_
      split
      · exact .operand (List.mem_cons_of_mem _ List.mem_cons_self)
      · exact .operand (List.mem_cons_of_mem _ (List.mem_cons_of_mem _ List.mem_cons_self))
  | assign target op value => exact composed_fail _ rfl
  | instanceOf value op cls => exact composed_instanceOf
  | access target bracket offset => exact composed_access
  | array opening es =>
      exact .bind (composed_elements [] (List.Subset.refl _)) fun t => composed_pure _
  | property target op isStatic name =>
      cases isStatic with
      | true => exact composed_constant
      | false => exact composed_property
  | methodCall target op isStatic name args =>
      cases isStatic with
      | true => exact composed_staticMethod
      | false => exact composed_method
  | call callee paren args => exact composed_call
  | interpolation opening ps =>
      exact .bind (composed_parts (List.Subset.refl _)) fun s => composed_pure _

end Eval

end GuardedExpr
