/-
# Node contracts — what one node does, once for all properties of evaluations

`holds_node` is the inversion of the evaluator: a node asks the host for functions
only behind the deny-list, fails only at itself or at one of its operands, never
with a limit, for want of an operator only where it has a stray one, and leaves
everything else to the evaluation of the operands that it visits.  Properties of whole evaluations follow from it by induction on the
levels of nesting (`holds_evaluateWithin`).

A bare word in the place of a name is read off the tree and not evaluated, nor is
a fragment of a string, nor any part of an assignment.  `Expr.visited` leaves
these out.
-/
import GuardedExpr.Proofs.Contract

namespace GuardedExpr

/-- The name of the function that a call asks for or invokes. -/
def Call.function? : Call → Option String
  | .functionExists name | .invokeFunction name _ => some name
  | _ => none

/-- No denied function is asked for or invoked. -/
def Call.Gated (denied : DenyList) (c : Call) : Prop :=
  ∀ name, c.function? = some name → denied.denies name = false

/-- A question about an object that is there: the evaluation goes on whatever the answer is. -/
def Call.isPlain : Call → Bool
  | .classNameOf _ | .isInstanceOf .. | .objectText _ => true
  | _ => false

theorem Call.gated_of_function?_eq_none {denied : DenyList} {c : Call} (h : c.function? = none) :
    c.Gated denied := by
  intro name hname
  rw [h] at hname
  cases hname

/-- The failure is one of an operation: no limit, no literal that spells no value, and no operator
that the evaluator does not know. -/
def EvalFault.isOperational : EvalFault → Bool
  | .stackOverflow _ | .constant _ | .unsupported .unaryOperator | .unsupported .binaryOperator =>
    false
  | _ => true

theorem EvalFault.isLimit_of_isOperational {f : EvalFault} (h : f.isOperational = true) :
    f.isLimit = false := by
  cases f with
  | stackOverflow => cases h
  | _ => rfl

/-! ## The operators of the evaluator -/

namespace Eval

/-- The operators in front of an operand. -/
def signs : List TokenKind := [.minus, .plus, .bang]

/-- The operators that may leave their right operand alone. -/
def skippingOperators : List TokenKind := [.and, .andAnd, .or, .orOr, .coalesce]

/-- The operators that take both operands in any case. -/
def combiningOperators : List TokenKind :=
  [.dot, .xor, .equal, .notEqual, .identical, .notIdentical, .less, .lessEqual, .greater,
   .greaterEqual, .spaceship, .plus, .minus, .star, .slash, .percent, .starStar]

def binaryOperators : List TokenKind := skippingOperators ++ combiningOperators

end Eval

/-- What the evaluator does not know about a node: an operator of another kind than those that it
has rules for. -/
def Expr.strayOperator? : Expr → Option Unsupported
  | .unary op _ => if op.kind ∈ Eval.signs then none else some .unaryOperator
  | .binary _ op _ => if op.kind ∈ Eval.binaryOperators then none else some .binaryOperator
  | _ => none

/-! ## The operands of a node -/

def Element.operands : Element → List Expr
  | .item value => [value]
  | .pair key value => [key, value]

namespace Expr

/-- The expressions directly below a node. -/
def operands : Expr → List Expr
  | .literal _ | .variable _ => []
  | .unary _ operand | .cast _ _ operand => [operand]
  | .binary left _ right => [left, right]
  | .ternary condition _ yes no => [condition, yes, no]
  | .assign target _ value => [target, value]
  | .instanceOf value _ cls => [value, cls]
  | .access target _ offset => [target, offset]
  | .array _ elements => elements.flatMap Element.operands
  | .property target _ _ name => [target, name]
  | .methodCall target _ _ name args => target :: name :: args.map Argument.value
  | .call callee _ args => callee :: args.map Argument.value
  | .interpolation _ parts => parts

/-- An expression in the place of a name; a bare word is not evaluated there. -/
def computedName (name : Expr) : List Expr := if name.bareName?.isSome then [] else [name]

/-- The expressions directly below a node that its evaluation may evaluate. -/
def visited : Expr → List Expr
  | .assign .. => []
  | .instanceOf value _ cls => value :: cls.computedName
  | .property target _ isStatic name =>
    (if isStatic then target.computedName else [target]) ++ name.computedName
  | .methodCall target _ isStatic name args =>
    (if isStatic then target.computedName else [target]) ++ name.computedName
      ++ args.map Argument.value
  | .call callee _ args => callee.computedName ++ args.map Argument.value
  | .interpolation _ parts => parts.filter fun part => part.fragment?.isNone
  | e => e.operands

end Expr

namespace Contract

/-- The contract permits what operators do by themselves: questions about objects that are there,
and failures of operations. -/
structure AdmitsPlain (k : Contract) : Prop where
  call : ∀ c : Call, c.isPlain = true → k.call c
  fault : ∀ f : EvalFault, f.isOperational = true → k.fault f

/-- The contract permits what a node other than a literal does by itself: calls behind the
deny-list and failures of operations. -/
structure AdmitsNodes (env : Environment) (k : Contract) : Prop where
  call : ∀ c : Call, c.Gated env.denied → k.call c
  fault : ∀ f : EvalFault, f.isOperational = true → k.fault f

/-- The contract permits the failure of the token, if it spells no value. -/
def AdmitsLiteral (k : Contract) (t : Token) : Prop :=
  ∀ fault, Constant.ofToken t = .error fault → k.fault (.constant fault)

/-- The contract permits the failure of the node, if it has an operator that the evaluator does not
know. -/
def AdmitsOperator (k : Contract) (e : Expr) : Prop :=
  ∀ what ∈ e.strayOperator?, k.fault (.unsupported what)

/-- The contract permits what a node does by itself: calls behind the deny-list and failures that
are no limits. -/
structure Admits (env : Environment) (k : Contract) : Prop where
  call : ∀ c : Call, c.Gated env.denied → k.call c
  fault : ∀ f : EvalFault, f.isLimit = false → k.fault f

variable {env : Environment} {eval : Expr → EvalM Value} {k : Contract}

theorem AdmitsNodes.plain (h : k.AdmitsNodes env) : k.AdmitsPlain where
  call c hc := h.call c (Call.gated_of_function?_eq_none (by cases c <;> first | rfl | cases hc))
  fault := h.fault

theorem Admits.nodes (h : k.Admits env) : k.AdmitsNodes env where
  call := h.call
  fault f hf := h.fault f (EvalFault.isLimit_of_isOperational hf)

theorem Admits.literal (h : k.Admits env) (t : Token) : k.AdmitsLiteral t :=
  fun _ _ => h.fault _ rfl

theorem Admits.operator (h : k.Admits env) (e : Expr) : k.AdmitsOperator e :=
  fun _ _ => h.fault _ rfl

theorem AdmitsOperator.unary {op : Token} {operand : Expr}
    (h : k.AdmitsOperator (.unary op operand)) (hop : op.kind ∉ Eval.signs) :
    k.fault (.unsupported .unaryOperator) := h _ (if_neg hop)

theorem AdmitsOperator.binary {left right : Expr} {op : Token}
    (h : k.AdmitsOperator (.binary left op right)) (hop : op.kind ∉ Eval.binaryOperators) :
    k.fault (.unsupported .binaryOperator) := h _ (if_neg hop)

/-! ## Names and keys -/

section Names

variable (h : k.AdmitsPlain)
include h

theorem holds_askPlain {c : Call} (hc : c.isPlain = true) : k.Holds (env.ask c) :=
  holds_ask (h.call c hc)

theorem holds_keyOf {l : Location} (hl : k.place l) (v : Value) : k.Holds (Eval.keyOf l v) := by
  cases v with
  | int n => exact holds_pure k _
  | str s => exact holds_pure k _
  | _ => exact holds_fail hl (h.fault _ rfl)

theorem holds_offsetName {l : Location} (hl : k.place l) (v : Value) :
    k.Holds (Eval.offsetName l v) := by
  cases v with
  | int n => exact holds_pure k _
  | str s => exact holds_pure k _
  | _ => exact holds_fail hl (h.fault _ rfl)

theorem holds_objectOf {l : Location} (hl : k.place l) (member : String) (v : Value) :
    k.Holds (Eval.objectOf l member v) := by
  cases v with
  | object o => exact holds_pure k _
  | _ => exact holds_fail hl (h.fault _ rfl)

theorem holds_stringName {name : Expr} (hl : k.place name.location)
    (heval : ∀ x ∈ name.computedName, k.Holds (eval x)) (role : NameRole) :
    k.Holds (Eval.stringName eval role name) := by
  unfold Eval.stringName
  cases hb : name.bareName? with
  | some word => exact holds_pure k _
  | none =>
      refine holds_bind (heval name (by simp [Expr.computedName, hb])) fun v => ?_
      cases v with
      | str s => exact holds_pure k _
      | _ => exact holds_fail hl (h.fault _ rfl)

theorem holds_className {target : Expr} (hl : k.place target.location)
    (heval : ∀ x ∈ target.computedName, k.Holds (eval x)) :
    k.Holds (Eval.className env eval target) := by
  unfold Eval.className
  cases hb : target.bareName? with
  | some word => exact holds_pure k _
  | none =>
      refine holds_bind (heval target (by simp [Expr.computedName, hb])) fun v => ?_
      cases v with
      | str s => exact holds_pure k _
      | object o => exact holds_askPlain h rfl
      | _ => exact holds_fail hl (h.fault _ rfl)

theorem holds_stringOf? (v : Value) : k.Holds (env.stringOf? v) := by
  cases v with
  | object o => exact holds_askPlain h rfl
  | _ => exact holds_pure k _

end Names

/-! ## Operators -/

section Operators

mutual

/-- A comparison only asks for the strings of objects. -/
theorem holds_compare {text : Handle → EvalM (Option String)} (htext : ∀ o, k.Holds (text o)) :
    ∀ a b : Value, k.Holds (Value.compare text a b)
  | .table es, .table fs => by
      unfold Value.compare
      split
      · exact holds_pure k _
      · split
        · exact holds_pure k _
        · exact holds_compareEntries htext es fs
  | .object g, .str t => by
      unfold Value.compare
      refine holds_bind (htext g) fun s => ?_
      cases s <;> exact holds_pure k _
  | .str s, .object g => by
      unfold Value.compare
      refine holds_bind (htext g) fun t => ?_
      cases t <;> exact holds_pure k _
  | .null, b | .bool _, b | .int _, b | .float _, b => by
      cases b <;> (unfold Value.compare; exact holds_pure k _)
  | .str _, .null | .str _, .bool _ | .str _, .int _ | .str _, .float _ | .str _, .str _
  | .str _, .table _ => by
      unfold Value.compare
      exact holds_pure k _
  | .table _, .null | .table _, .bool _ | .table _, .int _ | .table _, .float _
  | .table _, .str _ | .table _, .object _ => by
      unfold Value.compare
      exact holds_pure k _
  | .object _, .null | .object _, .bool _ | .object _, .int _ | .object _, .float _
  | .object _, .table _ | .object _, .object _ => by
      unfold Value.compare
      exact holds_pure k _

theorem holds_compareEntries {text : Handle → EvalM (Option String)}
    (htext : ∀ o, k.Holds (text o)) :
    ∀ es other : List (Key × Value), k.Holds (Value.compareEntries text es other)
  | [], _ => by
      unfold Value.compareEntries
      exact holds_pure k _
  | (key, v) :: es, other => by
      unfold Value.compareEntries
      cases Table.find? key other with
      | none => exact holds_pure k _
      | some w =>
          refine holds_bind (holds_compare htext v w) fun o => ?_
          rcases o with _ | _ | _ | _
          · exact holds_pure k _
          · exact holds_pure k _
          · exact holds_compareEntries htext es other
          · exact holds_pure k _

end

variable (h : k.AdmitsPlain)
include h

theorem holds_objectText (o : Handle) : k.Holds (env.objectText o) := holds_askPlain h rfl

theorem holds_looseEquals (a b : Value) : k.Holds (a.looseEquals env.objectText b) :=
  holds_bind (holds_compare (holds_objectText h) a b) fun _ => holds_pure k _

theorem holds_arithmetic (arith : ArithmeticOp) {op : Token} (hl : k.place op.location)
    (left right : Value) : k.Holds (Eval.arithmetic arith op left right) := by
  refine holds_bind (holds_someOrFail hl (h.fault _ rfl) _) fun a => ?_
  refine holds_bind (holds_someOrFail hl (h.fault _ rfl) _) fun b => ?_
  exact holds_bind (holds_someOrFail hl (h.fault _ rfl) _) fun n => holds_pure k _

theorem holds_textOperand {op : Token} (hl : k.place op.location) (side : Side) (v : Value) :
    k.Holds (Eval.textOperand env op side v) :=
  holds_bind (holds_stringOf? h v) fun s => holds_someOrFail hl (h.fault _ rfl) s

theorem holds_concat {op : Token} (hl : k.place op.location) (left right : Value) :
    k.Holds (Eval.concat env op left right) := by
  refine holds_bind (holds_textOperand h hl .left left) fun s => ?_
  exact holds_bind (holds_textOperand h hl .right right) fun t => holds_pure k _

theorem holds_ordered (orders : List Ordering) (left right : Value) :
    k.Holds (Eval.ordered env orders left right) := by
  refine holds_bind (holds_compare (holds_objectText h) left right) fun o => ?_
  cases o <;> exact holds_pure k _

theorem holds_spaceship (left right : Value) : k.Holds (Eval.spaceship env left right) := by
  refine holds_bind (holds_compare (holds_objectText h) left right) fun o => ?_
  rcases o with _ | _ | _ | _ <;> exact holds_pure k _

theorem holds_binaryOperation {op : Token} (hl : k.place op.location)
    (hop : op.kind ∉ Eval.combiningOperators → k.fault (.unsupported .binaryOperator))
    (left right : Value) : k.Holds (Eval.binaryOperation env op left right) := by
  unfold Eval.binaryOperation
  split
  · exact holds_concat h hl left right
  · exact holds_pure k _
  · exact holds_bind (holds_looseEquals h left right) fun _ => holds_pure k _
  · exact holds_bind (holds_looseEquals h left right) fun _ => holds_pure k _
  · exact holds_pure k _
  · exact holds_pure k _
  · exact holds_ordered h _ left right
  · exact holds_ordered h _ left right
  · exact holds_ordered h _ left right
  · exact holds_ordered h _ left right
  · exact holds_spaceship h left right
  · split
    · exact holds_arithmetic h _ hl left right
    · next harith =>
        -- No arithmetic operator is left, and no other one that the evaluator combines with.
        refine holds_fail hl (hop fun hmem => ?_)
        simp only [Eval.combiningOperators, List.mem_cons, List.not_mem_nil, or_false] at hmem
        rcases hmem with hkind | hkind | hkind | hkind | hkind | hkind | hkind | hkind | hkind |
          hkind | hkind | hkind | hkind | hkind | hkind | hkind | hkind
        all_goals first | contradiction | (rw [hkind] at harith; cases harith)

theorem holds_unaryOperation {op : Token} (hl : k.place op.location)
    (hop : op.kind ∉ Eval.signs → k.fault (.unsupported .unaryOperator)) (v : Value) :
    k.Holds (Eval.unaryOperation op v) := by
  unfold Eval.unaryOperation
  split
  · exact holds_pure k _
  · next hbang =>
      refine holds_bind (holds_someOrFail hl (h.fault _ rfl) _) fun n => ?_
      split
      · exact holds_pure k _
      · exact holds_pure k _
      · refine holds_fail hl (hop fun hmem => ?_)
        simp only [Eval.signs, List.mem_cons, List.not_mem_nil, or_false] at hmem
        rcases hmem with hkind | hkind | hkind <;> contradiction

theorem holds_castOperation {op : Token} (hl : k.place op.location) (type : CastType) (v : Value) :
    k.Holds (Eval.castOperation op type v) := by
  unfold Eval.castOperation
  split
  · exact holds_pure k _
  · split
    · exact holds_fail hl (h.fault _ rfl)
    · cases type <;> exact holds_pure k _

end Operators

/-! ## Members and functions -/

section Members

variable (h : k.AdmitsNodes env)
include h

theorem holds_askOther {c : Call} (hc : c.function? = none) : k.Holds (env.ask c) :=
  holds_ask (h.call c (Call.gated_of_function?_eq_none hc))

theorem holds_arguments {args : List Argument}
    (hplace : ∀ x ∈ args.map Argument.value, k.place x.location)
    (heval : ∀ x ∈ args.map Argument.value, k.Holds (eval x)) :
    k.Holds (Eval.arguments eval args) := by
  induction args with
  | nil => exact holds_pure k _
  | cons arg rest ih =>
      obtain ⟨byRef, value⟩ := arg
      simp only [List.map_cons, List.forall_mem_cons] at hplace heval
      unfold Eval.arguments
      split
      · exact holds_fail hplace.1 (h.fault _ rfl)
      · refine holds_bind heval.1 fun v => ?_
        exact holds_bind (ih hplace.2 heval.2) fun vs => holds_pure k _

/-- After a failure the host is asked for the class of the object and nothing else. -/
theorem holds_failWithClass {α : Type} {l : Location} (hl : k.place l) (o : Handle)
    {fault : String → EvalFault} (hf : ∀ cls, (fault cls).isOperational = true) :
    k.Holds (do let cls ← env.ask (.classNameOf o); EvalM.fail l (fault cls) : EvalM α) :=
  holds_bind (holds_askOther h rfl) fun cls => holds_fail hl (h.fault _ (hf cls))

theorem holds_readProperty {l : Location} (hl : k.place l) (o : Handle) (name : String) :
    k.Holds (Eval.readProperty env l o name) := by
  refine holds_bind (holds_askOther h rfl) fun there => ?_
  split
  · refine holds_bind (holds_askOther h rfl) fun answer => ?_
    cases answer with
    | ok v => exact holds_pure k _
    | error e => exact holds_failWithClass h hl o fun _ => rfl
  · exact holds_failWithClass h hl o fun _ => rfl

theorem holds_property {target name : Expr} {op : Token} (hl : k.place op.location)
    (hname : k.place name.location) (htarget : k.Holds (eval target))
    (heval : ∀ x ∈ name.computedName, k.Holds (eval x)) :
    k.Holds (Eval.property env eval target op name) := by
  refine holds_bind htarget fun v => ?_
  refine holds_bind (holds_stringName h.plain hname heval .member) fun member => ?_
  refine holds_bind (holds_objectOf h.plain hl member v) fun o => ?_
  exact holds_readProperty h hl o member

theorem holds_method {target name : Expr} {op : Token} {args : List Argument}
    (hl : k.place op.location) (hname : k.place name.location)
    (hargs : ∀ x ∈ args.map Argument.value, k.place x.location)
    (htarget : k.Holds (eval target)) (heval : ∀ x ∈ name.computedName, k.Holds (eval x))
    (hevalArgs : ∀ x ∈ args.map Argument.value, k.Holds (eval x)) :
    k.Holds (Eval.method env eval target op name args) := by
  refine holds_bind htarget fun v => ?_
  refine holds_bind (holds_stringName h.plain hname heval .member) fun member => ?_
  refine holds_bind (holds_objectOf h.plain hl member v) fun o => ?_
  refine holds_bind (holds_askOther h rfl) fun there => ?_
  split
  · refine holds_bind (holds_arguments h hargs hevalArgs) fun vs => ?_
    refine holds_bind (holds_askOther h rfl) fun answer => ?_
    cases answer with
    | ok v => exact holds_pure k _
    | error e => exact holds_failWithClass h hl o fun _ => rfl
  · exact holds_failWithClass h hl o fun _ => rfl

theorem holds_constant {target name : Expr} {op : Token} (hl : k.place op.location)
    (htarget : k.place target.location) (hname : k.place name.location)
    (hcls : ∀ x ∈ target.computedName, k.Holds (eval x))
    (heval : ∀ x ∈ name.computedName, k.Holds (eval x)) :
    k.Holds (Eval.constant env eval target op name) := by
  refine holds_bind (holds_className h.plain htarget hcls) fun cls => ?_
  refine holds_bind (holds_stringName h.plain hname heval .member) fun member => ?_
  split
  · exact holds_pure k _
  · refine holds_bind (holds_askOther h rfl) fun there => ?_
    split
    · refine holds_bind (holds_askOther h rfl) fun answer => ?_
      exact holds_orFail hl (fun _ => h.fault _ rfl) answer
    · exact holds_fail hl (h.fault _ rfl)

theorem holds_staticMethod {target name : Expr} {op : Token} {args : List Argument}
    (hl : k.place op.location) (htarget : k.place target.location) (hname : k.place name.location)
    (hargs : ∀ x ∈ args.map Argument.value, k.place x.location)
    (hcls : ∀ x ∈ target.computedName, k.Holds (eval x))
    (heval : ∀ x ∈ name.computedName, k.Holds (eval x))
    (hevalArgs : ∀ x ∈ args.map Argument.value, k.Holds (eval x)) :
    k.Holds (Eval.staticMethod env eval target op name args) := by
  refine holds_bind (holds_className h.plain htarget hcls) fun cls => ?_
  refine holds_bind (holds_stringName h.plain hname heval .member) fun member => ?_
  refine holds_bind (holds_askOther h rfl) fun there => ?_
  split
  · refine holds_bind (holds_arguments h hargs hevalArgs) fun vs => ?_
    refine holds_bind (holds_askOther h rfl) fun answer => ?_
    exact holds_orFail hl (fun _ => h.fault _ rfl) answer
  · exact holds_fail hl (h.fault _ rfl)

/-- The one node that asks for a function asks behind the deny-list. -/
theorem holds_call {callee : Expr} {paren : Token} {args : List Argument}
    (hl : k.place paren.location) (hcallee : k.place callee.location)
    (hargs : ∀ x ∈ args.map Argument.value, k.place x.location)
    (heval : ∀ x ∈ callee.computedName, k.Holds (eval x))
    (hevalArgs : ∀ x ∈ args.map Argument.value, k.Holds (eval x)) :
    k.Holds (Eval.call env eval callee paren args) := by
  refine holds_bind (holds_stringName h.plain hcallee heval .function) fun name => ?_
  split
  · exact holds_fail hcallee (h.fault _ rfl)
  · next hdenied =>
      have hgate : env.denied.denies name = false := by simpa using hdenied
      refine holds_bind (holds_ask (h.call _ ?_)) fun there => ?_
      · intro n hn
        cases hn
        exact hgate
      · split
        · refine holds_bind (holds_arguments h hargs hevalArgs) fun vs => ?_
          refine holds_bind (holds_ask (h.call _ ?_)) fun answer => ?_
          · intro n hn
            cases hn
            exact hgate
          · exact holds_orFail hl (fun _ => h.fault _ rfl) answer
        · exact holds_fail hcallee (h.fault _ rfl)

end Members

/-! ## Nodes -/

section Nodes

theorem holds_literalValue {t : Token} (hl : k.place t.location) (ht : k.AdmitsLiteral t) :
    k.Holds (Eval.literalValue t) := by
  unfold Eval.literalValue
  cases hv : Constant.ofToken t with
  | error fault => exact holds_fail hl (ht fault hv)
  | ok v => exact holds_pure k v

variable (h : k.AdmitsNodes env)
include h

theorem holds_binary {left right : Expr} {op : Token} (hl : k.place op.location)
    (hop : k.AdmitsOperator (.binary left op right)) (hleft : k.Holds (eval left)) (hright : k.Holds (eval right)) :
    k.Holds (Eval.binary env eval left op right) := by
  have htruth : k.Holds (do return Value.bool (← eval right).truthy : EvalM Value) :=
    holds_bind hright fun w => holds_pure k _
  unfold Eval.binary
  split
  · refine holds_bind hleft fun v => ?_
    split
    · exact htruth
    · exact holds_pure k _
  · refine holds_bind hleft fun v => ?_
    split
    · exact htruth
    · exact holds_pure k _
  · refine holds_bind hleft fun v => ?_
    split
    · exact holds_pure k _
    · exact htruth
  · refine holds_bind hleft fun v => ?_
    split
    · exact holds_pure k _
    · exact htruth
  · refine holds_bind hleft fun v => ?_
    split
    · exact hright
    · exact holds_pure k _
  · refine holds_bind hleft fun v => holds_bind hright fun w => ?_
    refine holds_binaryOperation h.plain hl (fun hcombining => hop.binary fun hmem => ?_) v w
    rcases List.mem_append.mp hmem with hskipping | hmem
    · simp only [Eval.skippingOperators, List.mem_cons, List.not_mem_nil, or_false] at hskipping
      rcases hskipping with hkind | hkind | hkind | hkind | hkind <;> contradiction
    · exact hcombining hmem

theorem holds_instanceOf {value cls : Expr} (hcls : k.place cls.location)
    (hvalue : k.Holds (eval value)) (heval : ∀ x ∈ cls.computedName, k.Holds (eval x)) :
    k.Holds (Eval.instanceOf env eval value cls) := by
  refine holds_bind hvalue fun v => ?_
  cases v with
  | object o =>
      refine holds_bind (holds_className h.plain hcls heval) fun name => ?_
      exact holds_bind (holds_askOther h rfl) fun b => holds_pure k _
  | _ => exact holds_pure k _

theorem holds_elements {es : List Element} (t : Table)
    (hplace : ∀ x ∈ es.flatMap Element.operands, k.place x.location)
    (heval : ∀ x ∈ es.flatMap Element.operands, k.Holds (eval x)) :
    k.Holds (Eval.elements eval t es) := by
  induction es generalizing t with
  | nil => exact holds_pure k t
  | cons el rest ih =>
      rw [List.flatMap_cons, List.forall_mem_append] at hplace heval
      obtain ⟨hplace, hplaces⟩ := hplace
      obtain ⟨heval, hevals⟩ := heval
      cases el with
      | item value =>
          rw [Element.operands, List.forall_mem_singleton] at heval
          unfold Eval.elements
          exact holds_bind heval fun v => ih _ hplaces hevals
      | pair key value =>
          simp only [Element.operands, List.forall_mem_cons] at hplace heval
          unfold Eval.elements
          refine holds_bind heval.1 fun kv => ?_
          refine holds_bind (holds_keyOf h.plain hplace.1 kv) fun key => ?_
          exact holds_bind heval.2.1 fun v => ih _ hplaces hevals

theorem holds_access {target offset : Expr} {bracket : Token} (hl : k.place bracket.location)
    (hoffset : k.place offset.location) (htarget : k.Holds (eval target))
    (heval : k.Holds (eval offset)) : k.Holds (Eval.access env eval target bracket offset) := by
  refine holds_bind htarget fun container => ?_
  refine holds_bind heval fun position => ?_
  cases container with
  | table es =>
      refine holds_bind (holds_keyOf h.plain hoffset position) fun key => ?_
      exact holds_someOrFail hl (h.fault _ rfl) _
  | object o =>
      refine holds_bind (holds_offsetName h.plain hoffset position) fun name => ?_
      exact holds_readProperty h hl o name
  | _ => exact holds_fail hl (h.fault _ rfl)

theorem holds_part {part : Expr} (hl : k.place part.location)
    (hliteral : ∀ t, part = .literal t → k.AdmitsLiteral t)
    (heval : part.fragment?.isNone → k.Holds (eval part)) : k.Holds (Eval.part env eval part) := by
  unfold Eval.part
  cases hf : part.fragment? with
  | some t =>
      have ht : part = .literal t := by
        cases part <;> simp only [Expr.fragment?, reduceCtorEq] at hf
        split at hf <;> simp_all
      subst ht
      exact holds_bind (holds_literalValue hl (hliteral t rfl)) fun v => holds_pure k _
  | none =>
      refine holds_bind (heval (by simp [hf])) fun v => ?_
      refine holds_bind (holds_stringOf? h.plain v) fun s => ?_
      cases s with
      | none => exact holds_fail hl (h.fault _ rfl)
      | some s => exact holds_pure k _

theorem holds_parts {ps : List Expr} (hplace : ∀ x ∈ ps, k.place x.location)
    (hliteral : ∀ x ∈ ps, ∀ t, x = .literal t → k.AdmitsLiteral t)
    (heval : ∀ x ∈ ps.filter fun part => part.fragment?.isNone, k.Holds (eval x)) :
    k.Holds (Eval.parts env eval ps) := by
  induction ps with
  | nil => exact holds_pure k ""
  | cons part rest ih =>
      rw [List.forall_mem_cons] at hplace hliteral
      have hpart : part.fragment?.isNone → k.Holds (eval part) := by
        intro hnone
        exact heval part (List.mem_filter.mpr ⟨List.mem_cons_self, hnone⟩)
      have hrest : ∀ x ∈ rest.filter fun part => part.fragment?.isNone, k.Holds (eval x) := by
        intro x hx
        obtain ⟨hmem, hnone⟩ := List.mem_filter.mp hx
        exact heval x (List.mem_filter.mpr ⟨List.mem_cons_of_mem part hmem, hnone⟩)
      unfold Eval.parts
      refine holds_bind (holds_part h hplace.1 hliteral.1 hpart) fun s => ?_
      exact holds_bind (ih hplace.2 hliteral.2 hrest) fun t => holds_pure k _

/-- A node obeys the contract if the operands that it visits do, the literals among it and its
operands fail as it permits, and its operator is known or may fail. -/
theorem holds_node {e : Expr} (hplace : k.place e.location)
    (hplaces : ∀ x ∈ e.operands, k.place x.location) (hoperator : k.AdmitsOperator e)
    (hliterals : ∀ x ∈ e :: e.operands, ∀ t, x = .literal t → k.AdmitsLiteral t)
    (heval : ∀ x ∈ e.visited, k.Holds (eval x)) : k.Holds (Eval.node env eval e) := by
  unfold Eval.node
  cases e with
  | literal t => exact holds_literalValue hplace (hliterals _ List.mem_cons_self t rfl)
  | «variable» t => exact holds_someOrFail hplace (h.fault _ rfl) _
  | unary op operand =>
      simp only [Expr.visited, Expr.operands, List.forall_mem_singleton] at heval
      exact holds_bind heval fun v => holds_unaryOperation h.plain hplace hoperator.unary v
  | cast op type operand =>
      simp only [Expr.visited, Expr.operands, List.forall_mem_singleton] at heval
      exact holds_bind heval fun v => holds_castOperation h.plain hplace type v
  | binary left op right =>
      simp only [Expr.visited, Expr.operands, List.forall_mem_cons] at heval
      exact holds_binary h hplace hoperator heval.1 heval.2.1
  | ternary condition question yes no =>
      simp only [Expr.visited, Expr.operands, List.forall_mem_cons] at heval
      refine holds_bind heval.1 fun c => ?_
      split
      · exact heval.2.1
      · exact heval.2.2.1
  | assign target op value => exact holds_fail hplace (h.fault _ rfl)
  | instanceOf value op cls =>
      simp only [Expr.operands, List.forall_mem_cons] at hplaces
      simp only [Expr.visited, List.forall_mem_cons] at heval
      exact holds_instanceOf h hplaces.2.1 heval.1 heval.2
  | access target bracket offset =>
      simp only [Expr.operands, List.forall_mem_cons] at hplaces
      simp only [Expr.visited, Expr.operands, List.forall_mem_cons] at heval
      exact holds_access h hplace hplaces.2.1 heval.1 heval.2.1
  | array opening es =>
      exact holds_bind (holds_elements h [] hplaces heval) fun t => holds_pure k _
  | property target op isStatic name =>
      simp only [Expr.operands, List.forall_mem_cons] at hplaces
      simp only [Expr.visited, List.forall_mem_append] at heval
      cases isStatic with
      | true => exact holds_constant h hplace hplaces.1 hplaces.2.1 heval.1 heval.2
      | false =>
          have htarget := heval.1 target (List.mem_singleton.mpr rfl)
          exact holds_property h hplace hplaces.2.1 htarget heval.2
  | methodCall target op isStatic name args =>
      simp only [Expr.operands, List.forall_mem_cons] at hplaces
      simp only [Expr.visited, List.forall_mem_append] at heval
      cases isStatic with
      | true =>
          exact holds_staticMethod h hplace hplaces.1 hplaces.2.1 hplaces.2.2 heval.1.1 heval.1.2
            heval.2
      | false =>
          have htarget := heval.1.1 target (List.mem_singleton.mpr rfl)
          exact holds_method h hplace hplaces.2.1 hplaces.2.2 htarget heval.1.2 heval.2
  | call callee paren args =>
      simp only [Expr.operands, List.forall_mem_cons] at hplaces
      simp only [Expr.visited, List.forall_mem_append] at heval
      exact holds_call h hplace hplaces.1 hplaces.2 heval.1 heval.2
  | interpolation opening ps =>
      rw [List.forall_mem_cons] at hliterals
      exact holds_bind (holds_parts h hplaces hliterals.2 heval) fun s => holds_pure k _

end Nodes

/-- So an evaluation obeys every contract that permits the limit and all places. -/
theorem holds_evaluateWithin (h : k.Admits env) (hplace : ∀ l, k.place l) {limit : Nat}
    (hlimit : k.fault (.stackOverflow limit)) (depth : Nat) (e : Expr) :
    k.Holds (e.evaluateWithin env limit depth) := by
  induction depth generalizing e with
  | zero => exact holds_fail (hplace e.location) hlimit
  | succ depth ih =>
      refine holds_node h.nodes (hplace e.location) (fun x _ => hplace x.location) (h.operator e)
        (fun _ _ t _ => h.literal t) ?_
      intro x _
      exact ih x

end Contract

end GuardedExpr
