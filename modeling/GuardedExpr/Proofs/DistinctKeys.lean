/-
# Distinct keys — kept along every run

Tables are lists of entries, and only writing them keeps their keys distinct
(`KeysDistinct.insert`).  This module carries that through the evaluator:

    x.KeepsKeys Q      from a record of calls that were handed tables with distinct keys, x
                       makes only such calls, and what it ends in is a Q

The judgement is kept by sequencing (`KeepsKeys.bind`), and each node of an expression
obeys it if the nodes below do (`keepsKeys_node`).  The induction is on the levels of
nesting, and its invariant is the whole record: what the host answers may go back to
anything that it was handed before.

What comes from outside is the one hypothesis (`Environment.KeysDistinct`).  Nothing is
asked of a host that was handed two entries under one key.

So no condition on the values is left where results of evaluations are compared.
-/
import GuardedExpr.Engine
import GuardedExpr.Host.FunctionTable
import GuardedExpr.Proofs.HostProtocol
import GuardedExpr.Proofs.LooseOrder

namespace GuardedExpr

/-! ## What is handed over, and what comes back -/

/-- The values that a call hands to the host. -/
def Call.arguments : Call → List Value
  | .invokeMethod _ _ args | .invokeStaticMethod _ _ args | .invokeFunction _ args => args
  | _ => []

/-- The tables that a call hands to the host have distinct keys. -/
def Call.KeysDistinct (c : Call) : Prop := ∀ v ∈ c.arguments, v.KeysDistinct

/-- A host that was only handed tables with distinct keys gives no others. -/
def Host.KeepsKeys (host : Host) : Prop :=
  ∀ (past : List Call) (offer : Offer) (vs : List Value) (v : Value),
    (∀ c ∈ past, c.KeysDistinct) → (∀ w ∈ vs, w.KeysDistinct) →
    offer.result host past vs = .ok v → v.KeysDistinct

/-- The tables that an evaluation gets from outside have distinct keys. -/
structure Environment.KeysDistinct (env : Environment) : Prop where
  context : ∀ name v, env.context.get? name = some v → v.KeysDistinct
  host : env.host.KeepsKeys

namespace Call

variable {c : Call} {offer : Offer} {vs : List Value}

theorem keysDistinct_of_arguments_eq_nil (h : c.arguments = []) : c.KeysDistinct := by
  intro v hv
  rw [h] at hv
  cases hv

theorem keysDistinct_of_isPlain (h : c.isPlain = true) : c.KeysDistinct := by
  refine keysDistinct_of_arguments_eq_nil ?_
  cases c <;> first | rfl | cases h

theorem keysDistinct_query (offer : Offer) : offer.query.KeysDistinct := by
  refine keysDistinct_of_arguments_eq_nil ?_
  cases offer <;> rfl

theorem keysDistinct_use (h : ∀ v ∈ vs, v.KeysDistinct) (offer : Offer) :
    (offer.use vs).KeysDistinct := by
  intro v hv
  cases offer with
  | property | constant => cases hv
  | method | staticMethod | function => exact h v hv

end Call

/-- The functions of a table are the only ones that give a value. -/
theorem FunctionTable.keepsKeys_host {t : FunctionTable}
    (h : ∀ name f, t.get? name = some f → ∀ vs, (∀ w ∈ vs, w.KeysDistinct) →
      ∀ v, f vs = .ok v → v.KeysDistinct) : t.host.KeepsKeys := by
  intro past offer vs v hpast hvs hresult
  cases offer with
  | function name =>
      have hinvoke : t.invoke name vs = .ok v := hresult
      unfold invoke at hinvoke
      cases hf : t.get? name with
      | none =>
          rw [hf] at hinvoke
          cases hinvoke
      | some f =>
          rw [hf] at hinvoke
          exact h name f hf vs hvs v hinvoke
  | property | method | constant | staticMethod => cases hresult

/-- A host that only shows objects gives no values. -/
theorem Host.keepsKeys_showing (strings : Handle → Option String) :
    (showing strings).KeepsKeys := by
  intro past offer vs v hpast hvs hresult
  cases offer <;> cases hresult

example : (Environment.mk .empty (.showing fun _ => none) .empty).KeysDistinct :=
  ⟨nofun, Host.keepsKeys_showing _⟩

/-! ## Values that are made -/

namespace Constant

variable {text : String} {es : Table}

theorem readFloat_ne_table (cs : List Char) : readFloat cs ≠ .ok (.table es) := by
  rw [readFloat]
  split <;> nofun

theorem ofInteger_ne_table : ofInteger text ≠ .ok (.table es) := by
  unfold ofInteger
  obtain ⟨base, body⟩ := splitBase ((withoutSeparators text).map Char.toLower)
  dsimp only
  split
  · nofun
  · nofun
  · split
    · exact readFloat_ne_table body
    · split <;> nofun

theorem ofFloat_ne_table : ofFloat text ≠ .ok (.table es) := by
  rw [ofFloat]
  split <;> nofun

theorem ofEscaped_ne_table : ofEscaped text ≠ .ok (.table es) := by
  rw [ofEscaped]
  split <;> nofun

theorem ofQuoted_ne_table : ofQuoted text ≠ .ok (.table es) := by
  rw [ofQuoted]
  cases betweenQuotes? '\'' text.toList with
  | some inner => nofun
  | none =>
      cases betweenQuotes? '"' text.toList with
      | some inner => exact ofEscaped_ne_table
      | none => nofun

/-- No token spells a table. -/
theorem ofToken_ne_table (t : Token) : ofToken t ≠ .ok (.table es) := by
  rw [ofToken]
  split
  · exact ofInteger_ne_table
  · exact ofFloat_ne_table
  · exact ofQuoted_ne_table
  · exact ofEscaped_ne_table
  all_goals nofun

end Constant

namespace Value

theorem keysDistinct_toValue (n : Number) : n.toValue.KeysDistinct := by
  cases n <;> exact .plain nofun

theorem KeysDistinct.toTable {v : Value} (h : v.KeysDistinct) :
    KeysDistinct (.table v.toTable) := by
  cases v with
  | table es => exact h
  | null => exact .table List.nodup_nil nofun
  | bool | int | float | str | object =>
      refine .table (List.pairwise_singleton _ _) fun e he => ?_
      rw [List.mem_singleton.mp he]
      exact h

/-- What is found in a table is as the table. -/
theorem KeysDistinct.of_find? {es : Table} {k : Key} {v : Value} (h : KeysDistinct (.table es))
    (hv : Table.find? k es = some v) : v.KeysDistinct :=
  h.of_mem (Table.mem_of_find? hv)

end Value

/-! ## Computations -/

namespace EvalM

variable {α β : Type} {P : α → Prop} {Q : β → Prop}

/-- Where the calls on record were handed tables with distinct keys, so are those that the
computation makes, and the property holds of its result, if it has one. -/
def KeepsKeys (Q : α → Prop) (x : EvalM α) : Prop :=
  ∀ past, (∀ c ∈ past, c.KeysDistinct) →
    (∀ c ∈ (x.runOn past).2, c.KeysDistinct) ∧ ∀ a, (x.runOn past).1 = .ok a → Q a

theorem keepsKeys_pure {a : α} (h : P a) : (pure a : EvalM α).KeepsKeys P := by
  intro past hpast
  refine ⟨hpast, fun b hb => ?_⟩
  cases hb
  exact h

theorem keepsKeys_fail (l : Location) (fault : EvalFault) :
    (fail l fault : EvalM α).KeepsKeys P := by
  intro past hpast
  refine ⟨hpast, fun a ha => ?_⟩
  cases ha

theorem KeepsKeys.bind {x : EvalM α} {f : α → EvalM β} (hx : x.KeepsKeys P)
    (hf : ∀ a, P a → (f a).KeepsKeys Q) : (x >>= f).KeepsKeys Q := by
  intro past hpast
  obtain ⟨hcalls, hresult⟩ := hx past hpast
  cases hrun : x.runOn past with
  | mk result after =>
      rw [hrun] at hcalls hresult
      cases result with
      | error e =>
          rw [runOn_bind_error hrun]
          refine ⟨hcalls, fun b hb => ?_⟩
          cases hb
      | ok a =>
          rw [runOn_bind_ok hrun]
          exact hf a (hresult a rfl) after hcalls

/-- Questions about objects hand over no values. -/
theorem keepsKeys_of_plain {x : EvalM α} (h : Contract.plain.Holds x) :
    x.KeepsKeys fun _ => True := by
  intro past hpast
  obtain ⟨calls, hrec, hplain, -⟩ := h past
  refine ⟨?_, fun a _ => trivial⟩
  rw [hrec]
  intro c hc
  rcases List.mem_append.mp hc with hc | hc
  · exact Call.keysDistinct_of_isPlain (hplain c hc)
  · exact hpast c hc

theorem keepsKeys_someOrFail {o : Option α} (l : Location) (fault : EvalFault)
    (h : ∀ a, o = some a → P a) : (someOrFail l fault o).KeepsKeys P := by
  cases o with
  | none => exact keepsKeys_fail l fault
  | some a => exact keepsKeys_pure (h a rfl)

/-- A result that is no table, behind a computation that only asks about objects. -/
theorem keepsKeys_plainResult {x : EvalM α} {f : α → Value} (hx : Contract.plain.Holds x)
    (hf : ∀ a es, f a ≠ .table es) : (do return f (← x)).KeepsKeys Value.KeysDistinct :=
  (keepsKeys_of_plain hx).bind fun a _ => keepsKeys_pure (.plain (hf a))

end EvalM

namespace Eval

open EvalM Contract

variable {env : Environment} {eval : Expr → EvalM Value}

theorem keepsKeys_literalValue (t : Token) : (literalValue t).KeepsKeys Value.KeysDistinct := by
  rw [literalValue]
  cases hv : Constant.ofToken t with
  | error fault => exact keepsKeys_fail _ _
  | ok v =>
      refine keepsKeys_pure (.plain fun es hes => ?_)
      exact Constant.ofToken_ne_table t (hes ▸ hv)

theorem keepsKeys_keyOf (l : Location) (v : Value) : (keyOf l v).KeepsKeys fun _ => True :=
  keepsKeys_of_plain (holds_keyOf plain_admitsPlain trivial v)

theorem keepsKeys_objectOf (l : Location) (member : String) (v : Value) :
    (objectOf l member v).KeepsKeys fun _ => True :=
  keepsKeys_of_plain (holds_objectOf plain_admitsPlain trivial member v)

/-! ## Operators -/

theorem keepsKeys_arithmetic (arith : ArithmeticOp) (op : Token) (left right : Value) :
    (arithmetic arith op left right).KeepsKeys Value.KeysDistinct := by
  refine (keepsKeys_of_plain (holds_someOrFail trivial rfl _)).bind fun a _ => ?_
  refine (keepsKeys_of_plain (holds_someOrFail trivial rfl _)).bind fun b _ => ?_
  refine (keepsKeys_of_plain (holds_someOrFail trivial rfl _)).bind fun n _ => ?_
  exact keepsKeys_pure (Value.keysDistinct_toValue n)

theorem keepsKeys_concat (op : Token) (left right : Value) :
    (concat env op left right).KeepsKeys Value.KeysDistinct := by
  refine (keepsKeys_of_plain (holds_textOperand plain_admitsPlain trivial _ _)).bind fun s _ => ?_
  exact keepsKeys_plainResult (holds_textOperand plain_admitsPlain trivial _ _) nofun

theorem keepsKeys_compare (left right : Value) :
    (left.compare env.objectText right).KeepsKeys fun _ => True := by
  have htext : ∀ o, plain.Holds (env.objectText o) := holds_objectText plain_admitsPlain
  exact keepsKeys_of_plain (holds_compare htext left right)

theorem keepsKeys_ordered (orders : List Ordering) (left right : Value) :
    (ordered env orders left right).KeepsKeys Value.KeysDistinct := by
  refine (keepsKeys_compare left right).bind fun o _ => ?_
  cases o <;> exact keepsKeys_pure (.plain nofun)

theorem keepsKeys_spaceship (left right : Value) :
    (spaceship env left right).KeepsKeys Value.KeysDistinct := by
  refine (keepsKeys_compare left right).bind fun o _ => ?_
  rcases o with _ | _ | _ | _ <;> exact keepsKeys_pure (.plain nofun)

/-- No operator on two values gives a table. -/
theorem keepsKeys_binaryOperation (op : Token) (left right : Value) :
    (binaryOperation env op left right).KeepsKeys Value.KeysDistinct := by
  rw [binaryOperation]
  split
  · exact keepsKeys_concat op left right
  · exact keepsKeys_pure (.plain nofun)
  · exact keepsKeys_plainResult (holds_looseEquals plain_admitsPlain left right) nofun
  · exact keepsKeys_plainResult (holds_looseEquals plain_admitsPlain left right) nofun
  · exact keepsKeys_pure (.plain nofun)
  · exact keepsKeys_pure (.plain nofun)
  · exact keepsKeys_ordered _ left right
  · exact keepsKeys_ordered _ left right
  · exact keepsKeys_ordered _ left right
  · exact keepsKeys_ordered _ left right
  · exact keepsKeys_spaceship left right
  · split
    · exact keepsKeys_arithmetic _ op left right
    · exact keepsKeys_fail _ _

theorem keepsKeys_unaryOperation (op : Token) (v : Value) :
    (unaryOperation op v).KeepsKeys Value.KeysDistinct := by
  rw [unaryOperation]
  split
  · exact keepsKeys_pure (.plain nofun)
  · refine (keepsKeys_of_plain (holds_someOrFail trivial rfl _)).bind fun n _ => ?_
    split
    · exact keepsKeys_pure (Value.keysDistinct_toValue _)
    · exact keepsKeys_pure (Value.keysDistinct_toValue _)
    · exact keepsKeys_fail _ _

theorem keepsKeys_castOperation (op : Token) (type : CastType) {v : Value}
    (h : v.KeysDistinct) : (castOperation op type v).KeepsKeys Value.KeysDistinct := by
  unfold castOperation
  split
  · exact keepsKeys_pure h.toTable
  · split
    · exact keepsKeys_fail _ _
    · cases type with
      | array => exact keepsKeys_pure h.toTable
      | int | float | string | bool => exact keepsKeys_pure (.plain nofun)

/-! ## Steps of a request -/

theorem keepsKeys_askOwnerClass (offer : Offer) :
    (askOwnerClass env offer).KeepsKeys fun _ => True := by
  cases offer with
  | property | method => exact keepsKeys_of_plain (holds_askPlain plain_admitsPlain rfl)
  | constant | staticMethod | function => exact keepsKeys_pure trivial

theorem keepsKeys_refusal (offer : Offer) (l : Location) (fault : String → EvalFault) :
    (do fail l (fault (← askOwnerClass env offer)) : EvalM Value).KeepsKeys
      Value.KeysDistinct :=
  (keepsKeys_askOwnerClass offer).bind fun _ _ => keepsKeys_fail _ _

theorem keepsKeys_askWhether (offer : Offer) :
    (askWhether env offer).KeepsKeys fun _ => True := by
  intro past hpast
  rw [runOn_askWhether]
  refine ⟨List.forall_mem_cons.mpr ⟨Call.keysDistinct_query offer, hpast⟩, ?_⟩
  exact fun _ _ => trivial

theorem keepsKeys_makeUse (henv : env.KeysDistinct) {vs : List Value}
    (hvs : ∀ v ∈ vs, v.KeysDistinct) (offer : Offer) :
    (makeUse env vs offer).KeepsKeys fun r => ∀ v, r = .ok v → v.KeysDistinct := by
  intro past hpast
  rw [runOn_makeUse]
  refine ⟨List.forall_mem_cons.mpr ⟨Call.keysDistinct_use hvs offer, hpast⟩, ?_⟩
  intro r hr v hv
  cases hr
  exact henv.host past offer vs v hpast hvs hv

/-! ## Operands -/

section Nodes

variable (heval : ∀ e, (eval e).KeepsKeys Value.KeysDistinct)
include heval

theorem keepsKeys_arguments (args : List Argument) :
    (arguments eval args).KeepsKeys fun vs => ∀ v ∈ vs, v.KeysDistinct := by
  induction args with
  | nil => exact keepsKeys_pure nofun
  | cons arg rest ih =>
      obtain ⟨byRef, value⟩ := arg
      cases byRef with
      | true => exact keepsKeys_fail _ _
      | false =>
          refine (heval value).bind fun v hv => ih.bind fun vs hvs => ?_
          exact keepsKeys_pure (List.forall_mem_cons.mpr ⟨hv, hvs⟩)

theorem keepsKeys_stringName (role : NameRole) (name : Expr) :
    (stringName eval role name).KeepsKeys fun _ => True := by
  rw [stringName]
  split
  · exact keepsKeys_pure trivial
  · refine (heval name).bind fun v _ => ?_
    cases v with
    | str s => exact keepsKeys_pure trivial
    | _ => exact keepsKeys_fail _ _

theorem keepsKeys_className (target : Expr) :
    (className env eval target).KeepsKeys fun _ => True := by
  rw [className]
  split
  · exact keepsKeys_pure trivial
  · refine (heval target).bind fun v _ => ?_
    cases v with
    | str s => exact keepsKeys_pure trivial
    | object o => exact keepsKeys_of_plain (holds_askPlain plain_admitsPlain rfl)
    | _ => exact keepsKeys_fail _ _

theorem keepsKeys_binary (left : Expr) (op : Token) (right : Expr) :
    (binary env eval left op right).KeepsKeys Value.KeysDistinct := by
  have htruth : (do return Value.bool (← eval right).truthy : EvalM Value).KeepsKeys
      Value.KeysDistinct :=
    (heval right).bind fun w _ => keepsKeys_pure (.plain nofun)
  rw [binary]
  split
  iterate 2
    refine (heval left).bind fun v _ => ?_
    split
    · exact htruth
    · exact keepsKeys_pure (.plain nofun)
  iterate 2
    refine (heval left).bind fun v _ => ?_
    split
    · exact keepsKeys_pure (.plain nofun)
    · exact htruth
  · refine (heval left).bind fun v hv => ?_
    split
    · exact heval right
    · exact keepsKeys_pure hv
  · refine (heval left).bind fun v _ => (heval right).bind fun w _ => ?_
    exact keepsKeys_binaryOperation op v w

theorem keepsKeys_instanceOf (value cls : Expr) :
    (instanceOf env eval value cls).KeepsKeys Value.KeysDistinct := by
  refine (heval value).bind fun v _ => ?_
  cases v with
  | object o =>
      refine (keepsKeys_className heval cls).bind fun name _ => ?_
      exact keepsKeys_plainResult (holds_askPlain plain_admitsPlain rfl) nofun
  | _ => exact keepsKeys_pure (.plain nofun)

theorem keepsKeys_part (e : Expr) : (part env eval e).KeepsKeys fun _ => True := by
  rw [part]
  split
  · next t _ => exact (keepsKeys_literalValue t).bind fun v _ => keepsKeys_pure trivial
  · refine (heval e).bind fun v _ => ?_
    refine (keepsKeys_of_plain (holds_stringOf? plain_admitsPlain v)).bind fun s _ => ?_
    cases s with
    | none => exact keepsKeys_fail _ _
    | some s => exact keepsKeys_pure trivial

theorem keepsKeys_parts (es : List Expr) : (parts env eval es).KeepsKeys fun _ => True := by
  induction es with
  | nil => exact keepsKeys_pure trivial
  | cons e rest ih =>
      exact (keepsKeys_part heval e).bind fun s _ => ih.bind fun t _ => keepsKeys_pure trivial

/-- Elements are written one after the other. -/
theorem keepsKeys_elements {t : Table} (ht : Value.KeysDistinct (.table t)) (es : List Element) :
    (elements eval t es).KeepsKeys fun t => Value.KeysDistinct (.table t) := by
  induction es generalizing t with
  | nil => exact keepsKeys_pure ht
  | cons el rest ih =>
      cases el with
      | item value => exact (heval value).bind fun v hv => ih (ht.insert hv _)
      | pair key value =>
          refine (heval key).bind fun kv _ => ?_
          refine (keepsKeys_keyOf key.location kv).bind fun k _ => ?_
          exact (heval value).bind fun v hv => ih (ht.insert hv k)

/-! ## Requests -/

variable (henv : env.KeysDistinct)
include henv

/-- What a host gives for arguments with distinct keys has distinct keys. -/
theorem keepsKeys_request (offer : Offer) (absent used : Location) (args : List Argument) :
    (request env eval offer absent used args).KeepsKeys Value.KeysDistinct := by
  refine (keepsKeys_askWhether offer).bind fun there _ => ?_
  split
  · refine (keepsKeys_arguments heval args).bind fun vs hvs => ?_
    refine (keepsKeys_makeUse henv hvs offer).bind fun answer hanswer => ?_
    cases answer with
    | ok v => exact keepsKeys_pure (hanswer v rfl)
    | error e => exact keepsKeys_refusal offer used fun cls => .host (offer.callee cls) e
  · exact keepsKeys_refusal offer absent fun cls => offer.undefined cls

theorem keepsKeys_readProperty (l : Location) (o : Handle) (name : String) :
    (readProperty env l o name).KeepsKeys Value.KeysDistinct := by
  have hrequest := keepsKeys_request heval henv (.property o name) l l []
  rwa [← readProperty_eq] at hrequest

theorem keepsKeys_access (target : Expr) (bracket : Token) (offset : Expr) :
    (access env eval target bracket offset).KeepsKeys Value.KeysDistinct := by
  refine (heval target).bind fun container hcontainer => (heval offset).bind fun position _ => ?_
  cases container with
  | table es =>
      refine (keepsKeys_keyOf offset.location position).bind fun k _ => ?_
      exact keepsKeys_someOrFail _ _ fun v hv => hcontainer.of_find? hv
  | object o =>
      have hname := holds_offsetName plain_admitsPlain (l := offset.location) trivial position
      refine (keepsKeys_of_plain hname).bind fun name _ => ?_
      exact keepsKeys_readProperty heval henv bracket.location o name
  | _ => exact keepsKeys_fail _ _

theorem keepsKeys_property (target : Expr) (op : Token) (name : Expr) :
    (property env eval target op name).KeepsKeys Value.KeysDistinct := by
  refine (heval target).bind fun v _ => ?_
  refine (keepsKeys_stringName heval .member name).bind fun member _ => ?_
  refine (keepsKeys_objectOf op.location member v).bind fun o _ => ?_
  exact keepsKeys_readProperty heval henv op.location o member

theorem keepsKeys_method (target : Expr) (op : Token) (name : Expr) (args : List Argument) :
    (method env eval target op name args).KeepsKeys Value.KeysDistinct := by
  rw [method_eq]
  refine (heval target).bind fun v _ => ?_
  refine (keepsKeys_stringName heval .member name).bind fun member _ => ?_
  refine (keepsKeys_objectOf op.location member v).bind fun o _ => ?_
  exact keepsKeys_request heval henv _ _ _ _

theorem keepsKeys_constant (target : Expr) (op : Token) (name : Expr) :
    (constant env eval target op name).KeepsKeys Value.KeysDistinct := by
  rw [constant_eq]
  refine (keepsKeys_className heval target).bind fun cls _ => ?_
  refine (keepsKeys_stringName heval .member name).bind fun member _ => ?_
  split
  · exact keepsKeys_pure (.plain nofun)
  · exact keepsKeys_request heval henv _ _ _ _

theorem keepsKeys_staticMethod (target : Expr) (op : Token) (name : Expr)
    (args : List Argument) :
    (staticMethod env eval target op name args).KeepsKeys Value.KeysDistinct := by
  rw [staticMethod_eq]
  refine (keepsKeys_className heval target).bind fun cls _ => ?_
  refine (keepsKeys_stringName heval .member name).bind fun member _ => ?_
  exact keepsKeys_request heval henv _ _ _ _

theorem keepsKeys_call (callee : Expr) (paren : Token) (args : List Argument) :
    (call env eval callee paren args).KeepsKeys Value.KeysDistinct := by
  rw [call_eq]
  refine (keepsKeys_stringName heval .function callee).bind fun name _ => ?_
  split
  · exact keepsKeys_fail _ _
  · exact keepsKeys_request heval henv _ _ _ _

/-! ## Nodes -/

/-- A node keeps keys distinct if the nodes below do. -/
theorem keepsKeys_node (e : Expr) : (node env eval e).KeepsKeys Value.KeysDistinct := by
  unfold node
  cases e with
  | literal t => exact keepsKeys_literalValue t
  | «variable» t => exact keepsKeys_someOrFail _ _ fun v hv => henv.context _ v hv
  | unary op operand => exact (heval operand).bind fun v _ => keepsKeys_unaryOperation op v
  | cast op type operand =>
      exact (heval operand).bind fun v hv => keepsKeys_castOperation op type hv
  | binary left op right => exact keepsKeys_binary heval left op right
  | ternary condition question yes no =>
      refine (heval condition).bind fun c _ => ?_
      split
      · exact heval yes
      · exact heval no
  | assign target op value => exact keepsKeys_fail _ _
  | instanceOf value op cls => exact keepsKeys_instanceOf heval value cls
  | access target bracket offset => exact keepsKeys_access heval henv target bracket offset
  | array opening es =>
      have hempty : Value.KeysDistinct (.table []) := .table List.nodup_nil nofun
      exact (keepsKeys_elements heval hempty es).bind fun t ht => keepsKeys_pure ht
  | property target op isStatic name =>
      cases isStatic with
      | true => exact keepsKeys_constant heval henv target op name
      | false => exact keepsKeys_property heval henv target op name
  | methodCall target op isStatic name args =>
      cases isStatic with
      | true => exact keepsKeys_staticMethod heval henv target op name args
      | false => exact keepsKeys_method heval henv target op name args
  | call callee paren args => exact keepsKeys_call heval henv callee paren args
  | interpolation opening ps =>
      exact (keepsKeys_parts heval ps).bind fun s _ => keepsKeys_pure (.plain nofun)

end Nodes

end Eval

/-! ## Runs -/

/-- **Evaluation keeps the keys of tables distinct**, in the value that it gives and in all that
it hands to the host. -/
theorem Expr.keepsKeys_evaluateWithin {env : Environment} (henv : env.KeysDistinct)
    (limit depth : Nat) (e : Expr) :
    (e.evaluateWithin env limit depth).KeepsKeys Value.KeysDistinct := by
  induction depth generalizing e with
  | zero => exact EvalM.keepsKeys_fail _ _
  | succ depth ih => exact Eval.keepsKeys_node ih henv e

/-- So does an engine, whatever source it runs. -/
theorem Engine.keysDistinct_runSource {engine : Engine} {context : Context} {host : Host}
    (henv : (Environment.mk context host engine.denied).KeysDistinct) (source : String)
    {past : List Call} (hpast : ∀ c ∈ past, c.KeysDistinct) :
    (∀ c ∈ ((engine.runSource source context host).run past).2, c.KeysDistinct) ∧
      ∀ v, ((engine.runSource source context host).run past).1 = .ok v → v.KeysDistinct := by
  rw [runSource]
  cases engine.compile source with
  | error failure => exact ⟨hpast, nofun⟩
  | ok code =>
      have hkeeps := Expr.keepsKeys_evaluateWithin henv engine.limits.evaluation
        engine.limits.evaluation code.tree
      obtain ⟨hcalls, hvalue⟩ := hkeeps past hpast
      refine ⟨hcalls, fun v hv => hvalue v ?_⟩
      -- The failures of an engine are those of the evaluation under another name.
      have hv : ((code.tree.evaluate ⟨context, host, engine.denied⟩
          engine.limits.evaluation).runOn past).1.mapError Failure.ofEvalError = .ok v := hv
      cases hresult : ((code.tree.evaluate ⟨context, host, engine.denied⟩
          engine.limits.evaluation).runOn past).1 with
      | error e =>
          rw [hresult] at hv
          cases hv
      | ok w =>
          rw [hresult] at hv
          cases hv
          exact hresult

/-! ## Comparing results -/

/-- The value is what an evaluation ends in. -/
def Environment.Obtains (env : Environment) (v : Value) : Prop :=
  ∃ (limit : Nat) (e : Expr), ((e.evaluate env limit).runOn []).1 = .ok v

theorem Environment.Obtains.keysDistinct {env : Environment} {v : Value}
    (h : env.Obtains v) (henv : env.KeysDistinct) : v.KeysDistinct := by
  obtain ⟨limit, e, hrun⟩ := h
  exact (Expr.keepsKeys_evaluateWithin henv limit limit e [] nofun).2 v hrun

namespace Token

open EvalM

variable {env : Environment} {strings : Handle → Option String} {op op' : Token} {v w : Value}

theorem yields_equal {equal : Bool} (limit : Nat) (h : op.kind = .equal)
    (heq : (v.looseEquals env.objectText w).Answers equal) :
    op.Yields env limit v w (.bool equal) := by
  intro depth left right past calls calls' hleft hright
  obtain ⟨calls'', hrun⟩ := heq calls'
  refine ⟨calls'', ?_⟩
  show (Eval.binary env _ left op right).runOn past = _
  unfold Eval.binary Eval.binaryOperation
  simp only [h]
  rw [runOn_bind_ok hleft, runOn_bind_ok hright, runOn_bind_ok hrun]
  rfl

/-- Results of evaluations are equal from both sides or from none. -/
theorem yields_equal_of_obtains (henv : env.KeysDistinct) (hhost : env.host.ShowsObjects strings)
    (hv : env.Obtains v) (hw : env.Obtains w) (limit : Nat) (hop : op.kind = .equal) :
    ∃ equal, op.Yields env limit v w (.bool equal) ∧ op.Yields env limit w v (.bool equal) := by
  have htext := env.answers_objectText hhost
  have hv := hv.keysDistinct henv
  have hw := hw.keysDistinct henv
  have hsymm : (Value.order strings w v == some .eq) = (Value.order strings v w == some .eq) := by
    rw [Bool.eq_iff_iff, beq_iff_eq, beq_iff_eq]
    exact ⟨Value.order_eq_symm hw hv, Value.order_eq_symm hv hw⟩
  refine ⟨Value.order strings v w == some .eq, ?_, ?_⟩
  · exact yields_equal limit hop (Value.looseEquals_answers htext v w)
  · rw [← hsymm]
    exact yields_equal limit hop (Value.looseEquals_answers htext w v)

/-- Aligned results of evaluations are compared alike from both sides. -/
theorem yields_mirrored_of_obtains (henv : env.KeysDistinct)
    (hhost : env.host.ShowsObjects strings) (hv : env.Obtains v) (hw : env.Obtains w)
    (haligned : Value.Aligned strings v w) (limit : Nat) (hop : op.kind.Mirrors op'.kind) :
    ∃ holds, op.Yields env limit v w (.bool holds) ∧
      op'.Yields env limit w v (.bool holds) := by
  have htext := env.answers_objectText hhost
  have hswap := Value.order_swap (hv.keysDistinct henv) (hw.keysDistinct henv) haligned
  refine yields_of_mirrors hop (Value.compare_answers htext v w) ?_
  rw [← hswap]
  exact Value.compare_answers htext w v

end Token

end GuardedExpr
