/-
# Plain trees — what of a tree decides the outcome

A tree keeps the places of its tokens, which only its errors show.  `Expr.plain` takes
them away, and with them two differences in spelling that evaluation does not see: a
member may be named by any kind of word, and an offset that is a bare word is the
string of its letters.

The plain tree is evaluated like the tree itself (`sameOutcome_node`): to the same value
or the same fault, with the same calls, whatever the limit.  So two trees that have the
same plain tree do not differ either.  Only the text of an expression that an error
quotes may be spelt otherwise.
-/
import GuardedExpr.Proofs.PrintedValues
import GuardedExpr.Proofs.ReadingBack
import GuardedExpr.Proofs.Rendering
import GuardedExpr.Proofs.SkippedOperands

namespace GuardedExpr

/-! ## Trees without places -/

@[simp] theorem Token.unplaced_kind (t : Token) : t.unplaced.kind = t.kind := rfl

/-- Only names are fragments between brackets. -/
def Token.isBareWord (t : Token) : Bool :=
  t.kind == .fragment && t.text.toList.all Text.isNameChar

namespace Expr

/-- The name of a member: any word is as good as another with the same text. -/
def asName : Expr → Expr
  | .literal t => if t.kind.isWord then .literal { t with kind := .identifier } else .literal t
  | e => e

/-- An offset: a bare word is a string. -/
def asOffset : Expr → Expr
  | .literal t =>
    if t.isBareWord then .literal { t with kind := .string, text := Literal.quoteSingle t.text }
    else .literal t
  | e => e

mutual

/-- The tree without places, names of members as identifiers and bare words as strings. -/
def plain : Expr → Expr
  | .literal t => .literal t.unplaced
  | .variable t => .variable t.unplaced
  | .unary op operand => .unary op.unplaced operand.plain
  | .cast op type operand => .cast op.unplaced type operand.plain
  | .binary left op right => .binary left.plain op.unplaced right.plain
  | .ternary condition question yes no =>
    .ternary condition.plain question.unplaced yes.plain no.plain
  | .assign target op value => .assign target.plain op.unplaced value.plain
  | .instanceOf value op cls => .instanceOf value.plain op.unplaced cls.plain
  | .access target bracket offset => .access target.plain bracket.unplaced offset.plain.asOffset
  | .array opening elements => .array opening.unplaced (plainElements elements)
  | .property target op isStatic name =>
    .property target.plain op.unplaced isStatic name.plain.asName
  | .methodCall target op isStatic name args =>
    .methodCall target.plain op.unplaced isStatic name.plain.asName (plainArguments args)
  | .call callee paren args => .call callee.plain paren.unplaced (plainArguments args)
  | .interpolation opening parts => .interpolation opening.unplaced (plainParts parts)

def plainElements : List Element → List Element
  | [] => []
  | .item value :: rest => .item value.plain :: plainElements rest
  | .pair key value :: rest => .pair key.plain value.plain :: plainElements rest

def plainArguments : List Argument → List Argument
  | [] => []
  | .mk byRef value :: rest => .mk byRef value.plain :: plainArguments rest

def plainParts : List Expr → List Expr
  | [] => []
  | part :: rest => part.plain :: plainParts rest

end

/-! ### What is looked at of an operand -/

theorem bareName?_plain (e : Expr) : e.plain.bareName? = e.bareName? := by
  cases e <;> rfl

theorem bareName?_asName (e : Expr) : e.asName.bareName? = e.bareName? := by
  cases e with
  | literal t =>
      by_cases hword : t.kind.isWord = true
      · rw [asName, if_pos hword]
        exact (if_pos hword).symm
      · rw [asName, if_neg hword]
  | _ => rfl

/-- What is no bare word is no other name either. -/
theorem asName_of_bareName? {e : Expr} (h : e.bareName? = none) : e.asName = e := by
  cases e with
  | literal t =>
      have hword : ¬ t.kind.isWord = true := by simpa [bareName?] using h
      exact if_neg hword
  | _ => rfl

/-- Two words with the same text name the same member. -/
theorem asName_unplaced {t u : Token} (ht : t.kind.isWord = true) (hu : u.kind.isWord = true)
    (htext : t.text = u.text) : (literal t.unplaced).asName = (literal u.unplaced).asName := by
  have ht : t.unplaced.kind.isWord = true := ht
  have hu : u.unplaced.kind.isWord = true := hu
  rw [asName, if_pos ht, asName, if_pos hu]
  simp [Token.unplaced, htext]

/-- A bare word is the string of its letters. -/
theorem asOffset_unplaced {t u : Token} (ht : t.isBareWord = true)
    (hu : u.word = (.string, Literal.quoteSingle t.text)) :
    (literal t.unplaced).asOffset = (literal u.unplaced).asOffset := by
  obtain ⟨hkind, htext⟩ := Prod.mk.inj hu
  have hword : ¬ u.unplaced.isBareWord = true := by simp [Token.isBareWord, hkind]
  rw [asOffset, if_pos (show t.unplaced.isBareWord = true from ht), asOffset, if_neg hword]
  simp [Token.unplaced, hkind, htext]

theorem fragment?_plain (e : Expr) : e.plain.fragment? = e.fragment?.map Token.unplaced := by
  cases e with
  | literal t =>
      show (if t.kind = .fragment then some t.unplaced else none)
        = (if t.kind = .fragment then some t else none).map Token.unplaced
      split <;> rfl
  | _ => rfl

end Expr

/-! ## Outcomes without places -/

/-- The fault, wherever it was found, without the text of the expression that it quotes. -/
def EvalError.cause (e : EvalError) : EvalFault := e.fault.withoutText

namespace EvalM

variable {α β : Type}

/-- Whatever has been called before: the same value or the same fault, and the same calls. -/
def SameOutcome (x y : EvalM α) : Prop :=
  ∀ past, AgreeBy EvalError.cause (x.runOn past) (y.runOn past)

theorem SameOutcome.refl (x : EvalM α) : SameOutcome x x := fun _ => ⟨rfl, rfl⟩

theorem SameOutcome.symm {x y : EvalM α} (h : SameOutcome x y) : SameOutcome y x :=
  fun past => ⟨(h past).1.symm, (h past).2.symm⟩

theorem SameOutcome.trans {x y z : EvalM α} (h : SameOutcome x y) (h' : SameOutcome y z) :
    SameOutcome x z := fun past => ⟨(h past).1.trans (h' past).1, (h past).2.trans (h' past).2⟩

theorem SameOutcome.bind {x y : EvalM α} {f g : α → EvalM β} (h : SameOutcome x y)
    (hf : ∀ a, SameOutcome (f a) (g a)) : SameOutcome (x >>= f) (y >>= g) :=
  fun past => agreeBy_bind (h past) fun a calls _ => hf a calls

/-- The same first and then the same outcome. -/
theorem SameOutcome.then (x : EvalM α) {f g : α → EvalM β} (hf : ∀ a, SameOutcome (f a) (g a)) :
    SameOutcome (x >>= f) (x >>= g) := .bind (.refl x) hf

section Faults

variable (l l' : Location)

theorem sameOutcome_fail {fault fault' : EvalFault} (h : fault.withoutText = fault'.withoutText) :
    SameOutcome (fail l fault : EvalM α) (fail l' fault') :=
  fun _ => ⟨congrArg Except.error h, rfl⟩

theorem sameOutcome_orFail {ε : Type} (fault : ε → EvalFault) (r : Except ε α) :
    SameOutcome (orFail l fault r) (orFail l' fault r) := by
  cases r with
  | ok a => exact .refl _
  | error e => exact sameOutcome_fail l l' rfl

theorem sameOutcome_someOrFail (fault : EvalFault) (o : Option α) :
    SameOutcome (someOrFail l fault o) (someOrFail l' fault o) := by
  cases o with
  | some a => exact .refl _
  | none => exact sameOutcome_fail l l' rfl

end Faults

end EvalM

open EvalM

namespace Eval

variable {env : Environment}

/-! ## Operations on values -/

section Values

variable (l l' : Location) (op : Token)

theorem sameOutcome_keyOf (v : Value) : SameOutcome (keyOf l v) (keyOf l' v) := by
  cases v with
  | int n => exact .refl _
  | str s => exact .refl _
  | _ => exact sameOutcome_fail l l' rfl

theorem sameOutcome_offsetName (v : Value) : SameOutcome (offsetName l v) (offsetName l' v) := by
  cases v with
  | int n => exact .refl _
  | str s => exact .refl _
  | _ => exact sameOutcome_fail l l' rfl

theorem sameOutcome_objectOf (member : String) (v : Value) :
    SameOutcome (objectOf l member v) (objectOf l' member v) := by
  cases v with
  | object h => exact .refl _
  | _ => exact sameOutcome_fail l l' rfl

theorem sameOutcome_numberOperand (side : Side) (v : Value) :
    SameOutcome (numberOperand op side v) (numberOperand op.unplaced side v) :=
  sameOutcome_someOrFail _ _ _ _

theorem sameOutcome_textOperand (side : Side) (v : Value) :
    SameOutcome (textOperand env op side v) (textOperand env op.unplaced side v) :=
  .then _ fun s => sameOutcome_someOrFail _ _ _ s

theorem sameOutcome_arithmetic (arith : ArithmeticOp) (v w : Value) :
    SameOutcome (arithmetic arith op v w) (arithmetic arith op.unplaced v w) := by
  refine .bind (sameOutcome_numberOperand op .left v) fun a => ?_
  refine .bind (sameOutcome_numberOperand op .right w) fun b => ?_
  exact .bind (sameOutcome_someOrFail _ _ _ _) fun n => .refl _

theorem sameOutcome_binaryOperation (v w : Value) :
    SameOutcome (binaryOperation env op v w) (binaryOperation env op.unplaced v w) := by
  unfold binaryOperation
  rw [Token.unplaced_kind]
  split
  · refine .bind (sameOutcome_textOperand op .left v) fun s => ?_
    exact .bind (sameOutcome_textOperand op .right w) fun t => .refl _
  all_goals first
    | exact .refl _
    | skip
  split
  · exact sameOutcome_arithmetic op _ v w
  · exact sameOutcome_fail _ _ rfl

theorem sameOutcome_unaryOperation (v : Value) :
    SameOutcome (unaryOperation op v) (unaryOperation op.unplaced v) := by
  unfold unaryOperation
  rw [Token.unplaced_kind]
  split
  · exact .refl _
  · refine .bind (sameOutcome_someOrFail _ _ _ _) fun n => ?_
    split
    · exact .refl _
    · exact .refl _
    · exact sameOutcome_fail _ _ rfl

theorem sameOutcome_castOperation (type : CastType) (v : Value) :
    SameOutcome (castOperation op type v) (castOperation op.unplaced type v) := by
  unfold castOperation
  split
  · exact .refl _
  · split
    · exact sameOutcome_fail _ _ rfl
    · exact .refl _

theorem sameOutcome_literalValue {t t' : Token} (h : Constant.ofToken t = Constant.ofToken t') :
    SameOutcome (literalValue t) (literalValue t') := by
  unfold literalValue
  rw [h]
  exact sameOutcome_orFail _ _ _ _

end Values

/-! ## Nodes -/

/-- The second evaluation does on plain trees what the first does on trees. -/
structure EvaluatesPlain (eval eval' : Expr → EvalM Value) : Prop where
  plain : ∀ e, SameOutcome (eval e) (eval' e.plain)
  offset : ∀ e, SameOutcome (eval e) (eval' e.plain.asOffset)

section Nodes

variable {eval eval' : Expr → EvalM Value} (h : EvaluatesPlain eval eval')

theorem stringName_asName (role : NameRole) (name : Expr) :
    stringName eval role name.asName = stringName eval role name := by
  unfold stringName
  rw [name.bareName?_asName]
  cases hword : name.bareName? with
  | some word => rfl
  | none => rw [Expr.asName_of_bareName? hword]

include h

theorem sameOutcome_stringName (role : NameRole) (name : Expr) :
    SameOutcome (stringName eval role name) (stringName eval' role name.plain) := by
  unfold stringName
  rw [name.bareName?_plain]
  cases name.bareName? with
  | some word => exact .refl _
  | none =>
      refine .bind (h.plain name) fun v => ?_
      cases v with
      | str s => exact .refl _
      | _ => exact sameOutcome_fail _ _ rfl

theorem sameOutcome_memberName (name : Expr) :
    SameOutcome (stringName eval .member name) (stringName eval' .member name.plain.asName) := by
  rw [stringName_asName]
  exact sameOutcome_stringName h .member name

theorem sameOutcome_className (target : Expr) :
    SameOutcome (className env eval target) (className env eval' target.plain) := by
  unfold className
  rw [target.bareName?_plain]
  cases target.bareName? with
  | some word => exact .refl _
  | none =>
      refine .bind (h.plain target) fun v => ?_
      cases v with
      | str s => exact .refl _
      | object o => exact .refl _
      | _ => exact sameOutcome_fail _ _ rfl

/-! ### Members and functions -/

theorem sameOutcome_arguments (args : List Argument) :
    SameOutcome (arguments eval args) (arguments eval' (Expr.plainArguments args)) := by
  induction args with
  | nil => exact .refl _
  | cons arg rest ih =>
      obtain ⟨byRef, value⟩ := arg
      unfold arguments Expr.plainArguments
      dsimp only
      split
      · exact sameOutcome_fail _ _ rfl
      · exact .bind (h.plain value) fun v => .bind ih fun vs => .refl _

theorem sameOutcome_request (offer : Offer) (absent absent' used used' : Location)
    (args : List Argument) : SameOutcome (request env eval offer absent used args)
      (request env eval' offer absent' used' (Expr.plainArguments args)) := by
  refine .then _ fun there => ?_
  cases there with
  | false => exact .then _ fun cls => sameOutcome_fail _ _ rfl
  | true =>
      refine .bind (sameOutcome_arguments h args) fun vs => .then _ fun answer => ?_
      cases answer with
      | ok v => exact .refl _
      | error e => exact .then _ fun cls => sameOutcome_fail _ _ rfl

theorem sameOutcome_readProperty (l l' : Location) (o : Handle) (name : String) :
    SameOutcome (readProperty env l o name) (readProperty env l' o name) := by
  have hread : readProperty env l o name = request env eval (.property o name) l l [] :=
    readProperty_eq l o name
  have hread' : readProperty env l' o name = request env eval' (.property o name) l' l' [] :=
    readProperty_eq l' o name
  rw [hread, hread']
  exact sameOutcome_request h _ _ _ _ _ []

theorem sameOutcome_member (target : Expr) (op : Token) (isStatic : Bool) (name : Expr) :
    SameOutcome (node env eval (.property target op isStatic name))
      (node env eval' (Expr.property target op isStatic name).plain) := by
  cases isStatic with
  | true =>
      show SameOutcome (constant env eval target op name)
        (constant env eval' target.plain op.unplaced name.plain.asName)
      rw [constant_eq, constant_eq]
      refine .bind (sameOutcome_className h target) fun cls => ?_
      refine .bind (sameOutcome_memberName h name) fun member => ?_
      split
      · exact .refl _
      · exact sameOutcome_request h _ _ _ _ _ []
  | false =>
      refine .bind (h.plain target) fun v => ?_
      refine .bind (sameOutcome_memberName h name) fun member => ?_
      refine .bind (sameOutcome_objectOf _ _ member v) fun o => ?_
      exact sameOutcome_readProperty h _ _ o member

theorem sameOutcome_methodCall (target : Expr) (op : Token) (isStatic : Bool) (name : Expr)
    (args : List Argument) : SameOutcome (node env eval (.methodCall target op isStatic name args))
      (node env eval' (Expr.methodCall target op isStatic name args).plain) := by
  cases isStatic with
  | true =>
      show SameOutcome (staticMethod env eval target op name args) (staticMethod env eval'
        target.plain op.unplaced name.plain.asName (Expr.plainArguments args))
      rw [staticMethod_eq, staticMethod_eq]
      refine .bind (sameOutcome_className h target) fun cls => ?_
      refine .bind (sameOutcome_memberName h name) fun member => ?_
      exact sameOutcome_request h _ _ _ _ _ args
  | false =>
      show SameOutcome (method env eval target op name args) (method env eval'
        target.plain op.unplaced name.plain.asName (Expr.plainArguments args))
      rw [method_eq, method_eq]
      refine .bind (h.plain target) fun v => ?_
      refine .bind (sameOutcome_memberName h name) fun member => ?_
      refine .bind (sameOutcome_objectOf _ _ member v) fun o => ?_
      exact sameOutcome_request h _ _ _ _ _ args

theorem sameOutcome_call (callee : Expr) (paren : Token) (args : List Argument) :
    SameOutcome (node env eval (.call callee paren args))
      (node env eval' (Expr.call callee paren args).plain) := by
  show SameOutcome (call env eval callee paren args)
    (call env eval' callee.plain paren.unplaced (Expr.plainArguments args))
  rw [call_eq, call_eq]
  refine .bind (sameOutcome_stringName h .function callee) fun name => ?_
  split
  · exact sameOutcome_fail _ _ rfl
  · exact sameOutcome_request h _ _ _ _ _ args

/-! ### Other nodes -/

theorem sameOutcome_elements (t : Table) (es : List Element) :
    SameOutcome (elements eval t es) (elements eval' t (Expr.plainElements es)) := by
  induction es generalizing t with
  | nil => exact .refl _
  | cons el rest ih =>
      cases el with
      | item value => exact .bind (h.plain value) fun v => ih _
      | pair key value =>
          refine .bind (h.plain key) fun kv => ?_
          refine .bind (sameOutcome_keyOf _ _ kv) fun k => ?_
          exact .bind (h.plain value) fun v => ih _

theorem sameOutcome_access (target : Expr) (bracket : Token) (offset : Expr) :
    SameOutcome (access env eval target bracket offset)
      (access env eval' target.plain bracket.unplaced offset.plain.asOffset) := by
  refine .bind (h.plain target) fun container => .bind (h.offset offset) fun position => ?_
  cases container with
  | table es =>
      refine .bind (sameOutcome_keyOf _ _ position) fun k => ?_
      exact sameOutcome_someOrFail _ _ _ _
  | object o =>
      refine .bind (sameOutcome_offsetName _ _ position) fun name => ?_
      exact sameOutcome_readProperty h _ _ o name
  | _ => exact sameOutcome_fail _ _ rfl

theorem sameOutcome_part (e : Expr) :
    SameOutcome (part env eval e) (part env eval' e.plain) := by
  unfold part
  rw [e.fragment?_plain]
  cases e.fragment? with
  | some t => exact .bind (sameOutcome_literalValue rfl) fun v => .refl _
  | none =>
      refine .bind (h.plain e) fun v => .then _ fun s => ?_
      cases s with
      | some s => exact .refl _
      | none => exact sameOutcome_fail _ _ rfl

theorem sameOutcome_parts (ps : List Expr) :
    SameOutcome (parts env eval ps) (parts env eval' (Expr.plainParts ps)) := by
  induction ps with
  | nil => exact .refl _
  | cons p rest ih => exact .bind (sameOutcome_part h p) fun s => .bind ih fun t => .refl _

theorem sameOutcome_binary (left : Expr) (op : Token) (right : Expr) :
    SameOutcome (binary env eval left op right)
      (binary env eval' left.plain op.unplaced right.plain) := by
  unfold binary
  rw [Token.unplaced_kind]
  split
  iterate 2
    refine .bind (h.plain left) fun v => ?_
    split
    · exact .bind (h.plain right) fun w => .refl _
    · exact .refl _
  iterate 2
    refine .bind (h.plain left) fun v => ?_
    split
    · exact .refl _
    · exact .bind (h.plain right) fun w => .refl _
  · refine .bind (h.plain left) fun v => ?_
    split
    · exact h.plain right
    · exact .refl _
  · refine .bind (h.plain left) fun v => .bind (h.plain right) fun w => ?_
    exact sameOutcome_binaryOperation op v w

/-- **A node is evaluated like the plain node**, when its operands are. -/
theorem sameOutcome_node (e : Expr) :
    SameOutcome (node env eval e) (node env eval' e.plain) := by
  cases e with
  | literal t => exact sameOutcome_literalValue rfl
  | «variable» t => exact sameOutcome_someOrFail _ _ _ _
  | unary op operand => exact .bind (h.plain operand) fun v => sameOutcome_unaryOperation op v
  | cast op type operand =>
      exact .bind (h.plain operand) fun v => sameOutcome_castOperation op type v
  | binary left op right => exact sameOutcome_binary h left op right
  | ternary condition question yes no =>
      refine .bind (h.plain condition) fun v => ?_
      split
      · exact h.plain yes
      · exact h.plain no
  | assign target op value => exact sameOutcome_fail _ _ rfl
  | instanceOf value op cls =>
      refine .bind (h.plain value) fun v => ?_
      cases v with
      | object o => exact .bind (sameOutcome_className h cls) fun name => .refl _
      | _ => exact .refl _
  | access target bracket offset => exact sameOutcome_access h target bracket offset
  | array opening es => exact .bind (sameOutcome_elements h [] es) fun t => .refl _
  | property target op isStatic name => exact sameOutcome_member h target op isStatic name
  | methodCall target op isStatic name args =>
      exact sameOutcome_methodCall h target op isStatic name args
  | call callee paren args => exact sameOutcome_call h callee paren args
  | interpolation opening ps => exact .bind (sameOutcome_parts h ps) fun s => .refl _

end Nodes

/-! ## Bare words between brackets -/

theorem unquoteDouble_of_isNameChar {cs : List Char} (h : ∀ c ∈ cs, Text.isNameChar c = true)
    (offset : Nat) : Literal.unquoteDouble offset 0 cs = .ok cs := by
  induction cs generalizing offset with
  | nil => rfl
  | cons c cs ih =>
      rw [List.forall_mem_cons] at h
      have hslash : c ≠ '\\' := by
        rintro rfl
        cases h.1
      rw [Literal.unquoteDouble, if_neg hslash, ih h.2]
      rfl

/-- A bare word between brackets has the value of its text in quotes. -/
theorem ofToken_of_isBareWord {t : Token} (h : t.isBareWord = true) :
    Constant.ofToken t = Constant.ofToken
      { t with kind := .string, text := Literal.quoteSingle t.text } := by
  simp only [Token.isBareWord, Bool.and_eq_true, beq_iff_eq, List.all_eq_true] at h
  obtain ⟨hkind, hname⟩ := h
  have hvalue : Constant.ofToken t = .ok (.str t.text) := by
    unfold Constant.ofToken Constant.ofEscaped Literal.unescapeDouble
    rw [hkind]
    dsimp only
    rw [unquoteDouble_of_isNameChar hname]
    simp [Except.map]
  rw [hvalue]
  exact (ofQuoted_quoteSingle t.text).symm

theorem sameOutcome_asOffset (eval : Expr → EvalM Value) (e : Expr) :
    SameOutcome (node env eval e) (node env eval e.asOffset) := by
  cases e with
  | literal t =>
      unfold Expr.asOffset
      dsimp only
      split
      · next hword => exact sameOutcome_literalValue (ofToken_of_isBareWord hword)
      · exact .refl _
  | _ => exact .refl _

end Eval

/-! ## Trees -/

theorem Expr.evaluatesPlain (env : Environment) (limit depth : Nat) :
    Eval.EvaluatesPlain (evaluateWithin env limit depth) (evaluateWithin env limit depth) := by
  induction depth with
  | zero => exact ⟨fun e => sameOutcome_fail _ _ rfl, fun e => sameOutcome_fail _ _ rfl⟩
  | succ depth ih =>
      have hnode : ∀ e, SameOutcome (evaluateWithin env limit (depth + 1) e)
          (evaluateWithin env limit (depth + 1) e.plain) := fun e => Eval.sameOutcome_node ih e
      exact ⟨hnode, fun e => (hnode e).trans (Eval.sameOutcome_asOffset _ e.plain)⟩

/-- **Trees with the same plain tree have the same outcome.** -/
theorem Expr.sameOutcome_of_plain {e e' : Expr} (h : e.plain = e'.plain) (env : Environment)
    (limit : Nat) : SameOutcome (e.evaluate env limit) (e'.evaluate env limit) := by
  have heval := evaluatesPlain env limit limit
  have hfirst : SameOutcome (e.evaluate env limit) (e.plain.evaluate env limit) := heval.plain e
  rw [h] at hfirst
  exact hfirst.trans (heval.plain e').symm

end GuardedExpr
