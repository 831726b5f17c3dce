/-
# Bare names — whether a word can be put into a variable

A name may be written as a word, or it may be the string in a variable.  Let `$v` hold
the text of the word `x`.  What is proved, for every host and every limit that leaves
room for the variable:

    x(...)            $v(...)             act alike
    e->x, e->x(...)   e->$v, e->$v(...)   act alike
    x::C, x::m(...)   $v::C, $v::m(...)   act alike exactly if `x` does not start with `\`
    $o instanceof x   $o instanceof $v    the same, if `$o` holds an object

Functions and members do not tell the two apart: whatever is made of a name, by the
deny-list or by the host, starts from the same string.  Classes do.  A bare class loses
the separator at its front, a string keeps it, and the host is asked about what is left.
For the converse it is enough to look at the first call: a request starts with the
question for what is wanted (`exists_record_of_request`), and that names the class.

`Expr.ActsLike` compares two trees by their plain trees, hence wherever they stand.
-/
import GuardedExpr.Proofs.HostProtocol
import GuardedExpr.Proofs.NamePlaces
import GuardedExpr.Proofs.Plain

namespace GuardedExpr

open EvalM

/-- Trees like the one have the outcomes of trees like the other. -/
def Expr.ActsLike (env : Environment) (limit : Nat) (e e' : Expr) : Prop :=
  ∀ t t' : Expr, t.plain = e.plain → t'.plain = e'.plain →
    SameOutcome (t.evaluate env limit) (t'.evaluate env limit)

theorem Expr.actsLike_iff {env : Environment} {limit : Nat} {e e' : Expr} :
    e.ActsLike env limit e' ↔ SameOutcome (e.evaluate env limit) (e'.evaluate env limit) := by
  constructor
  · intro h
    exact h e e' rfl rfl
  · intro h t t' ht ht'
    have hfirst := Expr.sameOutcome_of_plain ht env limit
    have hlast := Expr.sameOutcome_of_plain ht' env limit
    exact (hfirst.trans h).trans hlast.symm

/-! ## The same name -/

namespace NamePlace

variable {env : Environment} {limit depth : Nat}

theorem sameOutcome_request_placed (offer : Offer) (absent absent' used : Location)
    (args : List Argument) :
    SameOutcome (Eval.request env (Expr.evaluateWithin env limit depth) offer absent used args)
      (Eval.request env (Expr.evaluateWithin env limit depth) offer absent' used args) := by
  have heval := Expr.evaluatesPlain env limit depth
  exact (Eval.sameOutcome_request heval offer absent absent used used args).trans
    (Eval.sameOutcome_request heval offer absent' absent used used args).symm

/-- Where the name was found shows in the place of an error only. -/
theorem sameOutcome_use (place : NamePlace) (l l' : Location) (object : Value) (name : String) :
    SameOutcome (place.use env (Expr.evaluateWithin env limit depth) l object name)
      (place.use env (Expr.evaluateWithin env limit depth) l' object name) := by
  cases place with
  | callee paren args =>
      unfold use
      dsimp only
      split
      · exact sameOutcome_fail _ _ rfl
      · exact sameOutcome_request_placed _ _ _ _ _
  | _ => exact .refl _

end NamePlace

section Names

variable {env : Environment} {limit depth : Nat} {x name : String} {b : Expr} {v : Token}

/-- A variable is a computed name. -/
theorem nameIn_variable (role : NameRole)
    (hv : env.context.get? v.variableName = some (.str name)) :
    Eval.nameIn env (Expr.evaluateWithin env limit (depth + 1)) role (.variable v) = pure name := by
  rw [Eval.nameIn_of_computed rfl, Expr.evaluateWithin, Eval.node, Eval.variableValue, hv]
  rfl

/-- **A bare word acts like a variable with the name that the word is.** -/
theorem fill_actsLike (hlimit : 2 ≤ limit) (hb : b.bareName? = some x) (place : NamePlace)
    (hv : env.context.get? v.variableName = some (.str (place.role.ofBare x))) :
    (place.fill b).ActsLike env limit (place.fill (.variable v)) := by
  obtain ⟨n, rfl⟩ : ∃ n, limit = n + 2 := ⟨limit - 2, by omega⟩
  rw [Expr.actsLike_iff, Expr.evaluate, Expr.evaluate, Expr.evaluateWithin, Expr.evaluateWithin,
    NamePlace.node_fill, NamePlace.node_fill, Eval.nameIn_of_bareName hb, nameIn_variable _ hv]
  exact .then _ fun object => place.sameOutcome_use _ _ object _

theorem className_of_bareName (hb : b.bareName? = some x) {eval : Expr → EvalM Value} :
    Eval.className env eval b = pure (Text.dropOne '\\' x) :=
  @Eval.nameIn_of_bareName env eval .cls b x hb

theorem className_variable (hv : env.context.get? v.variableName = some (.str name)) :
    Eval.className env (Expr.evaluateWithin env limit (depth + 1)) (.variable v) = pure name :=
  nameIn_variable .cls hv

/-- So it does where a value is tested for a class. -/
theorem instanceOf_actsLike (hlimit : 2 ≤ limit) (hb : b.bareName? = some x) (value : Expr)
    (op : Token) (hv : env.context.get? v.variableName = some (.str (Text.dropOne '\\' x))) :
    (Expr.instanceOf value op b).ActsLike env limit (.instanceOf value op (.variable v)) := by
  obtain ⟨n, rfl⟩ : ∃ n, limit = n + 2 := ⟨limit - 2, by omega⟩
  rw [Expr.actsLike_iff]
  show SameOutcome (Eval.instanceOf env _ value b) (Eval.instanceOf env _ value (.variable v))
  unfold Eval.instanceOf
  rw [className_of_bareName hb, className_variable hv]
  exact .refl _

end Names

/-! ## Different names -/

section Requests

variable (env : Environment) (limit depth : Nat)

theorem Contract.Holds.exists_record {α : Type} {k : Contract} {y : EvalM α} (h : k.Holds y)
    (past : List Call) : ∃ calls, (y.runOn past).2 = calls ++ past := by
  obtain ⟨calls, hrecord, -⟩ := h past
  exact ⟨calls, hrecord⟩

/-- The first call of a request is the question for what is wanted. -/
theorem exists_record_of_request (offer : Offer) (absent used : Location) (args : List Argument)
    (past : List Call) : ∃ calls, ((Eval.request env (Expr.evaluateWithin env limit depth) offer
      absent used args).runOn past).2 = calls ++ offer.query :: past := by
  let k : Contract := ⟨fun _ => True, fun _ => True, fun _ => True⟩
  have hadmits : k.Admits env := ⟨fun _ _ => trivial, fun _ _ => trivial⟩
  have hask : ∀ c, k.Holds (env.ask c) := fun c => Contract.holds_ask trivial
  have hclass : k.Holds (Eval.askOwnerClass env offer) := by
    cases offer with
    | property | method => exact hask _
    | _ => exact Contract.holds_pure k _
  have huse : ∀ vs, k.Holds (Eval.makeUse env vs offer) := by
    intro vs
    cases offer <;> exact hask _
  have hargs : k.Holds (Eval.arguments (Expr.evaluateWithin env limit depth) args) :=
    Contract.holds_arguments hadmits.nodes (fun _ _ => trivial) fun x _ =>
      Contract.holds_evaluateWithin hadmits (fun _ => trivial) trivial depth x
  rw [Eval.request, runOn_bind_ok (runOn_askWhether offer past)]
  refine Contract.Holds.exists_record (k := k) ?_ (offer.query :: past)
  split
  · refine Contract.holds_bind hargs fun vs => Contract.holds_bind (huse vs) fun answer => ?_
    cases answer with
    | ok v => exact Contract.holds_pure k v
    | error e => exact Contract.holds_bind hclass fun cls => Contract.holds_fail trivial trivial
  · exact Contract.holds_bind hclass fun cls => Contract.holds_fail trivial trivial

variable {env limit depth}

/-- So requests with the same outcome want the same. -/
theorem query_eq_of_sameOutcome {offer offer' : Offer} {l l' r r' : Location}
    {args args' : List Argument}
    (h : SameOutcome (Eval.request env (Expr.evaluateWithin env limit depth) offer l r args)
      (Eval.request env (Expr.evaluateWithin env limit depth) offer' l' r' args')) :
    offer.query = offer'.query := by
  obtain ⟨calls, hcalls⟩ := exists_record_of_request env limit depth offer l r args []
  obtain ⟨calls', hcalls'⟩ := exists_record_of_request env limit depth offer' l' r' args' []
  have hsame : calls ++ [offer.query] = calls' ++ [offer'.query] := by
    rw [← hcalls, ← hcalls']
    exact (h []).2
  exact List.singleton_inj.mp (List.append_inj' hsame rfl).2

end Requests

/-- The place of the class in front of a bare word. -/
inductive NamePlace.IsOwner : NamePlace → Prop
  | constant {op : Token} {member : Expr} {word : String} : member.bareName? = some word →
      IsOwner (.constantOwner op member)
  | method {op : Token} {member : Expr} {args : List Argument} {word : String} :
      member.bareName? = some word → IsOwner (.methodOwner op member args)

section Classes

variable {env : Environment} {limit depth : Nat} {x : String} {b : Expr} {v : Token}

/-- The host or the value tells different classes apart. -/
theorem NamePlace.IsOwner.name_eq {place : NamePlace} (hplace : place.IsOwner)
    {l l' : Location} {object : Value} {cls cls' : String}
    (h : SameOutcome (place.use env (Expr.evaluateWithin env limit depth) l object cls)
      (place.use env (Expr.evaluateWithin env limit depth) l' object cls')) : cls = cls' := by
  cases hplace with
  | @constant op member word hword =>
      have huse : ∀ l name, (constantOwner op member).use env
          (Expr.evaluateWithin env limit depth) l object name =
          if Text.sameFolded word "class" then pure (.str name)
          else Eval.request env (Expr.evaluateWithin env limit depth) (.constant name word)
            op.location op.location [] := by
        intro l name
        rw [use, Eval.stringName, hword]
        rfl
      rw [huse, huse] at h
      split at h
      · have hvalue : (Except.ok (Value.str cls) : Except EvalFault Value) = .ok (.str cls') :=
          (h []).1
        cases hvalue
        rfl
      · cases query_eq_of_sameOutcome h
        rfl
  | @method op member args word hword =>
      have huse : ∀ l name, (methodOwner op member args).use env
          (Expr.evaluateWithin env limit depth) l object name =
          Eval.request env (Expr.evaluateWithin env limit depth) (.staticMethod name word)
            op.location op.location args := by
        intro l name
        rw [use, Eval.stringName, hword]
        rfl
      rw [huse, huse] at h
      cases query_eq_of_sameOutcome h
      rfl

theorem NamePlace.IsOwner.role_eq {place : NamePlace} (hplace : place.IsOwner) :
    place.role = .cls := by
  cases hplace <;> rfl

/-- **As a class, a bare word acts like the string exactly if it has no separator to lose.** -/
theorem NamePlace.IsOwner.actsLike_iff {place : NamePlace} (hplace : place.IsOwner)
    (hlimit : 2 ≤ limit) (hb : b.bareName? = some x)
    (hv : env.context.get? v.variableName = some (.str x)) :
    (place.fill b).ActsLike env limit (place.fill (.variable v)) ↔
      x.toList.head? ≠ some '\\' := by
  have hbare : place.role.ofBare x = Text.dropOne '\\' x := by
    rw [NameRole.ofBare, if_pos hplace.role_eq]
  rw [← Text.dropOne_eq_self_iff]
  constructor
  · intro h
    obtain ⟨n, rfl⟩ : ∃ n, limit = n + 2 := ⟨limit - 2, by omega⟩
    rw [Expr.actsLike_iff, Expr.evaluate, Expr.evaluate, Expr.evaluateWithin, Expr.evaluateWithin,
      node_fill, node_fill, Eval.nameIn_of_bareName hb, nameIn_variable _ hv, hbare] at h
    have hbefore : ∀ eval, place.before eval = pure .null := by
      intro eval
      cases hplace <;> rfl
    rw [hbefore] at h
    exact hplace.name_eq h
  · intro heq
    refine fill_actsLike hlimit hb place ?_
    rw [hbare, heq, hv]

theorem evaluate_instanceOf_variable {o : Token} {w : Value}
    (ho : env.context.get? o.variableName = some w) (op : Token) (cls : Expr) (depth : Nat) :
    (Expr.instanceOf (.variable o) op cls).evaluate env (depth + 2) =
      match w with
      | .object h => do
        let name ← Eval.className env (Expr.evaluateWithin env (depth + 2) (depth + 1)) cls
        return .bool (← env.ask (.isInstanceOf h name))
      | _ => pure (.bool false) := by
  have hvalue : Expr.evaluateWithin env (depth + 2) (depth + 1) (.variable o) = pure w := by
    rw [Expr.evaluateWithin, Eval.node, Eval.variableValue, ho]
    rfl
  rw [Expr.evaluate, Expr.evaluateWithin]
  show Eval.instanceOf env _ (.variable o) cls = _
  rw [Eval.instanceOf, hvalue, pure_bind]
  cases w <;> rfl

/-- **The host is asked about the class of an object only.** -/
theorem instanceOf_actsLike_iff (hlimit : 2 ≤ limit) (hb : b.bareName? = some x)
    (hv : env.context.get? v.variableName = some (.str x)) {o : Token} {w : Value}
    (ho : env.context.get? o.variableName = some w) (op : Token) :
    (Expr.instanceOf (.variable o) op b).ActsLike env limit
        (.instanceOf (.variable o) op (.variable v)) ↔
      ((∃ h, w = .object h) → x.toList.head? ≠ some '\\') := by
  obtain ⟨n, rfl⟩ : ∃ n, limit = n + 2 := ⟨limit - 2, by omega⟩
  have hread : ∀ cls, (Expr.instanceOf (.variable o) op cls).evaluate env (n + 2) = _ :=
    fun cls => evaluate_instanceOf_variable ho op cls n
  rw [← Text.dropOne_eq_self_iff, Expr.actsLike_iff, hread, hread]
  cases w with
  | object h =>
      dsimp only
      rw [className_of_bareName hb, className_variable hv]
      constructor
      · intro hlike _
        have hasked : [Call.isInstanceOf h (Text.dropOne '\\' x)] = [.isInstanceOf h x] :=
          (hlike []).2
        injection hasked with hcall
        injection hcall
      · intro heq
        rw [heq ⟨h, rfl⟩]
        exact .refl _
  | _ =>
      refine iff_of_true (.refl _) ?_
      rintro ⟨h, ⟨⟩⟩

end Classes

/-- **A word acts like a variable that holds it, but for a separator in front of a class.**  As a
function, a property or a method the word always acts like the variable in its place.  As the owner
of a constant or a static method, and in a test of an object, it does so exactly if it does not
start with the separator; a value that is no object can be tested for either.  A class always acts
like a variable that holds its text without the separator at the front.  The variable stands a
level below the node, hence the bound on the limit. -/
theorem bare_and_computed_names_act_alike {env : Environment} {limit : Nat} {x : String} {b : Expr}
    {v : Token} (hlimit : 2 ≤ limit) (hb : b.bareName? = some x)
    (hv : env.context.get? v.variableName = some (.str x)) :
    (∀ place : NamePlace, place.role ≠ .cls →
      (place.fill b).ActsLike env limit (place.fill (.variable v))) ∧
    (∀ place : NamePlace, place.IsOwner →
      ((place.fill b).ActsLike env limit (place.fill (.variable v)) ↔
        x.toList.head? ≠ some '\\')) ∧
    (∀ (o : Token) (w : Value), env.context.get? o.variableName = some w → ∀ op,
      ((Expr.instanceOf (.variable o) op b).ActsLike env limit
          (.instanceOf (.variable o) op (.variable v)) ↔
        ((∃ h, w = .object h) → x.toList.head? ≠ some '\\'))) ∧
    (∀ u : Token, env.context.get? u.variableName = some (.str (Text.dropOne '\\' x)) →
      (∀ place : NamePlace, place.role = .cls →
        (place.fill b).ActsLike env limit (place.fill (.variable u))) ∧
      ∀ value op, (Expr.instanceOf value op b).ActsLike env limit
        (.instanceOf value op (.variable u))) := by
  refine ⟨?_, ?_, ?_, ?_⟩
  · intro place hrole
    refine fill_actsLike hlimit hb place ?_
    rw [NameRole.ofBare, if_neg hrole, hv]
  · intro place hplace
    exact hplace.actsLike_iff hlimit hb hv
  · intro o w ho op
    exact instanceOf_actsLike_iff hlimit hb hv ho op
  · intro u hu
    constructor
    · intro place hrole
      refine fill_actsLike hlimit hb place ?_
      rw [NameRole.ofBare, if_pos hrole, hu]
    · intro value op
      exact instanceOf_actsLike hlimit hb value op hu

/-- The class `\Foo` from the root. -/
def rootedClass : Expr := .literal ⟨.identifier, "\\Foo", ⟨0, 4, 1, 1⟩⟩

/-- The place of the class in front of `::class`. -/
def ownerOfClassName : NamePlace :=
  .constantOwner ⟨.doubleColon, "::", ⟨4, 2, 1, 5⟩⟩ (.literal ⟨.identifier, "class", ⟨6, 5, 1, 7⟩⟩)

theorem isOwner_ownerOfClassName : ownerOfClassName.IsOwner := .constant rfl

/-- An environment where the variable `$v` holds the text of the class. -/
def rootedText : Environment := ⟨.ofList [("v", .str "\\Foo")], .absent, .empty⟩

/-- The text of a class that starts with the separator does not do for the class. -/
theorem rooted_class_is_not_its_text :
    ¬ (ownerOfClassName.fill rootedClass).ActsLike rootedText 2
      (ownerOfClassName.fill (.variable ⟨.variable, "$v", ⟨0, 2, 1, 1⟩⟩)) := by
  obtain ⟨-, howner, -⟩ := @bare_and_computed_names_act_alike rootedText 2 "\\Foo" rootedClass
    ⟨.variable, "$v", ⟨0, 2, 1, 1⟩⟩ (by decide) rfl rfl
  rw [howner _ isOwner_ownerOfClassName]
  decide

/-- A bare class and the string with its text are not always one. -/
theorem owner_from_text_keeps_the_separator :
    ¬ ∀ (env : Environment) (limit : Nat) (b : Expr) (x : String) (v : Token) (place : NamePlace),
      2 ≤ limit → b.bareName? = some x → env.context.get? v.variableName = some (.str x) →
      place.IsOwner → (place.fill b).ActsLike env limit (place.fill (.variable v)) := by
  intro hclaim
  have hlike := hclaim rootedText 2 rootedClass "\\Foo" ⟨.variable, "$v", ⟨0, 2, 1, 1⟩⟩
    ownerOfClassName (by decide) rfl rfl isOwner_ownerOfClassName
  have hvalue : (Except.ok (Value.str "Foo") : Except EvalFault Value) = .ok (.str "\\Foo") :=
    (Expr.actsLike_iff.mp hlike []).1
  injection hvalue with hstr
  injection hstr with htext
  exact absurd htext (by decide)

end GuardedExpr
