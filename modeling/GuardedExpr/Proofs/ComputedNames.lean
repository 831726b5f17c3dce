/-
# Computed names — what stands in parentheses or braces where a name is wanted

A name can be computed: `->{e}` names a member, `(e)(...)` a function, `(e)::X` a class.
Parentheses and braces leave no node, so in the tree the expression `e` stands where a
bare word would stand, and evaluation takes whatever looks like a bare word for one.

The grammar keeps the two apart, all but for three words.  A name that is neither
called nor followed by `::` is no expression, hence what is read between parentheses or
braces is never a bare name (`Grammar.ofDepth_noBareNames`, an induction over the levels
of the grammar with one lemma for each parser); but `true`, `false` and `null` are
expressions and words at the same time (`Expr.IsConstantWord`).  These three are taken
for names.  Every other computed name is its value.
-/
import GuardedExpr.Proofs.NamePlaces
import GuardedExpr.Proofs.NestingBound

namespace GuardedExpr

open GuardedExpr.Parser EvalM

/-! ## What is read as an expression -/

namespace Expr

/-- One of the words `true`, `false` and `null`. -/
def IsConstantWord (e : Expr) : Prop := ∃ t, e = .literal t ∧ t.kind ∈ [TokenKind.bool, .null]

/-- No bare word, unless it is a constant. -/
def NoBareName (e : Expr) : Prop := e.bareName? = none ∨ e.IsConstantWord

end Expr

namespace Grammar

open GuardedExpr.Expr

theorem noBareName_literal {t : Token}
    (h : t.kind ∈ [TokenKind.integer, .float, .string, .bool, .null]) :
    (literal t).NoBareName := by
  have hsplit : ∀ k ∈ [TokenKind.integer, .float, .string, .bool, .null],
      k.isWord = false ∨ k ∈ [TokenKind.bool, .null] := by decide
  rcases hsplit _ h with hword | hconstant
  · left
    rw [bareName?, hword]
    rfl
  · exact .inr ⟨t, rfl, hconstant⟩

/-- No parser of the level gives a bare name. -/
structure Inner.NoBareNames (inner : Inner) : Prop where
  level : ∀ rs, Yields (inner.level rs) NoBareName
  assignment : Yields inner.assignment NoBareName
  chain : ∀ ops tighter e op, Yields (inner.chain ops tighter e op) NoBareName
  classOperand : ∀ e op, Yields (inner.classOperand e op) NoBareName
  suffix : ∀ e, Yields (inner.suffix e) NoBareName

theorem exhausted_noBareNames (limit : Nat) : (exhausted limit).NoBareNames where
  level _ := yields_tooDeep limit _
  assignment := yields_tooDeep limit _
  chain _ _ _ _ := yields_tooDeep limit _
  classOperand _ _ := yields_tooDeep limit _
  suffix _ := yields_tooDeep limit _

section Around

variable {inner : Inner} (h : inner.NoBareNames)
include h

theorem moreSuffixes_noBareName {e : Expr} (he : e.NoBareName) :
    Yields (moreSuffixes inner e) NoBareName := by
  refine yields_then fun t => ?_
  split
  · exact h.suffix e
  · exact yields_pure he

omit h in
theorem member_noBareName (target : Expr) (op : Token) (isStatic : Bool) :
    Yields (member inner target op isStatic) NoBareName := by
  refine yields_then fun name => yields_optional (yields_pure (.inl rfl)) fun _ => ?_
  exact yields_then fun args => yields_pure (.inl rfl)

theorem suffix_noBareName (e : Expr) : Yields (suffix inner e) NoBareName := by
  have hrest : ∀ whole : Expr, whole.NoBareName → Yields (moreSuffixes inner whole) NoBareName :=
    fun _ => moreSuffixes_noBareName h
  refine yields_then fun t => ?_
  dsimp only
  split
  · exact yields_bind (member_noBareName e t true) hrest
  · exact yields_bind (member_noBareName e t false) hrest
  · exact yields_then fun offset => yields_then fun _ => hrest _ (.inl rfl)
  · exact yields_then fun args => hrest _ (.inl rfl)

/-- A bare name is no operand but in front of a suffix. -/
theorem primary_cases {s s' : TokenStream} {e : Expr} (hr : primary inner s = .ok (e, s')) :
    e.NoBareName ∨ suffixStarts.contains s'.current.kind = true := by
  obtain ⟨read, hread, hother, hname⟩ : ∃ read : Token → Parser Expr,
      primary inner = peek >>= read ∧
      (∀ t, t.kind ≠ .identifier → Yields (read t) NoBareName) ∧
      (∀ t, t.kind = .identifier → read t = do
        let _ ← next
        let follower ← peek
        if follower.kind = .lparen ∨ follower.kind = .doubleColon then pure (.literal t)
        else unexpected ("'(' or '::' after name '" ++ t.text ++ "'")) := by
    refine ⟨_, rfl, ?_, ?_⟩
    · intro t ht
      split
      iterate 5
        next hk => exact yields_then fun _ => yields_pure (noBareName_literal (by simp [hk]))
      · exact yields_then fun _ => yields_pure (.inl rfl)
      · refine yields_then fun _ => yields_bind h.assignment fun e he => ?_
        exact yields_then fun _ => yields_pure he
      · refine yields_then fun _ s => ?_
        exact yields_then (fun ps => yields_then fun _ => yields_pure (.inl rfl)) s
      · exact yields_then fun _ => yields_then fun es => yields_pure (.inl rfl)
      · refine yields_then fun _ => yields_then fun _ => ?_
        exact yields_then fun es => yields_pure (.inl rfl)
      · next hk => exact absurd hk ht
      · exact yields_unexpected
    · intro t ht
      simp only [ht]
  rw [hread] at hr
  by_cases hk : s.current.kind = .identifier
  · have hfound : read s.current s = .ok (e, s') := hr
    rw [hname _ hk] at hfound
    simp only [bind, andThen, next, peek] at hfound
    split at hfound
    · next hfollower =>
        cases hfound
        refine .inr ?_
        rcases hfollower with hkind | hkind <;> rw [hkind] <;> rfl
    · cases hfound
  · exact .inl (hother _ hk _ _ _ hr)

theorem operand_noBareName : Yields (operand inner) NoBareName := by
  intro s e s' hr
  unfold operand at hr
  simp only [bind, andThen] at hr
  split at hr
  · cases hr
  · next first s₁ hfirst =>
      rcases primary_cases h hfirst with hnone | hsuffix
      · exact moreSuffixes_noBareName h hnone _ _ _ hr
      · have hmore : moreSuffixes inner first s₁ = inner.suffix first s₁ := by
          simp only [moreSuffixes, bind, andThen, peek]
          rw [if_pos hsuffix]
        rw [hmore] at hr
        exact h.suffix first _ _ _ hr

theorem moreInstanceOf_noBareName {e : Expr} (he : e.NoBareName) :
    Yields (moreInstanceOf inner e) NoBareName :=
  yields_optional (yields_pure he) fun op => h.classOperand e op

theorem classOperand_noBareName (e : Expr) (op : Token) :
    Yields (classOperand inner e op) NoBareName := by
  have hrest : ∀ cls : Expr, Yields (moreInstanceOf inner (.instanceOf e op cls)) NoBareName :=
    fun _ => moreInstanceOf_noBareName h (.inl rfl)
  refine yields_then fun name => ?_
  cases name with
  | some name => exact hrest _
  | none => exact yields_then hrest

theorem instanceOf_noBareName : Yields (instanceOf inner) NoBareName :=
  yields_bind (operand_noBareName h) fun _ he => moreInstanceOf_noBareName h he

theorem unary_noBareName : Yields (unary inner) NoBareName := by
  refine yields_optional ?_ fun op => yields_then fun e => yields_pure (.inl rfl)
  refine yields_optional (instanceOf_noBareName h) fun op => ?_
  dsimp only
  split
  · exact yields_then fun e => yields_pure (.inl rfl)
  · exact yields_fail

theorem moreChain_noBareName (ops : List TokenKind) (tighter : List Rule) {e : Expr}
    (he : e.NoBareName) : Yields (moreChain inner ops tighter e) NoBareName :=
  yields_optional (yields_pure he) fun op => h.chain ops tighter e op

theorem level_noBareName (rs : List Rule) : Yields (level inner rs) NoBareName := by
  induction rs with
  | nil => exact unary_noBareName h
  | cons r tighter ih =>
      cases r with
      | left ops => exact yields_bind ih fun e he => moreChain_noBareName h ops tighter he
      | right op =>
          refine yields_bind ih fun e he => yields_optional (yields_pure he) fun t => ?_
          exact yields_then fun right => yields_pure (.inl rfl)
      | ternary =>
          refine yields_bind ih fun e he => yields_optional (yields_pure he) fun t => ?_
          refine yields_then fun yes => yields_then fun _ => ?_
          exact yields_then fun no => yields_pure (.inl rfl)

theorem chain_noBareName (ops : List TokenKind) (tighter : List Rule) (e : Expr) (op : Token) :
    Yields (chain inner ops tighter e op) NoBareName :=
  yields_then fun _ => moreChain_noBareName h ops tighter (.inl rfl)

theorem assignment_noBareName : Yields (assignment inner) NoBareName := by
  refine yields_bind (level_noBareName h _) fun e he => ?_
  refine yields_optional (yields_pure he) fun op => ?_
  exact yields_then fun value => yields_pure (.inl rfl)

theorem around_noBareNames : (around inner).NoBareNames where
  level := level_noBareName h
  assignment := assignment_noBareName h
  chain := chain_noBareName h
  classOperand := classOperand_noBareName h
  suffix := suffix_noBareName h

end Around

/-- **An expression is no bare name.** -/
theorem ofDepth_noBareNames (limit depth : Nat) : (ofDepth limit depth).NoBareNames := by
  induction depth with
  | zero => exact exhausted_noBareNames limit
  | succ depth ih => exact around_noBareNames ih

/-- The expression stands where a name is computed: between parentheses, or between braces behind
an arrow. -/
inductive IsComputedName (e : Expr) : Prop
  | parenthesised {limit depth : Nat} {s s' : TokenStream} : s.current.kind = .lparen →
      primary (ofDepth limit depth) s = .ok (e, s') → IsComputedName e
  | braced {limit depth : Nat} {op : Token} {s s' : TokenStream} : s.current.kind = .lbrace →
      memberName (ofDepth limit depth) op false s = .ok (e, s') → IsComputedName e

theorem IsComputedName.noBareName {e : Expr} (h : IsComputedName e) : e.NoBareName := by
  have hclosed : ∀ {limit depth : Nat} (kind : TokenKind) (expected : String),
      Yields (upTo kind expected (expression (ofDepth limit depth))) NoBareName := by
    intro limit depth kind expected
    refine yields_bind (ofDepth_noBareNames limit depth).assignment fun e he => ?_
    exact yields_then fun _ => yields_pure he
  cases h with
  | @parenthesised limit depth s s' hk hr =>
      simp only [primary, bind, andThen, peek, hk] at hr
      exact hclosed .rparen "')'" s.advance e s' hr
  | @braced limit depth op s s' hk hr =>
      simp only [memberName, bind, andThen, peek, hk] at hr
      exact hclosed .rbrace "'\x7d'" s.advance e s' hr

end Grammar

/-! ## What becomes of a computed name -/

/-- The value is a name in the role: a string, or an object in the place of a class. -/
def NameRole.Accepts (role : NameRole) (v : Value) : Prop :=
  (∃ s, v = .str s) ∨ role = .cls ∧ ∃ o, v = .object o

namespace NamePlace

/-- From the record `past` on, the node with the expression in the place of the name does what it
does with the name `name` from the record `calls` on. -/
def TakesName (env : Environment) (limit depth : Nat) (place : NamePlace) (e : Expr)
    (object : Value) (past : List Call) (name : String) (calls : List Call) : Prop :=
  ((place.fill e).evaluateWithin env limit (depth + 1)).runOn past =
    (place.use env (Expr.evaluateWithin env limit depth) e.location object name).runOn calls

section Evaluation

variable {env : Environment} {limit depth : Nat} {place : NamePlace} {e : Expr} {object : Value}
  {past calls calls' : List Call}

theorem takesName_of_bareName {word : String} (h : e.bareName? = some word)
    (hobject : (place.before (Expr.evaluateWithin env limit depth)).runOn past =
      (.ok object, calls)) :
    place.TakesName env limit depth e object past (place.role.ofBare word) calls := by
  unfold TakesName
  rw [Expr.evaluateWithin, node_fill, runOn_bind_ok hobject, Eval.nameIn_of_bareName h]
  rfl

/-- A computed name is looked for where the value of the expression was found. -/
theorem runOn_fill_of_computed (h : e.bareName? = none)
    (hobject : (place.before (Expr.evaluateWithin env limit depth)).runOn past =
      (.ok object, calls)) :
    ((place.fill e).evaluateWithin env limit (depth + 1)).runOn past =
      (do let v ← e.evaluateWithin env limit depth
          let name ← place.role.ofValue env e.location v
          place.use env (Expr.evaluateWithin env limit depth) e.location object name).runOn
        calls := by
  rw [Expr.evaluateWithin, node_fill, runOn_bind_ok hobject, Eval.nameIn_of_computed h, bind_assoc]

end Evaluation

end NamePlace

/-- **A computed name is its value, but for three words.**  What is read in parentheses or braces
where a name is wanted is evaluated after what stands before it.  A string is the name, and in the
place of a class an object gives the name of its class; any other value is refused, and the error
names its kind; a failure is the failure of the node.  Only `true`, `false` and `null` are taken
by their letters, without being evaluated. -/
theorem computed_name_is_its_value {env : Environment} {limit depth : Nat} {place : NamePlace}
    {e : Expr} (he : Grammar.IsComputedName e) {object : Value} {past calls : List Call}
    (hobject : (place.before (Expr.evaluateWithin env limit depth)).runOn past =
      (.ok object, calls)) :
    (¬ e.IsConstantWord →
      (∀ s calls', (e.evaluateWithin env limit depth).runOn calls = (.ok (.str s), calls') →
        place.TakesName env limit depth e object past s calls') ∧
      (∀ o calls', (e.evaluateWithin env limit depth).runOn calls = (.ok (.object o), calls') →
        place.role = .cls → place.TakesName env limit depth e object past
          (env.host calls' (.classNameOf o)) (.classNameOf o :: calls')) ∧
      (∀ v calls', (e.evaluateWithin env limit depth).runOn calls = (.ok v, calls') →
        ¬ place.role.Accepts v →
        ((place.fill e).evaluateWithin env limit (depth + 1)).runOn past =
          (.error ⟨.invalidName place.role v.kind, e.location⟩, calls')) ∧
      (∀ err calls', (e.evaluateWithin env limit depth).runOn calls = (.error err, calls') →
        ((place.fill e).evaluateWithin env limit (depth + 1)).runOn past = (.error err, calls'))) ∧
    (∀ t, e = .literal t → t.kind ∈ [TokenKind.bool, .null] →
      place.TakesName env limit depth e object past (place.role.ofBare t.text) calls) := by
  constructor
  · intro hword
    have hnone : e.bareName? = none := he.noBareName.resolve_right hword
    have hrun := NamePlace.runOn_fill_of_computed hnone hobject
    refine ⟨?_, ?_, ?_, ?_⟩
    · intro s calls' hs
      rw [NamePlace.TakesName, hrun, runOn_bind_ok hs]
      rfl
    · intro o calls' ho hrole
      rw [NamePlace.TakesName, hrun, runOn_bind_ok ho]
      have hask : (place.role.ofValue env e.location (.object o)).runOn calls' =
          (.ok (env.host calls' (.classNameOf o)), .classNameOf o :: calls') := by
        rw [NameRole.ofValue, if_pos hrole]
        rfl
      exact runOn_bind_ok hask
    · intro v calls' hv hnot
      have hrefused : (place.role.ofValue env e.location v).runOn calls' =
          (.error ⟨.invalidName place.role v.kind, e.location⟩, calls') := by
        cases v with
        | str s => exact absurd (.inl ⟨s, rfl⟩) hnot
        | object o =>
            rw [NameRole.ofValue, if_neg fun hrole => hnot (.inr ⟨hrole, o, rfl⟩)]
            rfl
        | _ => rfl
      rw [hrun, runOn_bind_ok hv]
      exact runOn_bind_error hrefused
    · intro err calls' herr
      rw [hrun, runOn_bind_error herr]
  · rintro t rfl ht
    have hisWord : ∀ k ∈ [TokenKind.bool, .null], k.isWord = true := by decide
    exact NamePlace.takesName_of_bareName (if_pos (hisWord _ ht)) hobject

/-- What `('f')` stands for. -/
def quotedName : Expr := .literal ⟨.string, "'f'", ⟨1, 3, 1, 2⟩⟩

/-- What `(true)` stands for. -/
def constantWord : Expr := .literal ⟨.bool, "true", ⟨1, 4, 1, 2⟩⟩

theorem isComputedName_quotedName : Grammar.IsComputedName quotedName :=
  @Grammar.IsComputedName.parenthesised quotedName 2 1
    (.ofList [⟨.lparen, "(", ⟨0, 1, 1, 1⟩⟩, ⟨.string, "'f'", ⟨1, 3, 1, 2⟩⟩,
      ⟨.rparen, ")", ⟨4, 1, 1, 5⟩⟩, ⟨.eof, "", ⟨5, 0, 1, 6⟩⟩]) _ rfl rfl

theorem isComputedName_constantWord : Grammar.IsComputedName constantWord :=
  @Grammar.IsComputedName.parenthesised constantWord 2 1
    (.ofList [⟨.lparen, "(", ⟨0, 1, 1, 1⟩⟩, ⟨.bool, "true", ⟨1, 4, 1, 2⟩⟩,
      ⟨.rparen, ")", ⟨5, 1, 1, 6⟩⟩, ⟨.eof, "", ⟨6, 0, 1, 7⟩⟩]) _ rfl rfl

/-- A string in parentheses is the name of a function. -/
theorem quoted_name_is_asked_for :
    ((Expr.call quotedName ⟨.lparen, "(", ⟨5, 1, 1, 6⟩⟩ []).evaluateWithin
        ⟨.empty, .absent, .empty⟩ 2 2).runOn [] =
      (.error ⟨.undefinedFunction "f", ⟨1, 3, 1, 2⟩⟩, [.functionExists "f"]) := by
  have hword : ¬ quotedName.IsConstantWord := by
    rintro ⟨t, ⟨⟩, ht⟩
    exact absurd ht (by decide)
  have hname := (@computed_name_is_its_value ⟨.empty, .absent, .empty⟩ 2 1
    (.callee ⟨.lparen, "(", ⟨5, 1, 1, 6⟩⟩ []) quotedName isComputedName_quotedName .null [] []
    rfl).1 hword
  exact (hname.1 "f" [] rfl).trans rfl

/-- A computed name that is no string is not always refused. -/
theorem constant_word_is_taken_for_a_name :
    ¬ ∀ (env : Environment) (limit depth : Nat) (place : NamePlace) (e : Expr),
      Grammar.IsComputedName e → ∀ object past calls v calls',
        (place.before (Expr.evaluateWithin env limit depth)).runOn past = (.ok object, calls) →
        (e.evaluateWithin env limit depth).runOn calls = (.ok v, calls') →
        ¬ place.role.Accepts v →
        ((place.fill e).evaluateWithin env limit (depth + 1)).runOn past =
          (.error ⟨.invalidName place.role v.kind, e.location⟩, calls') := by
  intro hclaim
  have hrefused : ¬ NameRole.function.Accepts (.bool true) := by
    rintro (⟨s, ⟨⟩⟩ | ⟨⟨⟩, -⟩)
  have hrun := hclaim ⟨.empty, .absent, .empty⟩ 2 1 (.callee ⟨.lparen, "(", ⟨5, 1, 1, 6⟩⟩ [])
    constantWord isComputedName_constantWord .null [] [] (.bool true) [] rfl rfl hrefused
  have hasked : ((Expr.call constantWord ⟨.lparen, "(", ⟨5, 1, 1, 6⟩⟩ []).evaluateWithin
        ⟨.empty, .absent, .empty⟩ 2 2).runOn [] =
      (.error ⟨.undefinedFunction "true", ⟨1, 4, 1, 2⟩⟩, [.functionExists "true"]) := rfl
  cases hasked.symm.trans hrun

end GuardedExpr
