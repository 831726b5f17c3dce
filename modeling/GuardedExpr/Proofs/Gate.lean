/-
# The gate — no spelling of a name passes the deny-list

A name reaches a function in two steps: the deny-list looks it up, and then the
table does.  Both go by `canonicalName`, so what the one refuses under some
spelling, the other does not find under another.  The trace of calls says that the
first step is never left out, at whatever depth the call stands and however its
name was computed.
-/
import GuardedExpr.Host.FunctionTable
import GuardedExpr.Proofs.NodeContract

namespace GuardedExpr

/-! ## Edits of a deny-list -/

namespace DenyList

theorem empty_denies (name : String) : empty.denies name = false := rfl

theorem denies_insert (d : DenyList) (name other : String) :
    (d.insert name).denies other
      = (d.denies other || canonicalName other == canonicalName name) := by
  rw [Bool.eq_iff_iff]
  unfold insert
  split
  · next h =>
      simp only [denies, Bool.or_eq_true, beq_iff_eq] at h ⊢
      exact ⟨Or.inl, fun ho => ho.elim id fun he => he ▸ h⟩
  · simp [denies]

/-- The canonical form is what the deny-lists can tell apart. -/
theorem canonicalName_eq_iff_denies (m n : String) :
    canonicalName m = canonicalName n ↔ ∀ d : DenyList, d.denies m = d.denies n := by
  constructor
  · intro h d
    simp [denies, h]
  · intro h
    have hn := h (empty.insert m)
    rw [denies_insert, denies_insert, beq_self_eq_true, Bool.or_true, empty_denies] at hn
    exact (by simpa using hn.symm : canonicalName n = canonicalName m).symm

end DenyList

/-! ## Entries of a function table -/

namespace FunctionTable

/-- The entry that a name reaches. -/
def entry? (t : FunctionTable) (name : String) : Option (String × Native) :=
  t.entries.find? fun e => canonicalName name == e.1

theorem get?_eq_map_entry? (t : FunctionTable) (name : String) :
    t.get? name = (t.entry? name).map Prod.snd := by
  unfold get? entry?
  induction t.entries with
  | nil => rfl
  | cons e es ih =>
      rw [List.lookup_cons, List.find?_cons]
      split <;> simp_all

/-- Two names reach one entry exactly if they have one canonical form. -/
theorem entry?_eq_some_iff {t : FunctionTable} {m : String} {entry : String × Native}
    (h : t.entry? m = some entry) (n : String) :
    t.entry? n = some entry ↔ canonicalName m = canonicalName n := by
  have hm : canonicalName m = entry.1 := by simpa using List.find?_some h
  constructor
  · intro hn
    rw [hm]
    exact (by simpa using List.find?_some hn : canonicalName n = entry.1).symm
  · intro hmn
    rw [← h, entry?, entry?, hmn]

end FunctionTable

/-! ## Evaluations -/

/-- Nothing is required but that functions are asked for behind the deny-list. -/
def Contract.gated (denied : DenyList) : Contract :=
  ⟨Call.Gated denied, fun _ => True, fun _ => True⟩

theorem Contract.gated_admits (env : Environment) : (Contract.gated env.denied).Admits env :=
  ⟨fun _ hc => hc, fun _ _ => trivial⟩

namespace Eval

/-- A name is computed by the expression in its place and by nothing else. -/
theorem stringName_congr {eval eval' : Expr → EvalM Value} {name : Expr}
    (h : eval' name = eval name) (role : NameRole) :
    stringName eval' role name = stringName eval role name := by
  unfold stringName
  rw [h]

/-- A call of a denied function ends where its name is known. -/
theorem runOn_call_of_denied {env : Environment} {eval : Expr → EvalM Value} {callee : Expr}
    {name : String} {past calls : List Call}
    (hname : (stringName eval .function callee).runOn past = (.ok name, calls))
    (hdenied : env.denied.denies name = true) (paren : Token) (args : List Argument) :
    (call env eval callee paren args).runOn past
      = (.error ⟨.denied name, callee.location⟩, calls) := by
  unfold call
  rw [EvalM.runOn_bind_ok hname, if_pos hdenied]
  rfl

end Eval

/-- **No spelling passes the deny-list.**  Whatever the tree, the context, the host, the limit and
the calls made before:

  * the record grows by calls none of which asks for or invokes a denied function; so where the
    host is a table, the entry that any spelling of a denied name reaches is never invoked;
  * a call whose name turns out denied, at any level of nesting, is an error at its callee, and
    the record holds what computing the name put there: the outcome is the same with other
    arguments and with any other evaluation of them;
  * names are told apart by the entries of a table as they are by the deny-lists. -/
theorem denied_functions_are_out_of_reach (env : Environment) (limit : Nat) :
    (∀ (e : Expr) (past : List Call), ∃ calls,
      ((e.evaluate env limit).runOn past).2 = calls ++ past ∧
      (∀ c ∈ calls, ∀ name, c.function? = some name → env.denied.denies name = false) ∧
      ∀ t : FunctionTable, env.host = t.host → ∀ name args, .invokeFunction name args ∈ calls →
        ∀ spelling entry, env.denied.denies spelling = true → t.entry? spelling = some entry →
          t.entry? name ≠ some entry) ∧
    (∀ (depth : Nat) (callee : Expr) (name : String) (past calls : List Call),
      (Eval.stringName (Expr.evaluateWithin env limit depth) .function callee).runOn past
        = (.ok name, calls) →
      env.denied.denies name = true →
      ∀ eval : Expr → EvalM Value, eval callee = callee.evaluateWithin env limit depth →
        ∀ (paren : Token) (args : List Argument),
          (Eval.node env eval (.call callee paren args)).runOn past
            = (.error ⟨.denied name, callee.location⟩, calls)) ∧
    ∀ (t : FunctionTable) (m n : String),
      t.get? m = (t.entry? m).map Prod.snd ∧
      (t.has m = true → (t.entry? m = t.entry? n ↔ canonicalName m = canonicalName n)) ∧
      (canonicalName m = canonicalName n ↔ ∀ d : DenyList, d.denies m = d.denies n) := by
  refine ⟨?_, ?_, ?_⟩
  · intro e past
    obtain ⟨calls, hrec, hcalls, -⟩ := Contract.holds_evaluateWithin
      (Contract.gated_admits env) (fun _ => trivial) trivial limit e past
    refine ⟨calls, hrec, hcalls, ?_⟩
    intro t _ name args hmem spelling entry hdenied hentry hreached
    have hgate : env.denied.denies name = false := hcalls _ hmem name rfl
    have hsame := (FunctionTable.entry?_eq_some_iff hentry name).mp hreached
    rw [← (DenyList.canonicalName_eq_iff_denies spelling name).mp hsame, hdenied] at hgate
    cases hgate
  · intro depth callee name past calls hname hdenied eval heval paren args
    rw [← Eval.stringName_congr heval] at hname
    exact Eval.runOn_call_of_denied hname hdenied paren args
  · intro t m n
    refine ⟨t.get?_eq_map_entry? m, ?_, DenyList.canonicalName_eq_iff_denies m n⟩
    intro hm
    rw [FunctionTable.has, t.get?_eq_map_entry?] at hm
    cases hentry : t.entry? m with
    | none => simp [hentry] at hm
    | some entry => rw [eq_comm, FunctionTable.entry?_eq_some_iff hentry n]

/-- A table with a function that is denied below and one that is not. -/
def sampleTable : FunctionTable :=
  .ofList [("Exec", fun _ => .ok .null), ("Count", fun _ => .ok .null)]

def sampleEnvironment : Environment :=
  ⟨.ofList [("f", .str "\\EXEC")], sampleTable.host, .ofNames ["exec"]⟩

/-- The call `$f($g)` with a denied name in `$f` fails without a look at the unbound `$g`, and
`Count()` invokes another entry than the one that `\EXEC` reaches. -/
theorem exec_is_out_of_reach :
    (Eval.node sampleEnvironment (Expr.evaluateWithin sampleEnvironment 8 7)
        (.call (.variable ⟨.variable, "$f", ⟨0, 2, 1, 1⟩⟩) ⟨.lparen, "(", ⟨2, 1, 1, 3⟩⟩
          [.mk false (.variable ⟨.variable, "$g", ⟨3, 2, 1, 4⟩⟩)])).runOn []
      = (.error ⟨.denied "\\EXEC", ⟨0, 2, 1, 1⟩⟩, []) ∧
    sampleTable.entry? "Count" ≠ some ("exec", fun _ => .ok .null) ∧
    ((Expr.call (.literal ⟨.identifier, "Count", ⟨0, 5, 1, 1⟩⟩) ⟨.lparen, "(", ⟨5, 1, 1, 6⟩⟩
        []).evaluate sampleEnvironment 8).runOn []
      = (.ok .null, [.invokeFunction "Count" [], .functionExists "Count"]) := by
  have hrun : ((Expr.call (.literal ⟨.identifier, "Count", ⟨0, 5, 1, 1⟩⟩)
      ⟨.lparen, "(", ⟨5, 1, 1, 6⟩⟩ []).evaluate sampleEnvironment 8).runOn []
        = (.ok .null, [.invokeFunction "Count" [], .functionExists "Count"]) := rfl
  refine ⟨?_, ?_, hrun⟩
  · exact (denied_functions_are_out_of_reach sampleEnvironment 8).2.1 7 _ "\\EXEC" [] [] rfl
      (by decide) _ rfl _ _
  · obtain ⟨calls, hrec, -, htable⟩ := (denied_functions_are_out_of_reach sampleEnvironment 8).1
      (.call (.literal ⟨.identifier, "Count", ⟨0, 5, 1, 1⟩⟩) ⟨.lparen, "(", ⟨5, 1, 1, 6⟩⟩ []) []
    rw [hrun, List.append_nil] at hrec
    refine htable sampleTable rfl "Count" [] ?_ "\\EXEC" _ (by decide) rfl
    rw [← hrec]
    exact List.mem_cons_self

end GuardedExpr
