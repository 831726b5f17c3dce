/-
# The loose order — turned round on aligned values

Tables of one size are compared along the keys of the one in front, up to the first
entry that is not equal.  Where the other table has the same keys in another order, a
different entry may be the first one from its side, and then the order of the two is not
turned round when they change places.  Two values are *aligned* when no such tables are
compared inside them:

    Meets a b x y        x is compared with y when a is compared with b
    Aligned a b          Meets a b es fs  →  |es| = |fs|  →  keys es = keys fs

Scalars, objects and lists of them are always aligned (`aligned_of_isListed`).  On
aligned values both sides walk the same entries, so the induction over the value in
front carries the order of the entries to that of the tables (`orderEntries_swap`).

The operators read the order (`TokenKind.reading?`): they ask the same question from
both sides, and the answers fit together.
-/
import GuardedExpr.Eval.Evaluate
import GuardedExpr.Proofs.LooseEquality

namespace GuardedExpr

namespace Value

open EvalM

/-! ## Aligned values -/

section Aligned

variable (strings : Handle → Option String)

/-- The second pair is compared when the first pair is: it is that pair, or it is compared when
two entries are that are reached, all entries in front of them being equal. -/
inductive Meets : Value → Value → Value → Value → Prop
  | self (a b : Value) : Meets a b a b
  | entry {before after fs : Table} {k : Key} {v w x y : Value} :
      (before ++ (k, v) :: after).length = fs.length →
      orderEntries strings before fs = some .eq → fs.find? k = some w → Meets v w x y →
      Meets (.table (before ++ (k, v) :: after)) (.table fs) x y

/-- Tables of one size that are compared inside the two values have the same keys in the same
order. -/
def Aligned (a b : Value) : Prop :=
  ∀ es fs : Table, Meets strings a b (.table es) (.table fs) → es.length = fs.length →
    es.keys = fs.keys

end Aligned

/-- No table, or a list of such values. -/
inductive IsListed : Value → Prop
  | plain {v : Value} : (∀ es, v ≠ .table es) → IsListed v
  | list {vs : List Value} : (∀ v ∈ vs, IsListed v) → IsListed (.list vs)

variable {strings : Handle → Option String} {a b x y : Value}

/-- The entries under one key of tables that are walked are aligned as well. -/
theorem Aligned.entry {before after fs : Table} {k : Key} {v w : Value}
    (h : Aligned strings (.table (before ++ (k, v) :: after)) (.table fs))
    (hlength : (before ++ (k, v) :: after).length = fs.length)
    (hbefore : orderEntries strings before fs = some .eq) (hfound : fs.find? k = some w) :
    Aligned strings v w :=
  fun es' fs' hmeets => h es' fs' (.entry hlength hbefore hfound hmeets)

theorem mem_of_mem_ofValues {vs : List Value} {e : Key × Value} (h : e ∈ Table.ofValues vs) :
    e.2 ∈ vs := by
  obtain ⟨p, hp, rfl⟩ := List.mem_map.mp h
  exact List.fst_mem_of_mem_zipIdx hp

theorem IsListed.exists_ofValues {es : Table} (h : IsListed (.table es)) :
    ∃ vs, es = Table.ofValues vs ∧ ∀ v ∈ vs, IsListed v := by
  generalize hv : Value.table es = v at h
  cases h with
  | plain hplain => exact absurd hv.symm (hplain es)
  | @list vs hvs => exact ⟨vs, Value.table.inj hv, hvs⟩

/-- What is compared inside listed values is listed. -/
theorem Meets.isListed (h : Meets strings a b x y) (ha : a.IsListed) (hb : b.IsListed) :
    x.IsListed ∧ y.IsListed := by
  induction h with
  | self => exact ⟨ha, hb⟩
  | @entry before after fs k v w x y hlength hbefore hfound hmeets ih =>
      obtain ⟨vs, hes, hvs⟩ := ha.exists_ofValues
      obtain ⟨ws, hfs, hws⟩ := hb.exists_ofValues
      refine ih (hvs v ?_) (hws w ?_)
      · exact mem_of_mem_ofValues (hes ▸ List.mem_append_right _ List.mem_cons_self)
      · exact mem_of_mem_ofValues (hfs ▸ Table.mem_of_find? hfound)

/-- **Scalars, objects and lists are aligned.** -/
theorem aligned_of_isListed (ha : a.IsListed) (hb : b.IsListed) : Aligned strings a b := by
  intro es fs hmeets hlength
  obtain ⟨hes, hfs⟩ := hmeets.isListed ha hb
  obtain ⟨vs, rfl, -⟩ := hes.exists_ofValues
  obtain ⟨ws, rfl, -⟩ := hfs.exists_ofValues
  rw [Table.keys_ofValues, Table.keys_ofValues]
  have hsize : vs.length = ws.length := by simpa [Table.ofValues] using hlength
  rw [hsize]

/-! ## The order turned round -/

/-- Walking two tables in parallel.  The entries that are left belong to tables with distinct keys,
so each of them is found under its key, and those that are reached have opposite orders. -/
theorem orderEntries_swap {left right es fs : Table} (hleft : left.keys.Nodup)
    (hright : right.keys.Nodup) (hes : es ⊆ left) (hfs : fs ⊆ right) (hkeys : es.keys = fs.keys)
    (hentries : ∀ before k v after w, es = before ++ (k, v) :: after →
      orderEntries strings before right = some .eq → right.find? k = some w →
      order strings w v = (order strings v w).map Ordering.swap) :
    orderEntries strings fs left = (orderEntries strings es right).map Ordering.swap := by
  induction es generalizing fs with
  | nil =>
      obtain rfl : fs = [] := List.map_eq_nil_iff.mp hkeys.symm
      rfl
  | cons e es ih =>
      obtain ⟨k, v⟩ := e
      cases fs with
      | nil => cases hkeys
      | cons f fs =>
          obtain ⟨j, w⟩ := f
          rw [Table.keys_cons, Table.keys_cons] at hkeys
          obtain ⟨rfl, hrest⟩ := List.cons.inj hkeys
          obtain ⟨hv, hes⟩ := List.cons_subset.mp hes
          obtain ⟨hw, hfs⟩ := List.cons_subset.mp hfs
          have hw := Table.find?_of_mem hright hw
          have hhead : order strings w v = (order strings v w).map Ordering.swap :=
            hentries [] k v es w rfl orderEntries_nil hw
          rw [orderEntries_cons (Table.find?_of_mem hleft hv), orderEntries_cons hw, hhead]
          by_cases heq : order strings v w = some .eq
          · rw [heq]
            refine ih hes hfs hrest fun before j u after r hsplit hbefore hr => ?_
            refine hentries ((k, v) :: before) j u after r (hsplit ▸ rfl) ?_ hr
            rw [orderEntries_cons hw, if_pos heq, hbefore]
          · have hne : (order strings v w).map Ordering.swap ≠ some .eq := by
              cases ho : order strings v w with
              | none => nofun
              | some o => cases o <;> simp_all
            rw [if_neg heq, if_neg hne]

/-- **Aligned values have opposite orders from both sides.** -/
theorem order_swap (ha : a.KeysDistinct) (hb : b.KeysDistinct) (h : Aligned strings a b) :
    order strings b a = (order strings a b).map Ordering.swap := by
  induction ha generalizing b with
  | plain hplain => exact order_swap_of_plain fun es _ hab => hplain es hab.1
  | @table es hnodup hentries ih =>
      by_cases hb' : ∃ fs : Table, b = .table fs
      · obtain ⟨fs, rfl⟩ := hb'
        by_cases hlength : es.length = fs.length
        · rw [order_tables_of_length_eq hlength, order_tables_of_length_eq hlength.symm]
          refine orderEntries_swap hnodup hb.keys_nodup (List.Subset.refl _) (List.Subset.refl _)
            (h es fs (.self _ _) hlength) ?_
          rintro before k v after w rfl hbefore hfound
          have hmem : (k, v) ∈ before ++ (k, v) :: after :=
            List.mem_append_right _ List.mem_cons_self
          exact ih (k, v) hmem (hb.of_mem (Table.mem_of_find? hfound))
            (h.entry hlength hbefore hfound)
        · rw [order_tables, order_tables]
          by_cases hlt : es.length < fs.length
          · rw [if_pos hlt, if_neg (by omega), if_pos hlt]
            rfl
          · rw [if_pos (by omega), if_neg hlt, if_pos (by omega)]
            rfl
      · exact order_swap_of_plain fun es' fs hab => hb' ⟨fs, hab.2⟩

end Value

/-! ## The operators -/

/-- What a comparing operator makes of the order of its operands. -/
def TokenKind.reading? : TokenKind → Option (Option Ordering → Value)
  | .less => some fun o => .bool (o == some .lt)
  | .greater => some fun o => .bool (o == some .gt)
  | .lessEqual => some fun o => .bool (o == some .lt || o == some .eq)
  | .greaterEqual => some fun o => .bool (o == some .gt || o == some .eq)
  | .spaceship => some fun
    | some .lt => .int (-1)
    | some .eq => .int 0
    | _ => .int 1
  | _ => none

/-- The operator says from one side what the other one says from the other side. -/
inductive TokenKind.Mirrors : TokenKind → TokenKind → Prop
  | strict : Mirrors .less .greater
  | wide : Mirrors .lessEqual .greaterEqual

section Operators

variable (env : Environment) (limit : Nat) (op : Token)

/-- Whatever the operands are: once they have run to the two values, the operator ends in the
result, whatever it asks of the host itself. -/
def Token.Yields (v w : Value) (result : Value) : Prop :=
  ∀ (depth : Nat) (left right : Expr) (past calls calls' : List Call),
    (left.evaluateWithin env limit depth).runOn past = (.ok v, calls) →
    (right.evaluateWithin env limit depth).runOn calls = (.ok w, calls') →
    ∃ calls'', ((Expr.binary left op right).evaluateWithin env limit (depth + 1)).runOn past =
      (.ok result, calls'')

variable {env limit op}

theorem Eval.binary_of_reading {eval : Expr → EvalM Value} {left right : Expr}
    {reading : Option Ordering → Value} (h : op.kind.reading? = some reading) :
    binary env eval left op right = (do
      let v ← eval left
      let w ← eval right
      let o ← v.compare env.objectText w
      return reading o) := by
  have hnode : binary env eval left op right = (do
      let v ← eval left
      let w ← eval right
      binaryOperation env op v w) := by
    unfold binary
    split <;> simp_all [TokenKind.reading?]
  have hvalues (v w : Value) : binaryOperation env op v w = (do
      let o ← v.compare env.objectText w
      return reading o) := by
    unfold TokenKind.reading? at h
    unfold binaryOperation
    split at h <;> cases h <;> simp only [*]
    all_goals
      refine bind_congr fun o => ?_
      rcases o with - | - | - | - <;> rfl
  simp only [hnode, hvalues]

theorem Token.yields_of_answers {v w : Value} {o : Option Ordering}
    {reading : Option Ordering → Value} (h : op.kind.reading? = some reading)
    (ho : (v.compare env.objectText w).Answers o) : op.Yields env limit v w (reading o) := by
  intro depth left right past calls calls' hleft hright
  obtain ⟨calls'', hrun⟩ := ho calls'
  refine ⟨calls'', ?_⟩
  show (Eval.binary env _ left op right).runOn past = _
  rw [Eval.binary_of_reading h, EvalM.runOn_bind_ok hleft, EvalM.runOn_bind_ok hright,
    EvalM.runOn_bind_ok hrun]
  rfl

/-- Operators that mirror each other agree where the order is turned round. -/
theorem Token.yields_of_mirrors {op' : Token} {v w : Value} {o : Option Ordering}
    (h : op.kind.Mirrors op'.kind) (ho : (v.compare env.objectText w).Answers o)
    (ho' : (w.compare env.objectText v).Answers (o.map Ordering.swap)) :
    ∃ holds, op.Yields env limit v w (.bool holds) ∧ op'.Yields env limit w v (.bool holds) := by
  generalize hk : op.kind = k at h
  generalize hk' : op'.kind = k' at h
  have hreading := congrArg TokenKind.reading? hk
  have hreading' := congrArg TokenKind.reading? hk'
  cases h with
  | strict =>
      refine ⟨o == some .lt, yields_of_answers hreading ho, ?_⟩
      have hholds : (o == some .lt) = (o.map Ordering.swap == some .gt) := by
        rcases o with - | - | - | - <;> rfl
      rw [hholds]
      exact yields_of_answers hreading' ho'
  | wide =>
      refine ⟨o == some .lt || o == some .eq, yields_of_answers hreading ho, ?_⟩
      have hholds : (o == some .lt || o == some .eq) =
          (o.map Ordering.swap == some .gt || o.map Ordering.swap == some .eq) := by
        rcases o with - | - | - | - <;> rfl
      rw [hholds]
      exact yields_of_answers hreading' ho'

/-- Incomparable values are counted as greater from both sides, all others have opposite
numbers. -/
theorem Token.yields_of_spaceship {v w : Value} {o : Ordering} (h : op.kind = .spaceship)
    (ho : (v.compare env.objectText w).Answers (some o))
    (ho' : (w.compare env.objectText v).Answers (some o.swap)) :
    ∃ n, op.Yields env limit v w (.int n) ∧ op.Yields env limit w v (.int (-n)) := by
  have hreading : op.kind.reading? = TokenKind.spaceship.reading? := congrArg _ h
  cases o with
  | lt => exact ⟨-1, yields_of_answers hreading ho, yields_of_answers hreading ho'⟩
  | eq => exact ⟨0, yields_of_answers hreading ho, yields_of_answers hreading ho'⟩
  | gt => exact ⟨1, yields_of_answers hreading ho, yields_of_answers hreading ho'⟩

end Operators

/-! ## The loose order -/

open Value

/-- **The loose order is turned round when aligned values change places.**  Scalars, objects and
lists are aligned.  Between aligned values `<` and `>`, `<=` and `>=` say the same from
opposite sides, and `<=>` yields opposite numbers if the values are comparable. -/
theorem loose_order_turns_round {a b : Value} (ha : a.KeysDistinct) (hb : b.KeysDistinct)
    {env : Environment} {strings : Handle → Option String} (henv : env.host.ShowsObjects strings)
    (limit : Nat) :
    (a.IsListed → b.IsListed → Aligned strings a b) ∧
    (Aligned strings a b → ∃ o : Option Ordering,
      (a.compare env.objectText b).Answers o ∧
      (b.compare env.objectText a).Answers (o.map Ordering.swap) ∧
      (∀ op op' : Token, op.kind.Mirrors op'.kind → ∃ holds,
        op.Yields env limit a b (.bool holds) ∧ op'.Yields env limit b a (.bool holds)) ∧
      (o ≠ none → ∀ op : Token, op.kind = .spaceship → ∃ n,
        op.Yields env limit a b (.int n) ∧ op.Yields env limit b a (.int (-n)))) := by
  have htext := env.answers_objectText henv
  refine ⟨aligned_of_isListed, fun haligned => ?_⟩
  have hleft : (a.compare env.objectText b).Answers (order strings a b) :=
    compare_answers htext a b
  have hright : (b.compare env.objectText a).Answers ((order strings a b).map Ordering.swap) := by
    rw [← order_swap ha hb haligned]
    exact compare_answers htext b a
  refine ⟨order strings a b, hleft, hright, ?_, ?_⟩
  · exact fun op op' hop => Token.yields_of_mirrors hop hleft hright
  · intro hcomparable op hop
    obtain ⟨o, ho⟩ := Option.ne_none_iff_exists'.mp hcomparable
    rw [ho] at hleft hright
    exact Token.yields_of_spaceship hop hleft hright

/-- Lists in lists, with an object whose string is in front of another string. -/
theorem nested_lists_turn_round :
    let env : Environment := ⟨.empty, .showing fun _ => some "seven", .empty⟩
    let a : Value := .list [.int 1, .list [.object ⟨7⟩]]
    let b : Value := .list [.int 1, .list [.str "six"]]
    (a.compare env.objectText b).Answers (some .lt) ∧
      (b.compare env.objectText a).Answers (some .gt) := by
  intro env a b
  have hlisted {v : Value} (hv : ∀ es, v ≠ .table es) : (list [.int 1, .list [v]]).IsListed :=
    .list (by simpa using ⟨.plain (by simp), .list (by simpa using .plain hv)⟩)
  have hkeys {v : Value} (hv : ∀ es, v ≠ .table es) : (list [.int 1, .list [v]]).KeysDistinct :=
    .table (by simp [Table.keys, Table.ofValues]) (by simpa [Table.ofValues] using
      ⟨.plain (by simp), .table (by simp [Table.keys, Table.ofValues])
        (by simpa [Table.ofValues] using .plain hv)⟩)
  have henv : env.host.ShowsObjects fun _ => some "seven" := Host.showsObjects_showing _
  obtain ⟨haligned, hturn⟩ := loose_order_turns_round
    (hkeys (by simp) : a.KeysDistinct) (hkeys (by simp) : b.KeysDistinct) henv 2
  obtain ⟨o, hleft, hright, -⟩ := hturn (haligned (hlisted (by simp)) (hlisted (by simp)))
  have hrun : ((a.compare env.objectText b).runOn []).1 = .ok (some .lt) := rfl
  obtain ⟨calls, ho⟩ := hleft []
  rw [ho] at hrun
  cases hrun
  exact ⟨hleft, hright⟩

end GuardedExpr
