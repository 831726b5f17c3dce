/-
# Loose equality — symmetric, and wider than identity

The loose order of two values may ask the host for the string of an object.  Where that
string depends on the object alone (`Host.ShowsObjects`) the order is a function of the
two values (`Value.order`), however often the host is asked and in which turn.

Between two values that are not both tables there is one comparison to make.  Each rule
for a pair of kinds has a rule for the pair the other way round, and the two give
opposite orders (`order_swap_of_plain`).

Tables are walked along the keys of the one in front.  Two tables are equal when each
entry finds an equal one under its key; since both have as many entries and no key
twice, the keys of the other are then found as well.  An entry finds its partner
whatever the order of the keys, so symmetry is proved without the opposite order, which
tables do not have.
-/
import GuardedExpr.Eval.Operation
import GuardedExpr.Proofs.Contract
import GuardedExpr.Proofs.NumberOrder
import GuardedExpr.Proofs.Tables

namespace GuardedExpr

/-! ## The order as a function -/

namespace EvalM

variable {α β : Type}

/-- Whatever was asked before, the computation ends in the value. -/
def Answers (x : EvalM α) (a : α) : Prop := ∀ past, ∃ calls, x.runOn past = (.ok a, calls)

theorem answers_pure (a : α) : (pure a : EvalM α).Answers a := fun past => ⟨past, rfl⟩

theorem Answers.bind {x : EvalM α} {f : α → EvalM β} {a : α} {b : β} (hx : x.Answers a)
    (hf : (f a).Answers b) : (x >>= f).Answers b := by
  intro past
  obtain ⟨calls, hrun⟩ := hx past
  rw [runOn_bind_ok hrun]
  exact hf calls

end EvalM

/-- The string of an object depends on the object alone. -/
def Host.ShowsObjects (host : Host) (strings : Handle → Option String) : Prop :=
  ∀ past g, host past (.objectText g) = strings g

/-- The host that gives objects their strings and has nothing else. -/
def Host.showing (strings : Handle → Option String) : Host := fun _ c =>
  match c with
  | .objectText g => strings g
  | c => c.absentAnswer

theorem Host.showsObjects_showing (strings : Handle → Option String) :
    (showing strings).ShowsObjects strings := fun _ _ => rfl

theorem Environment.answers_objectText {env : Environment} {strings : Handle → Option String}
    (h : env.host.ShowsObjects strings) (g : Handle) :
    (env.objectText g).Answers (strings g) := by
  intro past
  refine ⟨.objectText g :: past, ?_⟩
  rw [← h past g]
  rfl

namespace Value

open EvalM

/-- The loose order where the strings of objects are known. -/
def order (strings : Handle → Option String) (a b : Value) : Option Ordering :=
  Id.run (compare (fun g => pure (strings g)) a b)

def orderEntries (strings : Handle → Option String) (es other : Table) : Option Ordering :=
  Id.run (compareEntries (fun g => pure (strings g)) es other)

variable {strings : Handle → Option String} {text : Handle → EvalM (Option String)}

section Equations

variable {es fs other : Table} {k : Key} {v w : Value}

theorem order_tables : order strings (.table es) (.table fs) =
    if es.length < fs.length then some .lt
    else if fs.length < es.length then some .gt
    else orderEntries strings es fs := by
  unfold order orderEntries
  rw [compare]
  split
  · rfl
  · split <;> rfl

theorem order_tables_of_length_eq (h : es.length = fs.length) :
    order strings (.table es) (.table fs) = orderEntries strings es fs := by
  rw [order_tables, if_neg (by omega), if_neg (by omega)]

theorem orderEntries_nil : orderEntries strings [] other = some .eq := rfl

/-- The first entry that is not equal decides. -/
theorem orderEntries_cons (h : other.find? k = some w) :
    orderEntries strings ((k, v) :: es) other =
      if order strings v w = some .eq then orderEntries strings es other
      else order strings v w := by
  unfold orderEntries order
  rw [compareEntries, h]
  simp only [Id.run_bind]
  generalize Id.run (compare _ v w) = o
  rcases o with - | - | - | - <;> rfl

theorem orderEntries_cons_none (h : other.find? k = none) :
    orderEntries strings ((k, v) :: es) other = none := by
  unfold orderEntries
  rw [compareEntries, h]
  rfl

end Equations

/-- Comparing values that are not both tables asks for one string at most. -/
theorem compare_answers_of_plain (h : ∀ g, (text g).Answers (strings g)) {a b : Value}
    (hplain : ∀ es fs, ¬ (a = .table es ∧ b = .table fs)) :
    (compare text a b).Answers (order strings a b) := by
  cases a <;> cases b <;> simp only [order, compare, pure_bind, Id.run_pure]
  case table.table => exact absurd ⟨rfl, rfl⟩ (hplain _ _)
  case object.str g t =>
    refine (h g).bind ?_
    cases strings g <;> exact answers_pure _
  case str.object s g =>
    refine (h g).bind ?_
    cases strings g <;> exact answers_pure _
  all_goals exact answers_pure _

mutual

/-- **The order does not depend on what was asked before.** -/
theorem compare_answers (h : ∀ g, (text g).Answers (strings g)) :
    ∀ a b : Value, (compare text a b).Answers (order strings a b)
  | .table es, .table fs => by
      rw [order_tables, compare]
      split
      · exact answers_pure _
      · split
        · exact answers_pure _
        · exact compareEntries_answers h es fs
  | .table _, .null | .table _, .bool _ | .table _, .int _ | .table _, .float _ | .table _, .str _
  | .table _, .object _ | .null, _ | .bool _, _ | .int _, _ | .float _, _ | .str _, _
  | .object _, _ => compare_answers_of_plain h (by simp)

theorem compareEntries_answers (h : ∀ g, (text g).Answers (strings g)) :
    ∀ es other : Table, (compareEntries text es other).Answers (orderEntries strings es other)
  | [], _ => answers_pure _
  | (k, v) :: es, other => by
      rw [compareEntries]
      cases hfound : Table.find? k other with
      | none =>
          rw [orderEntries_cons_none hfound]
          exact answers_pure _
      | some w =>
          rw [orderEntries_cons hfound]
          refine (compare_answers h v w).bind ?_
          rcases order strings v w with - | - | - | -
          · exact answers_pure _
          · exact answers_pure _
          · exact compareEntries_answers h es other
          · exact answers_pure _

end

theorem looseEquals_answers (h : ∀ g, (text g).Answers (strings g)) (a b : Value) :
    (looseEquals text a b).Answers (order strings a b == some .eq) :=
  (compare_answers h a b).bind (answers_pure _)

end Value

/-! ## The rules for plain values -/

section Rules

theorem compareBools_swap (p q : Bool) : compareBools q p = (compareBools p q).swap := by
  cases p <;> cases q <;> rfl

theorem textOrder_swap (s t : String) : textOrder t s = (textOrder s t).swap := by
  unfold textOrder
  by_cases hlt : s < t
  · have hne : t ≠ s := by
      rintro rfl
      exact String.lt_irrefl _ hlt
    rw [if_neg (String.lt_asymm hlt), if_neg hne, if_pos hlt]
    rfl
  by_cases heq : s = t
  · subst heq
    rw [if_neg hlt, if_pos rfl]
    rfl
  · have hgt : t < s := String.not_le.mp fun hle =>
      heq (String.le_antisymm hle (String.not_lt.mp hlt))
    rw [if_pos hgt, if_neg hlt, if_neg heq]
    rfl

theorem textOrder_self (s : String) : textOrder s s = .eq := by
  rw [textOrder, if_neg (String.lt_irrefl s), if_pos rfl]

/-- Two strings are compared as numbers or as texts, and both times in the same way. -/
theorem compareTexts_swap (s t : String) :
    compareTexts t s = (compareTexts s t).map Ordering.swap := by
  unfold compareTexts
  cases parseNumeric? s with
  | none => cases parseNumeric? t <;> exact congrArg some (textOrder_swap s t)
  | some m =>
      cases parseNumeric? t with
      | none => exact congrArg some (textOrder_swap s t)
      | some n => exact m.order?_swap n

theorem compareTexts_self (s : String) : compareTexts s s = some .eq := by
  unfold compareTexts
  cases hs : parseNumeric? s with
  | none => exact congrArg some (textOrder_self s)
  | some n => exact order?_self_of_numeric hs

end Rules

namespace Value

variable {strings : Handle → Option String} {a b : Value}

/-- **Values that are not both tables have opposite orders.** -/
theorem order_swap_of_plain (hplain : ∀ es fs, ¬ (a = .table es ∧ b = .table fs)) :
    order strings b a = (order strings a b).map Ordering.swap := by
  have htwice (o : Option Ordering) : o = (o.map Ordering.swap).map Ordering.swap := by
    cases o <;> simp
  cases a <;> cases b <;> simp only [order, compare, pure_bind, Id.run_pure]
  case table.table => exact absurd ⟨rfl, rfl⟩ (hplain _ _)
  case null.str t => exact compareTexts_swap "" t
  case str.null s => exact compareTexts_swap s ""
  case str.str s t => exact compareTexts_swap s t
  case int.int | int.float | float.int | float.float => exact Number.order?_swap _ _
  -- The rule for a string in front of a number is the other rule turned round.
  case str.int | str.float => exact htwice _
  case str.object s g =>
    cases strings g with
    | none => rfl
    | some t => exact compareTexts_swap s t
  case object.str g t =>
    cases strings g with
    | none => rfl
    | some s => exact compareTexts_swap s t
  case object.object g h =>
    by_cases hg : g = h
    · simp [hg]
    · simp [hg, Ne.symm hg]
  case int.table | float.table | str.table | object.table | table.int | table.float | table.str |
      table.object | int.object | float.object | object.int | object.float => rfl
  -- What is left has null or a boolean on one side.
  all_goals exact congrArg some (compareBools_swap _ _)

theorem order_self_of_plain (hplain : ∀ es, a ≠ .table es)
    (hnan : ∀ x, a = .float x → (x == x) = true) : order strings a a = some .eq := by
  cases a <;> simp only [order, compare, Id.run_pure]
  case bool p => cases p <;> rfl
  case int x => exact Number.order?_self nofun
  case float x => exact Number.order?_of_beq (hnan x rfl)
  case str s => exact compareTexts_self s
  case table => exact absurd rfl (hplain _)
  case object => exact if_pos trivial
  case null => rfl

/-! ## Equal tables -/

section Tables

variable {es fs other : Table}

/-- Entries are equal when each finds an equal one under its key. -/
theorem orderEntries_eq_iff : orderEntries strings es other = some .eq ↔
    ∀ e ∈ es, ∃ w, other.find? e.1 = some w ∧ order strings e.2 w = some .eq := by
  induction es with
  | nil => simp [orderEntries_nil]
  | cons e es ih =>
      obtain ⟨k, v⟩ := e
      rw [List.forall_mem_cons, ← ih]
      cases hfound : other.find? k with
      | none => simp [orderEntries_cons_none hfound]
      | some w =>
          rw [orderEntries_cons hfound]
          by_cases heq : order strings v w = some .eq <;> simp [heq]

theorem order_tables_eq_iff : order strings (.table es) (.table fs) = some .eq ↔
    es.length = fs.length ∧
      ∀ e ∈ es, ∃ w, fs.find? e.1 = some w ∧ order strings e.2 w = some .eq := by
  rw [← orderEntries_eq_iff]
  by_cases hlength : es.length = fs.length
  · rw [order_tables_of_length_eq hlength]
    exact (and_iff_right hlength).symm
  · rw [order_tables]
    refine iff_of_false ?_ fun h => hlength h.1
    split
    · simp
    · rw [if_pos (by omega)]
      simp

end Tables

/-- **Equal one way round is equal the other way round.** -/
theorem order_eq_symm (ha : a.KeysDistinct) (hb : b.KeysDistinct)
    (h : order strings a b = some .eq) : order strings b a = some .eq := by
  induction ha generalizing b with
  | plain hplain =>
      rw [order_swap_of_plain fun es _ hab => hplain es hab.1, h]
      rfl
  | @table es hnodup hentries ih =>
      by_cases hb' : ∃ fs : Table, b = .table fs
      · obtain ⟨fs, rfl⟩ := hb'
        obtain ⟨hlength, hpartners⟩ := order_tables_eq_iff.mp h
        rw [order_tables_eq_iff]
        refine ⟨hlength.symm, fun f hf => ?_⟩
        have hkeys : ∀ k ∈ es.keys, k ∈ fs.keys := by
          intro k hk
          obtain ⟨e, he, rfl⟩ := List.mem_map.mp hk
          obtain ⟨w, hw, -⟩ := hpartners e he
          exact List.mem_map.mpr ⟨(e.1, w), Table.mem_of_find? hw, rfl⟩
        have hkey : f.1 ∈ es.keys :=
          Table.mem_keys_of_length_eq hnodup hlength hkeys (List.mem_map_of_mem hf)
        obtain ⟨v, hv⟩ := Table.exists_find? hkey
        obtain ⟨w, hw, heq⟩ := hpartners (f.1, v) (Table.mem_of_find? hv)
        -- The partner of the partner is the entry itself, its key being there once.
        obtain rfl : f.2 = w := by
          rw [Table.find?_of_mem hb.keys_nodup hf] at hw
          exact Option.some.inj hw
        exact ⟨v, hv, ih (f.1, v) (Table.mem_of_find? hv) (hb.of_mem hf) heq⟩
      · rw [order_swap_of_plain fun es' fs hab => hb' ⟨fs, hab.2⟩, h]
        rfl

/-! ## Identity -/

theorem partners_of_identicalEntries {es fs : Table} (h : identicalEntries es fs = true) :
    Table.keys es = Table.keys fs ∧
      ∀ e ∈ es, ∃ w, (e.1, w) ∈ fs ∧ e.2.identical w = true := by
  induction es generalizing fs with
  | nil =>
      cases fs with
      | nil => exact ⟨rfl, nofun⟩
      | cons f fs => cases h
  | cons e es ih =>
      cases fs with
      | nil => cases h
      | cons f fs =>
          rw [identicalEntries, Bool.and_eq_true, Bool.and_eq_true, beq_iff_eq] at h
          obtain ⟨⟨hkey, hvalue⟩, hrest⟩ := h
          obtain ⟨hkeys, hpartners⟩ := ih hrest
          refine ⟨congrArg₂ List.cons hkey hkeys, List.forall_mem_cons.mpr ⟨?_, ?_⟩⟩
          · exact ⟨f.2, hkey ▸ List.mem_cons_self, hvalue⟩
          · intro e' he'
            obtain ⟨w, hw, hidentical⟩ := hpartners e' he'
            exact ⟨w, List.mem_cons_of_mem _ hw, hidentical⟩

/-- **Identical values are equal.**  Identical tables have their keys in one order, so the partner
of an entry stands at the place of the entry. -/
theorem order_of_identical (ha : a.KeysDistinct) (h : a.identical b = true) :
    order strings a b = some .eq := by
  induction ha generalizing b with
  | @plain v hplain =>
      cases v with
      | table es => exact absurd rfl (hplain es)
      | float x =>
          cases b with
          | float y => exact Number.order?_of_beq h
          | null | bool | int | str | table | object => cases h
      | null | bool | int | str | object =>
          cases b <;> try cases h
          all_goals
            try obtain rfl := beq_iff_eq.mp h
            exact order_self_of_plain nofun nofun
  | @table es hnodup hentries ih =>
      cases b with
      | table fs =>
          obtain ⟨hkeys, hpartners⟩ := partners_of_identicalEntries h
          have hlength : es.length = fs.length := by
            simpa [Table.keys] using congrArg List.length hkeys
          refine order_tables_eq_iff.mpr ⟨hlength, fun e he => ?_⟩
          obtain ⟨w, hw, hidentical⟩ := hpartners e he
          exact ⟨w, Table.find?_of_mem (hkeys ▸ hnodup) hw, ih e he hidentical⟩
      | null | bool | int | float | str | object => cases h

/-! ## Loose equality -/

/-- **Loose equality is symmetric, and identical values are equal.**  Tables may be nested to any
depth and have their keys in any order, objects are compared by the string that the host
gives, and NaN is neither identical nor equal to anything.  However often the host is asked on
the way, it gives an answer in the end. -/
theorem loose_equality_is_symmetric {a b : Value} (ha : a.KeysDistinct) (hb : b.KeysDistinct)
    {env : Environment} (henv : env.host.ShowsObjects strings) :
    ∃ equal, (a.looseEquals env.objectText b).Answers equal ∧
      (b.looseEquals env.objectText a).Answers equal ∧ (a.identical b = true → equal = true) := by
  have htext := env.answers_objectText henv
  refine ⟨order strings a b == some .eq, looseEquals_answers htext a b, ?_, fun h => ?_⟩
  · have hsymm : (order strings a b == some .eq) = (order strings b a == some .eq) := by
      rw [Bool.eq_iff_iff, beq_iff_eq, beq_iff_eq]
      exact ⟨order_eq_symm ha hb, order_eq_symm hb ha⟩
    rw [hsymm]
    exact looseEquals_answers htext b a
  · rw [order_of_identical ha h]
    rfl

/-- Entries in another order, an object and a boolean among them. -/
theorem reordered_tables_are_equal :
    let env : Environment := ⟨.empty, .showing fun _ => some "seven", .empty⟩
    let a : Value := .table [(.str "x", .int 1), (.str "y", .object ⟨7⟩)]
    let b : Value := .table [(.str "y", .str "seven"), (.str "x", .bool true)]
    (a.looseEquals env.objectText b).Answers true ∧
      (b.looseEquals env.objectText a).Answers true := by
  intro env a b
  have hkeys {v w : Value} {j k : Key} (hv : v.KeysDistinct) (hw : w.KeysDistinct) (hne : j ≠ k) :
      KeysDistinct (.table [(j, v), (k, w)]) :=
    .table (by simp [Table.keys, hne]) (by simp [hv, hw])
  have henv : env.host.ShowsObjects fun _ => some "seven" := Host.showsObjects_showing _
  obtain ⟨equal, hleft, hright, -⟩ := loose_equality_is_symmetric
    (hkeys (.plain (by simp)) (.plain (by simp)) (by decide) : a.KeysDistinct)
    (hkeys (.plain (by simp)) (.plain (by simp)) (by decide) : b.KeysDistinct) henv
  have hrun : ((a.looseEquals env.objectText b).runOn []).1 = .ok true := rfl
  obtain ⟨calls, hequal⟩ := hleft []
  rw [hequal] at hrun
  cases hrun
  exact ⟨hleft, hright⟩

end Value

end GuardedExpr
