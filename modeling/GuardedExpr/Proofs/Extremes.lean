/-
# Extremes — the first of the greatest, the first of the least

The library looks for an extreme with one value in hand, which a candidate replaces if it
compares with it as wanted: as greater for the greatest, as less for the least.  It is
compared with the value in hand only, so that the outcome says something about all
candidates takes an order, which the loose order is on some values and not on others:

    "1a" < 2 < 10 < "1a"

The theorem is about candidates on which it is a total preorder (`PreorderOn`).  What the
walk keeps (`Leads`) is that the value in hand is ahead of all before it and that none
behind it is ahead of it.  A candidate that is ahead of the value in hand is then ahead
of all the others, as none of these is (`PreorderOn.ahead_trans`).
-/
import GuardedExpr.Library.Standard
import Mathlib.Data.List.Basic

namespace GuardedExpr

namespace Value

/-- Among the candidates the loose order is a total preorder: any two can be compared, from both
sides alike, and what is not greater than something not greater is not greater. -/
structure PreorderOn (vs : List Value) : Prop where
  comparable : ∀ a ∈ vs, ∀ b ∈ vs, a.comparePure b ≠ none
  swap : ∀ a ∈ vs, ∀ b ∈ vs, b.comparePure a = (a.comparePure b).map Ordering.swap
  trans : ∀ a ∈ vs, ∀ b ∈ vs, ∀ c ∈ vs, a.comparePure b ≠ some .gt → b.comparePure c ≠ some .gt →
    a.comparePure c ≠ some .gt

/-- Two numbers are compared as numbers, and each with the string as a text. -/
example : ¬ PreorderOn [.str "1a", .int 2, .int 10] := fun h =>
  absurd (h.trans (.str "1a") (by simp) (.int 2) (by simp) (.int 10) (by simp) (by decide)
    (by decide)) (by decide)

namespace PreorderOn

variable {vs : List Value} {a b c : Value} {wanted : Ordering}

theorem mono {us : List Value} (h : PreorderOn vs) (hsub : us ⊆ vs) : PreorderOn us where
  comparable a ha b hb := h.comparable a (hsub ha) b (hsub hb)
  swap a ha b hb := h.swap a (hsub ha) b (hsub hb)
  trans a ha b hb c hc := h.trans a (hsub ha) b (hsub hb) c (hsub hc)

/-- Values compare as less from one side where they compare as greater from the other. -/
theorem lt_iff_gt (h : PreorderOn vs) (ha : a ∈ vs) (hb : b ∈ vs) :
    a.comparePure b = some .lt ↔ b.comparePure a = some .gt := by
  rw [h.swap a ha b hb]
  cases a.comparePure b with
  | none => simp
  | some o => cases o <;> simp [Ordering.swap]

theorem asymm (h : PreorderOn vs) (hwanted : wanted ≠ .eq) (ha : a ∈ vs) (hb : b ∈ vs)
    (hab : a.comparePure b = some wanted) : b.comparePure a ≠ some wanted := by
  rw [h.swap a ha b hb, hab]
  cases wanted with
  | eq => exact absurd rfl hwanted
  | lt | gt => simp [Ordering.swap]

/-- What is ahead of a value is ahead of all that is not. -/
theorem ahead_trans (h : PreorderOn vs) (hwanted : wanted ≠ .eq) (ha : a ∈ vs) (hb : b ∈ vs)
    (hc : c ∈ vs) (hab : a.comparePure b = some wanted) (hcb : c.comparePure b ≠ some wanted) :
    a.comparePure c = some wanted := by
  cases wanted with
  | eq => exact absurd rfl hwanted
  | gt =>
      by_contra hac
      exact h.trans a ha c hc b hb hac hcb hab
  | lt =>
      rw [h.lt_iff_gt ha hb] at hab
      rw [Ne, h.lt_iff_gt hc hb] at hcb
      rw [h.lt_iff_gt ha hc]
      by_contra hca
      exact h.trans b hb c hc a ha hcb hca hab

end PreorderOn

end Value

namespace Library

open Value

variable {vs seen rest : List Value} {v w best : Value} {wanted : Ordering}

/-! ## The walk -/

/-- The value is one of the candidates, ahead of all before it, and none behind it is ahead of
it. -/
def Leads (wanted : Ordering) (vs : List Value) (v : Value) : Prop :=
  ∃ before after, vs = before ++ v :: after ∧ (∀ u ∈ before, v.comparePure u = some wanted) ∧
    ∀ u ∈ after, u.comparePure v ≠ some wanted

theorem leads_singleton (wanted : Ordering) (v : Value) : Leads wanted [v] v :=
  ⟨[], [], rfl, by simp, by simp⟩

/-- **One more candidate.**  It takes the lead if it is ahead of the value in hand. -/
theorem Leads.concat (h : Leads wanted seen v) (hwanted : wanted ≠ .eq)
    (hpre : PreorderOn (seen ++ [w])) :
    Leads wanted (seen ++ [w]) (if w.comparePure v == some wanted then w else v) := by
  obtain ⟨before, after, rfl, hbefore, hafter⟩ := h
  have hmem : ∀ u, u ∈ before ∨ u = v ∨ u ∈ after ∨ u = w →
      u ∈ before ++ v :: after ++ [w] := by
    intro u hu
    simpa using hu
  split
  · next hahead =>
      have hwv := eq_of_beq hahead
      -- Those before the old value are behind it, those after it not ahead: all are behind the new.
      refine ⟨before ++ v :: after, [], rfl, fun u hu => ?_, by simp⟩
      have hw := hmem w (by simp)
      have hv := hmem v (by simp)
      rcases List.mem_append.mp hu with hu | hu
      · have hmemu := hmem u (.inl hu)
        exact hpre.ahead_trans hwanted hw hv hmemu hwv (hpre.asymm hwanted hv hmemu (hbefore u hu))
      · rcases List.mem_cons.mp hu with rfl | hu
        · exact hwv
        · exact hpre.ahead_trans hwanted hw hv (hmem u (by simp [hu])) hwv (hafter u hu)
  · next hbehind =>
      refine ⟨before, after ++ [w], by simp, hbefore, fun u hu => ?_⟩
      rcases List.mem_append.mp hu with hu | hu
      · exact hafter u hu
      · rw [List.mem_singleton.mp hu]
        exact fun heq => hbehind (beq_iff_eq.mpr heq)

/-- After any number of candidates the value in hand leads. -/
theorem leads_extreme (h : Leads wanted seen best) (hwanted : wanted ≠ .eq)
    (hpre : PreorderOn (seen ++ rest)) :
    Leads wanted (seen ++ rest) (extreme wanted best rest) := by
  induction rest generalizing seen best with
  | nil =>
      rw [List.append_nil]
      exact h
  | cons w rest ih =>
      rw [List.append_cons] at hpre ⊢
      exact ih (h.concat hwanted (hpre.mono (List.subset_append_left _ _))) hpre

/-! ## The extremes -/

/-- The value is the earliest of the candidates with the property. -/
def Earliest (P : Value → Prop) (vs : List Value) (v : Value) : Prop :=
  ∃ before after, vs = before ++ v :: after ∧ P v ∧ ∀ u ∈ before, ¬ P u

theorem Leads.earliest (h : Leads wanted vs v) (hwanted : wanted ≠ .eq) (hpre : PreorderOn vs) :
    Earliest (fun v => ∀ w ∈ vs, w.comparePure v ≠ some wanted) vs v := by
  obtain ⟨before, after, rfl, hbefore, hafter⟩ := h
  have hv : v ∈ before ++ v :: after := by simp
  refine ⟨before, after, rfl, fun w hw => ?_, fun u hu hall => hall v hv (hbefore u hu)⟩
  rcases List.mem_append.mp hw with hmem | hmem
  · exact hpre.asymm hwanted hv hw (hbefore w hmem)
  · rcases List.mem_cons.mp hmem with rfl | hmem
    · exact fun heq => hpre.asymm hwanted hv hv heq heq
    · exact hafter w hmem

/-- None is less than the least exactly if the least is greater than none. -/
theorem Earliest.of_lt (hpre : PreorderOn vs)
    (h : Earliest (fun v => ∀ w ∈ vs, w.comparePure v ≠ some .lt) vs v) :
    Earliest (fun v => ∀ w ∈ vs, v.comparePure w ≠ some .gt) vs v := by
  obtain ⟨before, after, heq, hv, hbefore⟩ := h
  have hmem : ∀ u, u ∈ before ∨ u = v → u ∈ vs := by
    intro u hu
    rw [heq, List.mem_append, List.mem_cons]
    exact hu.imp_right .inl
  refine ⟨before, after, heq, fun w hw hgt => ?_, fun u hu hall => ?_⟩
  · exact hv w hw ((hpre.lt_iff_gt hw (hmem v (.inr rfl))).mpr hgt)
  · refine hbefore u hu fun w hw hlt => ?_
    exact hall w hw ((hpre.lt_iff_gt hw (hmem u (.inl hu))).mp hlt)

/-! ## Calls -/

/-- The function answers the value for the candidates, passed one by one or in one table. -/
def Picks (key : String) (vs : List Value) (v : Value) : Prop :=
  ∀ name, canonicalName name = key →
    standard.invoke name vs = .ok v ∧
    ∀ t : Table, t.values = vs → standard.invoke name [.table t] = .ok v

theorem extremeOf_values (key : String) (first second : Value) (rest : List Value) :
    (openEntry key 1 (extremeOf wanted)).2 (first :: second :: rest)
      = .ok (extreme wanted first (second :: rest)) := rfl

theorem extremeOf_table (key : String) {t : Table} {first : Value} {rest : List Value}
    (h : t.values = first :: rest) :
    (openEntry key 1 (extremeOf wanted)).2 [.table t] = .ok (extreme wanted first rest) := by
  cases t with
  | nil => cases h
  | cons e es =>
      cases h
      rfl

theorem extremeOf_of_not_table (key : String) (h : v.asTable? = none) :
    (openEntry key 1 (extremeOf wanted)).2 [v] = .error (.argumentType key 1 "array" v.kind) := by
  cases v with
  | table => cases h
  | _ => rfl

theorem exists_picks (key : String) (hwanted : wanted ≠ .eq)
    (hkey : standard.entries.lookup key = some (openEntry key 1 (extremeOf wanted)).2)
    (hlength : 2 ≤ vs.length) (hpre : PreorderOn vs) :
    ∃ v, Picks key vs v ∧ Earliest (fun v => ∀ w ∈ vs, w.comparePure v ≠ some wanted) vs v := by
  obtain ⟨first, second, rest, rfl⟩ : ∃ first second rest, vs = first :: second :: rest := by
    match vs, hlength with
    | first :: second :: rest, _ => exact ⟨first, second, rest, rfl⟩
  have hleads := leads_extreme (leads_singleton wanted first) hwanted hpre
  refine ⟨_, fun name hname => ⟨?_, fun t ht => ?_⟩, hleads.earliest hwanted hpre⟩
  · rw [FunctionTable.invoke_of_lookup hname hkey, extremeOf_values]
  · rw [FunctionTable.invoke_of_lookup hname hkey, extremeOf_table key ht]

/-- **The first extreme is picked.**  Among at least two candidates on which the loose order is a
total preorder, `max` picks the earliest that no candidate exceeds and `min` the earliest that
exceeds none, whether the candidates are passed one by one or as the values of one table.  A single
argument that is no table and a table without values are errors. -/
theorem first_extreme_is_picked :
    (∀ vs : List Value, 2 ≤ vs.length → PreorderOn vs →
      (∃ v, Picks "max" vs v ∧ Earliest (fun v => ∀ w ∈ vs, w.comparePure v ≠ some .gt) vs v) ∧
      ∃ v, Picks "min" vs v ∧ Earliest (fun v => ∀ w ∈ vs, v.comparePure w ≠ some .gt) vs v) ∧
    ∀ name, canonicalName name = "max" ∨ canonicalName name = "min" →
      (∀ v : Value, v.asTable? = none → standard.invoke name [v]
        = .error (.argumentType (canonicalName name) 1 "array" v.kind)) ∧
      standard.invoke name [.table []] = .error (.failed (canonicalName name
        ++ "(): argument #1 ($value) must contain at least one element")) := by
  refine ⟨fun vs hlength hpre => ⟨?_, ?_⟩, fun name hname => ?_⟩
  · exact exists_picks "max" (by decide) rfl hlength hpre
  · have hless : Ordering.lt ≠ .eq := by decide
    obtain ⟨v, hpicks, hearliest⟩ := exists_picks "min" hless rfl hlength hpre
    exact ⟨v, hpicks, hearliest.of_lt hpre⟩
  · rcases hname with hname | hname
    all_goals
      rw [hname]
      refine ⟨fun v hv => ?_, (FunctionTable.invoke_of_lookup hname rfl _).trans rfl⟩
      exact (FunctionTable.invoke_of_lookup hname rfl _).trans (extremeOf_of_not_table _ hv)

/-- The string and the last number are equal, and the string comes first. -/
theorem first_of_equal_values_is_picked :
    PreorderOn [.int 3, .str "9", .null, .int 9] ∧
      standard.invoke "max" [.int 3, .str "9", .null, .int 9] = .ok (.str "9") ∧
      standard.invoke "Min" [.list [.int 3, .str "9", .null, .int 9]] = .ok .null := by
  have hpre : PreorderOn [.int 3, .str "9", .null, .int 9] :=
    ⟨by decide, by decide, by decide⟩
  obtain ⟨⟨v, hmax, -⟩, w, hmin, -⟩ := first_extreme_is_picked.1 _ (by decide) hpre
  have hv := (hmax "max" (by decide)).1
  have hw := (hmin "Min" (by decide)).2 (.ofValues [.int 3, .str "9", .null, .int 9]) rfl
  obtain rfl : v = .str "9" := Except.ok.inj (hv.symm.trans rfl)
  obtain rfl : w = .null := Except.ok.inj (hw.symm.trans rfl)
  exact ⟨hpre, hv, hw⟩

end Library

end GuardedExpr
