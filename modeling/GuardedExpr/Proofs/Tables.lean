/-
# Tables — distinct keys, and what is found under them

A table is a list of entries, and nothing in its type keeps two of them from having one
key.  Writing does: `Table.insert` replaces the value where the key is present, so a
table that is written entry by entry has distinct keys, at every level
(`Value.KeysDistinct`).  In such a table each entry is what is found under its key, and
a table of the same size that has all its keys has no others.
-/
import GuardedExpr.Value.Table
import Mathlib.Data.List.Perm.Subperm

namespace GuardedExpr

/-! ## Distinct keys -/

/-- The keys of every table in the value are distinct. -/
inductive Value.KeysDistinct : Value → Prop
  | plain {v : Value} : (∀ es, v ≠ .table es) → KeysDistinct v
  | table {es : Table} : es.keys.Nodup → (∀ e ∈ es, KeysDistinct e.2) → KeysDistinct (.table es)

namespace Table

variable {es fs t : Table} {k j : Key} {v w : Value} {i : Nat}

theorem keys_cons : keys ((k, v) :: es) = k :: keys es := rfl

/-! ## Finding -/

theorem mem_of_find? (h : es.find? k = some v) : (k, v) ∈ es := by
  induction es with
  | nil => cases h
  | cons e es ih =>
      obtain ⟨j, w⟩ := e
      rw [find?] at h
      split at h
      · next hj =>
          cases h
          rw [hj]
          exact List.mem_cons_self
      · exact List.mem_cons_of_mem _ (ih h)

theorem exists_find? (h : k ∈ es.keys) : ∃ v, es.find? k = some v := by
  induction es with
  | nil => cases h
  | cons e es ih =>
      obtain ⟨j, w⟩ := e
      rw [find?]
      split
      · exact ⟨w, rfl⟩
      · next hj => exact ih ((List.mem_cons.mp h).resolve_left fun hk => hj hk.symm)

theorem find?_eq_none_iff : t.find? k = none ↔ k ∉ t.keys := by
  constructor
  · intro h hk
    obtain ⟨v, hv⟩ := exists_find? hk
    rw [h] at hv
    cases hv
  · intro hk
    cases h : t.find? k with
    | none => rfl
    | some v => exact absurd (List.mem_map_of_mem (mem_of_find? h)) hk

/-- Where the keys are distinct, each entry is found. -/
theorem find?_of_mem (hnodup : es.keys.Nodup) (h : (k, v) ∈ es) : es.find? k = some v := by
  induction es with
  | nil => cases h
  | cons e es ih =>
      obtain ⟨j, w⟩ := e
      rw [keys_cons, List.nodup_cons] at hnodup
      rw [find?]
      rcases List.mem_cons.mp h with heq | hmem
      · cases heq
        exact if_pos rfl
      · have hne : j ≠ k := by
          rintro rfl
          exact hnodup.1 (List.mem_map_of_mem hmem)
        rw [if_neg hne]
        exact ih hnodup.2 hmem

/-- Distinct keys that are all present in a table of the same size leave none over. -/
theorem mem_keys_of_length_eq (hnodup : es.keys.Nodup) (hlength : es.length = fs.length)
    (hkeys : ∀ k ∈ es.keys, k ∈ fs.keys) (hk : k ∈ fs.keys) : k ∈ es.keys := by
  have hsubperm : es.keys.Subperm fs.keys := hnodup.subperm hkeys
  have hperm : es.keys.Perm fs.keys := by
    refine hsubperm.perm_of_length_le (Nat.le_of_eq ?_)
    rw [keys, keys, List.length_map, List.length_map, hlength]
  exact hperm.mem_iff.mpr hk

/-- The keys of a list are told by its length. -/
theorem keys_ofValues (vs : List Value) :
    (Table.ofValues vs).keys = (List.range vs.length).map fun i => .int (Int64.ofNat i) := by
  rw [Table.keys, Table.ofValues, List.map_map, List.range_eq_range', ← List.zipIdx_map_snd 0 vs,
    List.map_map]
  rfl

theorem values_ofValues (vs : List Value) : (Table.ofValues vs).values = vs := by
  rw [Table.values, Table.ofValues, List.map_map]
  exact List.zipIdx_map_fst 0 vs

/-! ## Writing -/

/-- Only a key that is not present is added, at the end. -/
theorem keys_insert (t : Table) (k : Key) (v : Value) :
    (t.insert k v).keys = if k ∈ t.keys then t.keys else t.keys ++ [k] := by
  induction t with
  | nil => rfl
  | cons e t ih =>
      obtain ⟨j, w⟩ := e
      rw [insert]
      split
      · next hj =>
          subst hj
          rw [keys_cons, keys_cons, if_pos List.mem_cons_self]
      · next hj =>
          have hmem : k ∈ j :: keys t ↔ k ∈ keys t := by simp [Ne.symm hj]
          rw [keys_cons, keys_cons, ih, if_congr hmem rfl rfl]
          split <;> rfl

theorem nodup_keys_insert (h : t.keys.Nodup) (k : Key) (v : Value) : (t.insert k v).keys.Nodup := by
  rw [keys_insert]
  split
  · exact h
  · next hk =>
      refine List.nodup_append.mpr ⟨h, List.pairwise_singleton _ k, ?_⟩
      rintro j hj i hi rfl
      exact hk (List.mem_singleton.mp hi ▸ hj)

/-- What is written under a key is found under it, and nothing changes under the others. -/
theorem find?_insert (t : Table) (j k : Key) (v : Value) :
    (t.insert k v).find? j = if j = k then some v else t.find? j := by
  induction t with
  | nil => simp [insert, find?, eq_comm]
  | cons e t ih =>
      obtain ⟨i, w⟩ := e
      by_cases hi : i = k
      · subst hi
        by_cases hj : i = j
        · simp [insert, find?, hj]
        · simp [insert, find?, hj, Ne.symm hj]
      · rw [insert, if_neg hi, find?, ih, find?]
        by_cases hj : i = j
        · subst hj
          simp [hi]
        · rw [if_neg hj, if_neg hj]

/-- Where the keys are distinct, a key that is present is overwritten in its place. -/
theorem insert_eq_set (hnodup : t.keys.Nodup) (h : t[i]? = some (k, w)) :
    t.insert k v = t.set i (k, v) := by
  induction t generalizing i with
  | nil => cases h
  | cons e t ih =>
      obtain ⟨j, u⟩ := e
      rw [keys_cons, List.nodup_cons] at hnodup
      cases i with
      | zero =>
          cases h
          rw [insert, if_pos rfl]
          rfl
      | succ i =>
          rw [List.getElem?_cons_succ] at h
          have hne : j ≠ k := by
            rintro rfl
            exact hnodup.1 (List.mem_map_of_mem (f := Prod.fst) (List.mem_of_getElem? h))
          rw [insert, if_neg hne, ih hnodup.2 h]
          rfl

/-- A key that is not present is added at the end. -/
theorem insert_eq_append (h : k ∉ t.keys) : t.insert k v = t ++ [(k, v)] := by
  induction t with
  | nil => rfl
  | cons e t ih =>
      obtain ⟨j, u⟩ := e
      rw [keys_cons, List.mem_cons, not_or] at h
      rw [insert, if_neg (Ne.symm h.1), ih h.2]
      rfl

/-- What is written is the new entry, or was there. -/
theorem mem_insert {e : Key × Value} (h : e ∈ t.insert k v) : e = (k, v) ∨ e ∈ t := by
  induction t with
  | nil => exact .inl (List.mem_singleton.mp h)
  | cons f t ih =>
      obtain ⟨j, w⟩ := f
      rw [insert] at h
      split at h
      · next hj =>
          subst hj
          exact (List.mem_cons.mp h).imp_right (List.mem_cons_of_mem _)
      · rcases List.mem_cons.mp h with rfl | hmem
        · exact .inr List.mem_cons_self
        · exact (ih hmem).imp_right (List.mem_cons_of_mem _)

end Table

namespace Value

variable {t : Table} {v : Value}

theorem KeysDistinct.keys_nodup (h : KeysDistinct (.table t)) : t.keys.Nodup := by
  cases h with
  | plain hplain => exact absurd rfl (hplain t)
  | table hnodup => exact hnodup

theorem KeysDistinct.of_mem {e : Key × Value} (h : KeysDistinct (.table t)) (he : e ∈ t) :
    e.2.KeysDistinct := by
  cases h with
  | plain hplain => exact absurd rfl (hplain t)
  | table _ hentries => exact hentries e he

/-- **Writing keeps keys distinct.** -/
theorem KeysDistinct.insert (h : KeysDistinct (.table t)) (hv : v.KeysDistinct) (k : Key) :
    KeysDistinct (.table (t.insert k v)) := by
  refine .table (Table.nodup_keys_insert h.keys_nodup k v) fun e he => ?_
  rcases Table.mem_insert he with rfl | hmem
  · exact hv
  · exact h.of_mem hmem

/-- A table that is written entry by entry has distinct keys. -/
theorem KeysDistinct.ofEntries {es : List (Key × Value)} (h : ∀ e ∈ es, e.2.KeysDistinct) :
    KeysDistinct (.table (Table.ofEntries es)) := by
  suffices hwritten : ∀ t : Table, KeysDistinct (.table t) →
      KeysDistinct (.table (es.foldl (fun t e => Table.insert e.1 e.2 t) t)) from
    hwritten [] (.table List.nodup_nil nofun)
  induction es with
  | nil => exact fun t ht => ht
  | cons e es ih =>
      intro t ht
      rw [List.forall_mem_cons] at h
      exact ih h.2 _ (ht.insert h.1 e.1)

end Value

end GuardedExpr
