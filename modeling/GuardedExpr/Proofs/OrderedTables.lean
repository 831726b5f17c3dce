/-
# Ordered tables — what writes leave behind

An indexed table keeps two things in step: the entries, in the order in which their
keys were first written, and an index with the place of each key.

    index[k]? = some i   iff   entries[i]? = some (k, v) for some v      (`Consistent`)

A write under a key that the index knows replaces a value and moves nothing, so the
index stays as it is; a write under a new key adds one entry at the end and its place
to the index.  From this alone the keys are distinct, what is found through the index
is what a search of the entries finds (`Consistent.get?_eq`), and the entries are those
of a table that has no index (`Consistent.toTable_insert`).

What a table then holds is told from the history of writes, without reference to either
part (`Holds`): the keys are those written, in the order of their first writes, each
with the value of its last.  A value that is pushed is written under the number of
different keys so far, which may be a key that is there.

The index depends on the keys alone.  So a table is the same again, index included, when
it is rebuilt from its entries.
-/
import GuardedExpr.Eval.Evaluate
import GuardedExpr.Proofs.Tables
import GuardedExpr.Value.IndexedTable
import Mathlib.Algebra.Group.Nat.Defs
import Mathlib.Data.Finset.Card
import Mathlib.Data.List.Nodup

namespace GuardedExpr

namespace IndexedTable

variable {t : IndexedTable} {j k : Key} {v w : Value} {i : Nat}

/-! ## The index and the entries -/

/-- The index gives each key the place of its entry, and nothing else. -/
def Consistent (t : IndexedTable) : Prop :=
  ∀ (k : Key) (i : Nat), t.index[k]? = some i ↔ ∃ v, t.entries[i]? = some (k, v)

theorem consistent_empty : empty.Consistent := by
  intro k i
  simp [empty]

theorem insert_of_some (h : t.index[k]? = some i) :
    t.insert k v = ⟨t.entries.modify i fun e => (e.1, v), t.index⟩ := by
  rw [insert, h]

theorem insert_of_none (h : t.index[k]? = none) :
    t.insert k v = ⟨t.entries.push (k, v), t.index.insert k t.size⟩ := by
  rw [insert, h]

theorem toTable_insert_of_none (hk : t.index[k]? = none) :
    (t.insert k v).toTable = t.toTable ++ [(k, v)] := by
  rw [insert_of_none hk, toTable, Array.toList_push]
  rfl

/-- **Writing keeps the index consistent.** -/
theorem Consistent.insert (h : t.Consistent) (k : Key) (v : Value) : (t.insert k v).Consistent := by
  intro j i
  cases hk : t.index[k]? with
  | some place =>
      rw [insert_of_some hk, h j i]
      dsimp only
      rw [Array.getElem?_modify]
      split
      · next heq =>
          subst heq
          cases t.entries[place]? with
          | none => simp
          | some e => simp [Prod.ext_iff]
      · rfl
  | none =>
      have hfresh : ∀ (w : Value) (i : Nat), t.entries[i]? ≠ some (k, w) := by
        intro w i hw
        have := (h k i).mpr ⟨w, hw⟩
        rw [hk] at this
        cases this
      rw [insert_of_none hk]
      dsimp only
      rw [Std.HashMap.getElem?_insert, Array.getElem?_push]
      by_cases hj : k = j
      · subst hj
        rw [if_pos (beq_self_eq_true k), Option.some_inj, size]
        constructor
        · rintro rfl
          exact ⟨v, if_pos rfl⟩
        · rintro ⟨w, hw⟩
          split at hw
          · next hi => exact hi.symm
          · exact absurd hw (hfresh w i)
      · rw [if_neg (by simpa using hj), h j i]
        refine exists_congr fun w => ?_
        split
        · next hi =>
            subst hi
            simp [hj]
        · rfl

namespace Consistent

theorem mem_keys_iff (h : t.Consistent) : k ∈ t.keys ↔ ∃ i, t.index[k]? = some i := by
  constructor
  · intro hk
    obtain ⟨⟨_, v⟩, he, rfl⟩ := List.mem_map.mp hk
    obtain ⟨i, hi⟩ := List.mem_iff_getElem?.mp he
    exact ⟨i, (h _ i).mpr ⟨v, by rw [← Array.getElem?_toList]; exact hi⟩⟩
  · rintro ⟨i, hi⟩
    obtain ⟨v, hv⟩ := (h k i).mp hi
    rw [← Array.getElem?_toList] at hv
    exact List.mem_map_of_mem (f := Prod.fst) (List.mem_of_getElem? hv)

theorem notMem_keys (h : t.Consistent) (hk : t.index[k]? = none) : k ∉ t.keys := by
  rw [h.mem_keys_iff, hk]
  rintro ⟨i, ⟨⟩⟩

theorem nodup_keys (h : t.Consistent) : t.keys.Nodup := by
  rw [keys, Table.keys, List.nodup_iff_getElem?_ne_getElem?]
  intro i j hij hj heq
  rw [List.getElem?_map, List.getElem?_map] at heq
  obtain ⟨⟨k, w⟩, hw⟩ : ∃ e, t.toTable[j]? = some e :=
    ⟨_, List.getElem?_eq_getElem (by simpa using hj)⟩
  rw [hw] at heq
  obtain ⟨⟨_, v⟩, hv, rfl⟩ := Option.map_eq_some_iff.mp heq
  rw [toTable, Array.getElem?_toList] at hv hw
  have hi := (h _ i).mpr ⟨v, hv⟩
  have hj := (h _ j).mpr ⟨w, hw⟩
  rw [hi] at hj
  cases hj
  omega

/-- What is found through the index is what is found by a search. -/
theorem get?_eq (h : t.Consistent) (k : Key) : t.get? k = t.toTable.find? k := by
  cases hk : t.index[k]? with
  | none =>
      rw [Table.find?_eq_none_iff.mpr (h.notMem_keys hk)]
      simp [get?, hk]
  | some i =>
      obtain ⟨v, hv⟩ := (h k i).mp hk
      have hmem : (k, v) ∈ t.toTable := by
        rw [← Array.getElem?_toList] at hv
        exact List.mem_of_getElem? hv
      rw [Table.find?_of_mem h.nodup_keys hmem]
      simp [get?, hk, hv]

theorem hasKey_iff (h : t.Consistent) : t.hasKey k = true ↔ k ∈ t.keys := by
  rw [hasKey, Std.HashMap.contains_eq_isSome_getElem?, Option.isSome_iff_exists, h.mem_keys_iff]

theorem toTable_insert_of_some (h : t.Consistent) (hk : t.index[k]? = some i) :
    (t.insert k v).toTable = t.toTable.set i (k, v) := by
  obtain ⟨w, hw⟩ := (h k i).mp hk
  rw [← Array.getElem?_toList] at hw
  rw [insert_of_some hk, toTable, Array.toList_modify]
  refine List.ext_getElem? fun j => ?_
  rw [List.getElem?_modify, List.getElem?_set]
  split
  · next heq =>
      subst heq
      obtain ⟨hlt, -⟩ := List.getElem?_eq_some_iff.mp hw
      rw [hw, toTable, if_pos hlt]
      rfl
  · exact Option.map_id_apply

/-- The entries change as those of a table without an index do. -/
theorem toTable_insert (h : t.Consistent) (k : Key) (v : Value) :
    (t.insert k v).toTable = t.toTable.insert k v := by
  cases hk : t.index[k]? with
  | none => rw [toTable_insert_of_none hk, Table.insert_eq_append (h.notMem_keys hk)]
  | some i =>
      obtain ⟨w, hw⟩ := (h k i).mp hk
      rw [← Array.getElem?_toList] at hw
      rw [h.toTable_insert_of_some hk, Table.insert_eq_set h.nodup_keys hw]

end Consistent

/-! ## Building from entries and from values -/

theorem ofEntries_concat (es : List (Key × Value)) (e : Key × Value) :
    ofEntries (es ++ [e]) = (ofEntries es).insert e.1 e.2 := by
  rw [ofEntries, List.foldl_append]
  rfl

theorem consistent_ofEntries (es : List (Key × Value)) : (ofEntries es).Consistent := by
  induction es using List.reverseRecOn with
  | nil => exact consistent_empty
  | append_singleton es e ih =>
      rw [ofEntries_concat]
      exact ih.insert e.1 e.2

/-- Entries with distinct keys are the table that is built from them. -/
theorem toTable_ofEntries {es : Table} (h : es.keys.Nodup) : (ofEntries es).toTable = es := by
  induction es using List.reverseRecOn with
  | nil => rfl
  | append_singleton es e ih =>
      rw [Table.keys, List.map_append, List.nodup_append] at h
      have hfresh : e.1 ∉ Table.keys es := fun he => h.2.2 _ he _ List.mem_cons_self rfl
      rw [ofEntries_concat, (consistent_ofEntries es).toTable_insert, ih h.1,
        Table.insert_eq_append hfresh]

/-- The index depends on the keys that are written, not on the values. -/
theorem index_ofEntries_congr {es fs : Table} (h : es.keys = fs.keys) :
    (ofEntries es).index = (ofEntries fs).index := by
  have hstep {t u : IndexedTable} (k : Key) (v w : Value) (hindex : t.index = u.index)
      (hsize : t.size = u.size) :
      (t.insert k v).index = (u.insert k w).index ∧ (t.insert k v).size = (u.insert k w).size := by
    cases hk : t.index[k]? with
    | some i =>
        rw [insert_of_some hk, insert_of_some (hindex ▸ hk)]
        simpa [size, hindex] using hsize
    | none =>
        rw [insert_of_none hk, insert_of_none (hindex ▸ hk), hindex, hsize]
        simpa [size] using hsize
  suffices hfold : ∀ t u : IndexedTable, t.index = u.index → t.size = u.size →
      (es.foldl (fun t e => t.insert e.1 e.2) t).index =
        (fs.foldl (fun t e => t.insert e.1 e.2) u).index from hfold _ _ rfl rfl
  induction es generalizing fs with
  | nil =>
      obtain rfl : fs = [] := List.map_eq_nil_iff.mp h.symm
      exact fun t u hindex _ => hindex
  | cons e es ih =>
      obtain ⟨k, v⟩ := e
      obtain ⟨⟨j, w⟩, fs, rfl, hj, hkeys⟩ := List.map_eq_cons_iff.mp h.symm
      obtain rfl : j = k := hj
      intro t u hindex hsize
      obtain ⟨hindex, hsize⟩ := hstep j v w hindex hsize
      exact ih hkeys.symm _ _ hindex hsize

/-- The table is what is built from its entries. -/
def Rebuilt (t : IndexedTable) : Prop := ofEntries t.toTable = t

theorem Rebuilt.consistent (h : t.Rebuilt) : t.Consistent := by
  rw [← h]
  exact consistent_ofEntries _

theorem Rebuilt.insert (h : t.Rebuilt) (k : Key) (v : Value) : (t.insert k v).Rebuilt := by
  have ht := h.consistent
  cases hk : t.index[k]? with
  | none => rw [Rebuilt, toTable_insert_of_none hk, ofEntries_concat, h]
  | some i =>
      have hnodup : (t.insert k v).toTable.keys.Nodup := (ht.insert k v).nodup_keys
      have hmem : k ∈ t.toTable.keys := ht.mem_keys_iff.mpr ⟨i, hk⟩
      have hkeys : (t.insert k v).toTable.keys = t.toTable.keys := by
        rw [ht.toTable_insert, Table.keys_insert, if_pos hmem]
      have hindex : (ofEntries (t.insert k v).toTable).index = (t.insert k v).index := by
        rw [index_ofEntries_congr hkeys, h, insert_of_some hk]
      have hentries := toTable_ofEntries hnodup
      rw [toTable, toTable, Array.toList_inj] at hentries
      exact congrArg₂ IndexedTable.mk hentries hindex

theorem ofValues_concat (vs : List Value) (v : Value) :
    ofValues (vs ++ [v]) = (ofValues vs).push v := by
  rw [ofValues, List.foldl_append]
  rfl

/-- Values that are pushed stand under the keys from zero on, as long as these are integers. -/
theorem toTable_ofValues {vs : List Value} (h : vs.length ≤ 2 ^ 63) :
    (ofValues vs).Consistent ∧ (ofValues vs).toTable = Table.ofValues vs := by
  induction vs using List.reverseRecOn with
  | nil => exact ⟨consistent_empty, rfl⟩
  | append_singleton vs v ih =>
      rw [List.length_append, List.length_singleton] at h
      obtain ⟨hvs, htable⟩ := ih (by omega)
      refine ⟨?_, ?_⟩
      · rw [ofValues_concat]
        exact hvs.insert _ v
      · have hlength : (ofValues vs).size = vs.length := by
          rw [size, ← Array.length_toList, ← toTable, htable, Table.ofValues]
          simp
        have hfresh : .int (Int64.ofNat vs.length) ∉ (Table.ofValues vs).keys := by
          rw [Table.keys_ofValues, List.mem_map]
          rintro ⟨i, hi, heq⟩
          rw [List.mem_range] at hi
          have hsame := congrArg Int64.toInt (Key.int.inj heq)
          rw [Int64.toInt_ofNat_of_lt (by omega), Int64.toInt_ofNat_of_lt (by omega)] at hsame
          omega
        rw [ofValues_concat, push, hvs.toTable_insert, htable, hlength,
          Table.insert_eq_append hfresh]
        simp [Table.ofValues, List.zipIdx_append]

end IndexedTable

/-! ## Sequences of writes -/

/-- One write: under a key, or behind what is there. -/
inductive Write where
  | insert (k : Key) (v : Value)
  | push (v : Value)

namespace Write

/-- The key that is written under, and the value, where `past` has been written before.  A value
that is pushed is written under the number of keys that have been written. -/
def entry (past : List (Key × Value)) : Write → Key × Value
  | insert k v => (k, v)
  | push v => (.int (Int64.ofNat (past.map Prod.fst).toFinset.card), v)

/-- All that is written, one behind the other. -/
def history (ws : List Write) : List (Key × Value) :=
  ws.foldl (fun past w => past ++ [w.entry past]) []

theorem history_concat (ws : List Write) (w : Write) :
    history (ws ++ [w]) = history ws ++ [w.entry (history ws)] := List.foldl_append

end Write

/-- The value is what was written last under the key. -/
def LastWritten (past : List (Key × Value)) (k : Key) (v : Value) : Prop :=
  ∃ before after, past = before ++ (k, v) :: after ∧ k ∉ after.map Prod.fst

theorem lastWritten_concat {past : List (Key × Value)} {j k : Key} {v w : Value} :
    LastWritten (past ++ [(j, w)]) k v ↔ if k = j then v = w else LastWritten past k v := by
  constructor
  · rintro ⟨before, after, heq, hafter⟩
    cases after using List.reverseRecOn with
    | nil =>
        obtain ⟨-, hlast⟩ := List.append_inj' heq rfl
        cases hlast
        rw [if_pos rfl]
    | append_singleton after e _ =>
        rw [← List.cons_append, ← List.append_assoc] at heq
        obtain ⟨rfl, hlast⟩ := List.append_inj' heq rfl
        cases hlast
        rw [List.map_append, List.mem_append, not_or] at hafter
        rw [if_neg fun hk => hafter.2 (List.mem_singleton.mpr hk)]
        exact ⟨before, after, rfl, hafter.1⟩
  · intro h
    split at h
    · next hk =>
        subst hk h
        exact ⟨past, [], rfl, nofun⟩
    · next hk =>
        obtain ⟨before, after, rfl, hafter⟩ := h
        exact ⟨before, after ++ [(j, w)], by simp, by simp [hafter, hk]⟩

namespace IndexedTable

def write (t : IndexedTable) : Write → IndexedTable
  | .insert k v => t.insert k v
  | .push v => t.push v

/-- Carry out writes one after the other on an empty table. -/
def ofWrites (ws : List Write) : IndexedTable := ws.foldl write empty

theorem ofWrites_concat (ws : List Write) (w : Write) :
    ofWrites (ws ++ [w]) = (ofWrites ws).write w := List.foldl_append

/-- The table holds what has been written: an entry for each key, in the order of the first writes,
and in it the value of the last. -/
structure Holds (t : IndexedTable) (past : List (Key × Value)) : Prop where
  keys (k : Key) : k ∈ t.keys ↔ k ∈ past.map Prod.fst
  order : t.keys.Pairwise fun j k => (past.map Prod.fst).idxOf j < (past.map Prod.fst).idxOf k
  values (k : Key) (v : Value) : t.get? k = some v ↔ LastWritten past k v

variable {t : IndexedTable} {past : List (Key × Value)} {k : Key} {v : Value}

theorem holds_empty : empty.Holds [] where
  keys k := by simp [IndexedTable.keys, empty, toTable, Table.keys]
  order := List.Pairwise.nil
  values k v := by simp [get?, empty, LastWritten]

/-- There are as many entries as different keys have been written. -/
theorem Holds.size_eq (h : t.Holds past) (ht : t.Consistent) :
    t.size = (past.map Prod.fst).toFinset.card := by
  have hkeys : t.keys.toFinset = (past.map Prod.fst).toFinset := by
    ext k
    rw [List.mem_toFinset, List.mem_toFinset, h.keys k]
  rw [← hkeys, List.toFinset_card_of_nodup ht.nodup_keys]
  simp [IndexedTable.keys, Table.keys, toTable, size]

/-- **A table that holds what has been written holds it after the next write.** -/
theorem Holds.insert (h : t.Holds past) (ht : t.Consistent) (k : Key) (v : Value) :
    (t.insert k v).Holds (past ++ [(k, v)]) := by
  have htable := ht.toTable_insert k v
  have hkeys : (t.insert k v).keys = if k ∈ t.keys then t.keys else t.keys ++ [k] := by
    rw [IndexedTable.keys, htable]
    exact Table.keys_insert t.toTable k v
  have hpast : (past ++ [(k, v)]).map Prod.fst = past.map Prod.fst ++ [k] := by simp
  have hold : ∀ j ∈ t.keys, (past.map Prod.fst ++ [k]).idxOf j = (past.map Prod.fst).idxOf j :=
    fun j hj => List.idxOf_append_of_mem ((h.keys j).mp hj)
  have horder : t.keys.Pairwise fun i j =>
      (past.map Prod.fst ++ [k]).idxOf i < (past.map Prod.fst ++ [k]).idxOf j := by
    refine h.order.imp_of_mem fun {i j} hi hj hlt => ?_
    rwa [hold i hi, hold j hj]
  constructor
  · intro j
    rw [hkeys, hpast, List.mem_append, List.mem_singleton, ← h.keys]
    split
    · next hk => exact ⟨.inl, fun hj => hj.elim id fun heq => heq ▸ hk⟩
    · exact List.mem_append.trans (or_congr_right List.mem_singleton)
  · rw [hkeys, hpast]
    split
    · exact horder
    · next hk =>
        refine List.pairwise_append.mpr ⟨horder, List.pairwise_singleton _ k, ?_⟩
        rintro j hj _ (_ | ⟨_, ⟨⟩⟩)
        have hfresh : k ∉ past.map Prod.fst := fun hmem => hk ((h.keys k).mpr hmem)
        rw [hold j hj, List.idxOf_append_of_notMem hfresh]
        have := List.idxOf_lt_length_of_mem ((h.keys j).mp hj)
        omega
  · intro j w
    rw [(ht.insert k v).get?_eq, htable, Table.find?_insert, lastWritten_concat]
    split
    · rw [Option.some_inj, eq_comm]
    · rw [← ht.get?_eq, h.values]

theorem Holds.write (h : t.Holds past) (ht : t.Rebuilt) (w : Write) :
    (t.write w).Holds (past ++ [w.entry past]) ∧ (t.write w).Rebuilt := by
  cases w with
  | insert k v => exact ⟨h.insert ht.consistent k v, ht.insert k v⟩
  | push v =>
      show (t.insert _ v).Holds (past ++ [(_, v)]) ∧ (t.insert _ v).Rebuilt
      rw [← h.size_eq ht.consistent]
      exact ⟨h.insert ht.consistent _ v, ht.insert _ v⟩

/-- After any sequence of writes the table holds what they wrote. -/
theorem holds_ofWrites (ws : List Write) :
    (ofWrites ws).Holds (Write.history ws) ∧ (ofWrites ws).Rebuilt := by
  induction ws using List.reverseRecOn with
  | nil => exact ⟨holds_empty, rfl⟩
  | append_singleton ws w ih =>
      rw [ofWrites_concat, Write.history_concat]
      exact ih.1.write ih.2 w

end IndexedTable

/-! ## Literals -/

def Table.write (t : Table) : Write → Table
  | .insert k v => t.insert k v
  | .push v => t.push v

theorem IndexedTable.toTable_write {t : IndexedTable} (ht : t.Consistent) (w : Write) :
    (t.write w).toTable = t.toTable.write w := by
  cases w with
  | insert k v => exact ht.toTable_insert k v
  | push v =>
      show (t.insert _ v).toTable = t.toTable.insert _ v
      rw [ht.toTable_insert, Table.nextKey, toTable, Array.length_toList]
      rfl

theorem IndexedTable.toTable_ofWrites (ws : List Write) :
    (ofWrites ws).toTable = ws.foldl Table.write [] := by
  induction ws using List.reverseRecOn with
  | nil => rfl
  | append_singleton ws w ih =>
      rw [ofWrites_concat, toTable_write (holds_ofWrites ws).2.consistent, ih, List.foldl_append]
      rfl

namespace Eval

variable (eval : Expr → EvalM Value)

/-- The writes that the elements of a literal make, in order. -/
def writes : List Element → EvalM (List Write)
  | [] => pure []
  | .item value :: rest => do
    let v ← eval value
    let ws ← writes rest
    return .push v :: ws
  | .pair key value :: rest => do
    let k ← keyOf key.location (← eval key)
    let v ← eval value
    let ws ← writes rest
    return .insert k v :: ws

theorem elements_eq (t : Table) (es : List Element) :
    elements eval t es = (fun ws => ws.foldl Table.write t) <$> writes eval es := by
  induction es generalizing t with
  | nil => rfl
  | cons el rest ih =>
      cases el with
      | item value =>
          simp only [elements, writes, map_bind]
          refine bind_congr fun v => ?_
          rw [ih]
          simp [Table.write]
      | pair key value =>
          simp only [elements, writes, map_bind]
          refine bind_congr fun kv => bind_congr fun k => bind_congr fun v => ?_
          rw [ih]
          simp [Table.write]

end Eval

/-- **Tables are ordered maps.**  After any sequence of writes the index has the places of the
entries and nothing else; each key that was written has one entry, in the order of the first
writes and with the value of the last, and a key that was not written has none; there are as many
entries as keys were written.  A further write overwrites in place or adds an entry at the end,
under the number of entries if no key is named.  Building a table from its entries gives it
again, and building one from values gives the keys from zero on.  A literal is the table of
the writes that its elements make. -/
theorem table_is_ordered_map :
    (∀ ws : List Write, let t := IndexedTable.ofWrites ws
      (∀ (k : Key) (i : Nat), t.index[k]? = some i ↔ ∃ v, t.entries[i]? = some (k, v)) ∧
      t.keys.Nodup ∧ t.Holds (Write.history ws) ∧
      (∀ k, t.hasKey k = true ↔ k ∈ (Write.history ws).map Prod.fst) ∧
      (∀ k, t.get? k = none ↔ k ∉ (Write.history ws).map Prod.fst) ∧
      (∀ k, t.toTable.find? k = t.get? k) ∧ (∀ e ∈ t.toTable, t.get? e.1 = some e.2) ∧
      t.size = ((Write.history ws).map Prod.fst).toFinset.card ∧
      (∀ k v, (t.insert k v).toTable = match t.index[k]? with
        | some i => t.toTable.set i (k, v)
        | none => t.toTable ++ [(k, v)]) ∧
      (∀ v, t.push v = t.insert (.int (Int64.ofNat t.size)) v) ∧
      IndexedTable.ofEntries t.toTable = t) ∧
    (∀ vs : List Value, vs.length ≤ 2 ^ 63 →
      (IndexedTable.ofValues vs).keys = (List.range vs.length).map (fun i => .int (Int64.ofNat i)) ∧
      (IndexedTable.ofValues vs).values = vs) ∧
    ∀ (env : Environment) (limit depth : Nat) (opening : Token) (es : List Element),
      (Expr.array opening es).evaluateWithin env limit (depth + 1) = do
        let ws ← Eval.writes (Expr.evaluateWithin env limit depth) es
        return .table (IndexedTable.ofWrites ws).toTable := by
  refine ⟨fun ws => ?_, fun vs h => ?_, fun env limit depth opening es => ?_⟩
  · obtain ⟨hholds, hrebuilt⟩ := IndexedTable.holds_ofWrites ws
    have ht := hrebuilt.consistent
    refine ⟨ht, ht.nodup_keys, hholds, fun k => ?_, fun k => ?_, fun k => (ht.get?_eq k).symm,
      fun e he => ?_, hholds.size_eq ht, fun k v => ?_, fun v => rfl, hrebuilt⟩
    · rw [ht.hasKey_iff, hholds.keys]
    · rw [ht.get?_eq, Table.find?_eq_none_iff, ← hholds.keys]
      rfl
    · rw [ht.get?_eq]
      exact Table.find?_of_mem ht.nodup_keys he
    · split
      · next hk => exact ht.toTable_insert_of_some hk
      · next hk => exact IndexedTable.toTable_insert_of_none hk
  · obtain ⟨-, htable⟩ := IndexedTable.toTable_ofValues h
    rw [IndexedTable.keys, IndexedTable.values, htable]
    refine ⟨Table.keys_ofValues vs, ?_⟩
    simp [Table.values, Table.ofValues, Function.comp_def]
  · show (Value.table <$> Eval.elements _ [] es) = _
    rw [Eval.elements_eq]
    simp [IndexedTable.toTable_ofWrites]

/-- A value is pushed on the one entry, whose key is the number of entries. -/
theorem pushed_value_overwrites :
    (IndexedTable.ofWrites [.insert (.int 1) .null, .push (.bool true)]).get? (.int 1)
        = some (.bool true) ∧
      (IndexedTable.ofWrites [.insert (.int 1) .null, .push (.bool true)]).size = 1 ∧
      (IndexedTable.ofValues [.null, .null]).keys = [.int 0, .int 1] := by
  obtain ⟨hwrites, hvalues, -⟩ := table_is_ordered_map
  obtain ⟨-, -, hholds, -, -, -, -, hsize, -⟩ :=
    hwrites [.insert (.int 1) .null, .push (.bool true)]
  refine ⟨?_, hsize, (hvalues [.null, .null] (by decide)).1⟩
  exact (hholds.values _ _).mpr ⟨[(.int 1, .null)], [], rfl, nofun⟩

end GuardedExpr
