/-
Indexed tables — tables that know the place of every key.

The entries stand in an array, in the order in which their keys were first written.
Beside them an index gives the place of each key, so that finding and overwriting an
entry need no search. The operations do to the entries what those of `Table` do.
-/
import GuardedExpr.Value.Table
import Std.Data.HashMap

namespace GuardedExpr

instance : Hashable Key where
  hash
    | .int n => mixHash 0 (hash n)
    | .str s => mixHash 1 (hash s)

/-- Entries in order, and the place of each key among them. -/
structure IndexedTable where
  entries : Array (Key × Value)
  index : Std.HashMap Key Nat

namespace IndexedTable

def empty : IndexedTable := ⟨#[], ∅⟩

/-- The table that it is, without the index. -/
def toTable (t : IndexedTable) : Table := t.entries.toList

def size (t : IndexedTable) : Nat := t.entries.size

def keys (t : IndexedTable) : List Key := t.toTable.keys

def values (t : IndexedTable) : List Value := t.toTable.values

/-- The value at a key. -/
def get? (t : IndexedTable) (k : Key) : Option Value := do
  let i ← t.index[k]?
  let e ← t.entries[i]?
  return e.2

def hasKey (t : IndexedTable) (k : Key) : Bool := t.index.contains k

/-- Write a value at a key: in its place, or at the end. -/
def insert (t : IndexedTable) (k : Key) (v : Value) : IndexedTable :=
  match t.index[k]? with
  | some i => ⟨t.entries.modify i fun e => (e.1, v), t.index⟩
  | none => ⟨t.entries.push (k, v), t.index.insert k t.size⟩

/-- Write a value without naming its key: at the number of entries present. -/
def push (t : IndexedTable) (v : Value) : IndexedTable := t.insert (.int (Int64.ofNat t.size)) v

/-- Write entries one after the other into an empty table. -/
def ofEntries (es : List (Key × Value)) : IndexedTable :=
  es.foldl (fun t e => t.insert e.1 e.2) empty

/-- Push values one after the other into an empty table. -/
def ofValues (vs : List Value) : IndexedTable := vs.foldl push empty

end IndexedTable

end GuardedExpr
