/-
Tables — ordered maps from keys to values.

Writing to a key that is present replaces the value and keeps the place of the
key; writing to a new key adds an entry at the end. A value pushed without a key
is written at the number of entries present.
-/
import GuardedExpr.Value.Basic

namespace GuardedExpr

/-- The entries of a table in order. -/
abbrev Table := List (Key × Value)

namespace Table

/-- The value at a key. -/
def find? (k : Key) : Table → Option Value
  | [] => none
  | (j, v) :: es => if j = k then some v else find? k es

def hasKey (k : Key) (t : Table) : Bool := (t.find? k).isSome

/-- Write a value at a key. -/
def insert (k : Key) (v : Value) : Table → Table
  | [] => [(k, v)]
  | (j, w) :: es => if j = k then (j, v) :: es else (j, w) :: insert k v es

/-- The key that a pushed value is written at. -/
def nextKey (t : Table) : Key := .int (Int64.ofNat t.length)

/-- Write a value without naming its key. -/
def push (t : Table) (v : Value) : Table := t.insert t.nextKey v

def keys (t : Table) : List Key := t.map Prod.fst

def values (t : Table) : List Value := t.map Prod.snd

/-- Write entries one after the other into an empty table. -/
def ofEntries (es : List (Key × Value)) : Table :=
  es.foldl (fun t e => t.insert e.1 e.2) []

/-- The table of the values under the keys from zero on. -/
def ofValues (vs : List Value) : Table :=
  vs.zipIdx.map fun (v, i) => (.int (Int64.ofNat i), v)

end Table

/-- The list of the values, as a value. -/
def Value.list (vs : List Value) : Value := .table (Table.ofValues vs)

end GuardedExpr
