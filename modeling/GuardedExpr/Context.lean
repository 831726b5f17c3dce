/-
Contexts — the variables of an evaluation.
-/
import GuardedExpr.Text.Ascii
import GuardedExpr.Value.Basic

namespace GuardedExpr

/-- Variables by name, without the sigil; each name once. -/
structure Context where
  entries : List (String × Value)

namespace Context

def empty : Context := ⟨[]⟩

def get? (c : Context) (name : String) : Option Value := c.entries.lookup name

def contains (c : Context) (name : String) : Bool := (c.get? name).isSome

/-- Bind a name, in place of an earlier binding. -/
def insert (c : Context) (name : String) (v : Value) : Context :=
  ⟨c.entries.filter (fun e => e.1 != name) ++ [(name, v)]⟩

def ofList (bindings : List (String × Value)) : Context :=
  bindings.foldl (fun c b => c.insert b.1 b.2) empty

def size (c : Context) : Nat := c.entries.length

/-- The bindings in the order of their names. -/
def sorted (c : Context) : List (String × Value) :=
  c.entries.mergeSort fun a b => !(b.1 < a.1)

end Context

end GuardedExpr
