/-
Function tables — hosts made of named functions.

Lookup is by canonical name. A table has no objects and no classes.
-/
import GuardedExpr.Host.Basic
import GuardedExpr.Host.CallableName

namespace GuardedExpr

/-- A function that expressions can call. -/
abbrev Native := List Value → HostResult

/-- Functions under canonical names, each name once. -/
structure FunctionTable where
  entries : List (String × Native)

namespace FunctionTable

def empty : FunctionTable := ⟨[]⟩

/-- The function registered under a name. -/
def get? (t : FunctionTable) (name : String) : Option Native := t.entries.lookup (canonicalName name)

/-- Register a function, in place of an earlier one of the same name. -/
def register (t : FunctionTable) (name : String) (f : Native) : FunctionTable :=
  let key := canonicalName name
  ⟨t.entries.filter (fun e => e.1 != key) ++ [(key, f)]⟩

def ofList (fs : List (String × Native)) : FunctionTable :=
  fs.foldl (fun t f => t.register f.1 f.2) empty

def size (t : FunctionTable) : Nat := t.entries.length

/-- The canonical names in order. -/
def names (t : FunctionTable) : List String := Text.sortNames (t.entries.map Prod.fst)

def has (t : FunctionTable) (name : String) : Bool := (t.get? name).isSome

/-- Call a function by name. -/
def invoke (t : FunctionTable) (name : String) (args : List Value) : HostResult :=
  match t.get? name with
  | some f => f args
  | none => (Call.invokeFunction name args).absentAnswer

/-- A function is called under every name of its canonical form. -/
theorem invoke_of_lookup {t : FunctionTable} {name key : String} {f : Native}
    (hname : canonicalName name = key) (hf : t.entries.lookup key = some f) (args : List Value) :
    t.invoke name args = f args := by
  rw [invoke, get?, hname, hf]

/-- A table answers the calls about functions; all else is absent. -/
def answer (t : FunctionTable) : (c : Call) → c.Answer
  | .functionExists name => t.has name
  | .invokeFunction name args => t.invoke name args
  | c => c.absentAnswer

def host (t : FunctionTable) : Host := fun _ c => t.answer c

end FunctionTable

end GuardedExpr
