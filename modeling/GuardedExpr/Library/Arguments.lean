/-
Arguments — what library functions take from the values passed to them.

Scalars are converted where a string or a number is wanted; tables and objects
are not. A function sees its arguments only after their number has been checked.
-/
import GuardedExpr.Host.FunctionTable
import GuardedExpr.Value.Conversion

namespace GuardedExpr.Library

/-- The arguments of a call to the function `name`. -/
structure Arguments where
  name : String
  values : List Value

namespace Arguments

variable (a : Arguments)

/-- How many arguments are expected; without an upper bound any number from `least` on. -/
def expectation (least : Nat) : (most : Option Nat) → String
  | none => s!"at least {least}"
  | some most => if least = most then s!"exactly {least}" else s!"{least} to {most}"

/-- Check the number of arguments. -/
def counted (least : Nat) (most : Option Nat) : Except HostError Unit :=
  let n := a.values.length
  if least ≤ n ∧ most.all (n ≤ ·) then .ok ()
  else .error (.arity a.name (expectation least most) n)

/-- A failure in the name of the function. -/
def fail {α : Type} (message : String) : Except HostError α :=
  .error (.failed s!"{a.name}(): {message}")

/-- The argument at an index; null where there is none. -/
def value (i : Nat) : Value := a.values.getD i .null

/-- The argument at an index, if it was passed. -/
def optional? (i : Nat) : Option Value := a.values[i]?

/-- The argument is not of the expected type. -/
def mistyped {α : Type} (i : Nat) (expected : String) : Except HostError α :=
  .error (.argumentType a.name (i + 1) expected (a.value i).kind)

def string (i : Nat) : Except HostError String :=
  match (a.value i).scalarText? with
  | some s => .ok s
  | none => a.mistyped i "string"

def number (i : Nat) : Except HostError Number :=
  match (a.value i).toNumber? with
  | some n => .ok n
  | none => a.mistyped i "int|float"

/-- A float is an integer if it is whole; beyond 64 bits it is cut to the nearest one. -/
def int (i : Nat) : Except HostError Int64 := do
  match ← a.number i with
  | .int n => return n
  | .float x => if x.isFinite && x.floor == x then return truncate x else a.mistyped i "int"

def float (i : Nat) : Except HostError Float := return (← a.number i).toFloat

def table (i : Nat) : Except HostError Table :=
  match (a.value i).asTable? with
  | some t => .ok t
  | none => a.mistyped i "array"

end Arguments

/-- A function of the library: its name and what it does with its arguments. -/
abbrev Entry := String × Native

/-- A function with a fixed range of arguments. -/
def entry (name : String) (least most : Nat) (f : Arguments → HostResult) : Entry :=
  (name, fun values => do
    let a : Arguments := ⟨name, values⟩
    a.counted least (some most)
    f a)

/-- A function with no upper bound on its arguments. -/
def openEntry (name : String) (least : Nat) (f : Arguments → HostResult) : Entry :=
  (name, fun values => do
    let a : Arguments := ⟨name, values⟩
    a.counted least none
    f a)

end GuardedExpr.Library
