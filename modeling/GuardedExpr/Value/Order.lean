/-
Loose comparison — the order behind `==`, `<` and `<=>`.

The first rule that fits the two kinds decides. Some pairs are not comparable:
NaN with anything, tables of one size with different keys, two different objects.
Comparing an object with a string asks for the object's string, so the comparison
runs in the monad of that question.
-/
import GuardedExpr.Value.Conversion

namespace GuardedExpr

/-- The order of two numbers; NaN has none. Two integers are compared exactly. -/
def Number.order? : Number → Number → Option Ordering
  | .int a, .int b => some (compare a.toInt b.toInt)
  | a, b =>
    let x := a.toFloat
    let y := b.toFloat
    if x < y then some .lt else if x == y then some .eq else if y < x then some .gt else none

/-- Strings are compared by the codes of their characters. -/
def textOrder (a b : String) : Ordering :=
  if a < b then .lt else if a = b then .eq else .gt

/-- Two numeric strings are compared as numbers. -/
def compareTexts (a b : String) : Option Ordering :=
  match parseNumeric? a, parseNumeric? b with
  | some m, some n => m.order? n
  | _, _ => some (textOrder a b)

/-- A number is compared with a string by number if the string is numeric, else by text. -/
def compareNumberText (n : Number) (s : String) : Option Ordering :=
  match parseNumeric? s with
  | some m => n.order? m
  | none =>
    let text := match n with
      | .int i => intText i
      | .float x => floatText x
    some (textOrder text s)

def compareBools (a b : Bool) : Ordering :=
  compare a.toNat b.toNat

namespace Value

variable {m : Type → Type} [Monad m]

mutual

/-- Compare two values; `text` answers which string an object has. -/
def compare (text : Handle → m (Option String)) : Value → Value → m (Option Ordering)
  | .null, .str s => pure (compareTexts "" s)
  | .str s, .null => pure (compareTexts s "")
  | .null, b => pure (some (compareBools false b.truthy))
  | .bool p, b => pure (some (compareBools p b.truthy))
  | a, .null => pure (some (compareBools a.truthy false))
  | a, .bool q => pure (some (compareBools a.truthy q))
  | .int x, .int y => pure ((Number.int x).order? (.int y))
  | .int x, .float y => pure ((Number.int x).order? (.float y))
  | .float x, .int y => pure ((Number.float x).order? (.int y))
  | .float x, .float y => pure ((Number.float x).order? (.float y))
  | .str s, .str t => pure (compareTexts s t)
  | .int x, .str t => pure (compareNumberText (.int x) t)
  | .float x, .str t => pure (compareNumberText (.float x) t)
  | .str s, .int y => pure ((compareNumberText (.int y) s).map Ordering.swap)
  | .str s, .float y => pure ((compareNumberText (.float y) s).map Ordering.swap)
  | .table es, .table fs =>
    if es.length < fs.length then pure (some .lt)
    else if fs.length < es.length then pure (some .gt)
    else compareEntries text es fs
  | .table _, _ => pure (some .gt)
  | _, .table _ => pure (some .lt)
  | .object g, .object h => pure (if g = h then some .eq else none)
  | .object g, .str t => do
    match ← text g with
    | some s => pure (compareTexts s t)
    | none => pure (some .gt)
  | .str s, .object h => do
    match ← text h with
    | some t => pure (compareTexts s t)
    | none => pure (some .lt)
  | .object _, _ => pure (some .gt)
  | _, .object _ => pure (some .lt)

/-- Compare the entries of one table with those under the same keys in another; the first
entry that is not equal decides. -/
def compareEntries (text : Handle → m (Option String)) (es : List (Key × Value))
    (other : List (Key × Value)) : m (Option Ordering) :=
  match es with
  | [] => pure (some .eq)
  | (k, v) :: es =>
    match Table.find? k other with
    | none => pure none
    | some w => do
      match ← compare text v w with
      | some .eq => compareEntries text es other
      | unequal => pure unequal

end

/-- Loose equality: incomparable values are not equal. -/
def looseEquals (text : Handle → m (Option String)) (a b : Value) : m Bool :=
  return (← compare text a b) == some .eq

/-- No object has a string. -/
def noText : Handle → Id (Option String) := fun _ => none

/-- Comparison where no host is at hand. -/
def comparePure (a b : Value) : Option Ordering := Id.run (compare noText a b)

end Value

end GuardedExpr
