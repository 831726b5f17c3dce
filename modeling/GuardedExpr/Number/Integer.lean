/-
Integers — 64 bits, and their decimal text.
-/
import GuardedExpr.Text.Ascii

namespace GuardedExpr

/-- The integer as a 64-bit integer, if it fits. -/
def fit64? (n : Int) : Option Int64 :=
  if Int64.minValue.toInt ≤ n ∧ n ≤ Int64.maxValue.toInt then some (Int64.ofInt n) else none

theorem fit64?_toInt (n : Int64) : fit64? n.toInt = some n := by
  rw [fit64?, if_pos ⟨n.minValue_le_toInt, n.toInt_le⟩, Int64.ofInt_toInt]

theorem toInt_of_fit64? {n : Int} {i : Int64} (h : fit64? n = some i) : i.toInt = n := by
  unfold fit64? at h
  split at h
  · next hfits =>
      cases h
      rw [Int64.toInt_minValue, Int64.toInt_maxValue] at hfits
      exact Int64.toInt_ofInt_of_le (by omega) (by omega)
  · cases h

theorem fit64?_eq_some_iff {n : Int} {i : Int64} : fit64? n = some i ↔ n = i.toInt := by
  constructor
  · intro h
    exact (toInt_of_fit64? h).symm
  · rintro rfl
    exact fit64?_toInt i

theorem exists_fit64? {n : Int} (hlow : -9223372036854775808 ≤ n)
    (hhigh : n < 9223372036854775808) : ∃ i, fit64? n = some i := by
  rw [fit64?, Int64.toInt_minValue, Int64.toInt_maxValue, if_pos (by omega)]
  exact ⟨_, rfl⟩

theorem ne_toInt_of_fit64? {n : Int} (h : fit64? n = none) (i : Int64) : i.toInt ≠ n := by
  intro heq
  rw [← heq, fit64?_toInt] at h
  cases h

/-- The 64-bit integer that digits spell, if it fits. In every base, a number of more than 64
significant digits is too large. -/
def integerIn? (base : Nat) (negative : Bool) (digits : List Char) : Option Int64 :=
  let ds := Text.significant digits
  if 64 < ds.length then none
  else
    let n : Int := Text.numberIn base ds
    fit64? (if negative then -n else n)

/-- The decimal digits of an integer, behind a minus sign when it is negative. -/
def intDigits (n : Int) : List Char :=
  if n < 0 then '-' :: Nat.toDigits 10 n.natAbs else Nat.toDigits 10 n.natAbs

/-- The decimal text of an integer. -/
def intText (n : Int64) : String := String.ofList (intDigits n.toInt)

/-- Read the decimal text of an integer back: no leading zero, no plus sign, no minus zero. -/
def readInt? (cs : List Char) : Option Int64 :=
  let (negative, digits) := match cs with
    | '-' :: ds => (true, ds)
    | ds => (false, ds)
  let canonical := !digits.isEmpty && digits.all Char.isDigit
    && (digits == ['0'] || digits.head? != some '0') && !(negative && digits == ['0'])
  if canonical then integerIn? 10 negative digits else none

end GuardedExpr
