/-
# Integer powers — exact up to a largest exponent

`ArithmeticOp.power?` multiplies only where the product can have 64 bits.  From the
64th power on just three bases are left, 0, 1 and -1, and their powers depend on the
parity of the exponent alone; so it is the exact power if that fits, and nothing
otherwise (`power?_eq`).

The operator asks for it only up to `maxExponent`.  Beyond that every power is a float.
For bases of a magnitude above one this is the rule that also holds below: no such
power fits.  For 0, 1 and -1 it is not, since their powers always fit; these are the
only integers whose power is a float although it is a 64-bit integer.
-/
import GuardedExpr.Proofs.IntegerArithmetic
import Mathlib.Algebra.Ring.Int.Parity

namespace GuardedExpr

namespace ArithmeticOp

variable {x : Int} {n : Nat}

/-! ## The exact power -/

/-- The powers of the three small bases repeat. -/
theorem pow_mod_two (hx : x.natAbs ≤ 1) (hn : 64 ≤ n) : x ^ (64 + n % 2) = x ^ n := by
  obtain rfl | rfl | rfl : x = 0 ∨ x = 1 ∨ x = -1 := by omega
  · rw [zero_pow (by omega), zero_pow (by omega)]
  · rw [one_pow, one_pow]
  · rw [neg_one_pow_eq_pow_mod_two, neg_one_pow_eq_pow_mod_two (n := n), Nat.add_mod]
    simp

/-- The powers of the three small bases fit. -/
theorem exists_fit64?_pow (hx : x.natAbs ≤ 1) (n : Nat) : ∃ i, fit64? (x ^ n) = some i := by
  have hsmall : (x ^ n).natAbs ≤ 1 := by
    rw [Int.natAbs_pow]
    calc x.natAbs ^ n ≤ 1 ^ n := Nat.pow_le_pow_left hx n
      _ = 1 := Nat.one_pow n
  exact exists_fit64? (by omega) (by omega)

/-- Every further factor at least doubles the power of any other base. -/
theorem fit64?_pow_eq_none (hx : 1 < x.natAbs) (hn : 64 ≤ n) : fit64? (x ^ n) = none := by
  have hlarge : 2 ^ 64 ≤ (x ^ n).natAbs := by
    rw [Int.natAbs_pow]
    calc 2 ^ 64 ≤ 2 ^ n := Nat.pow_le_pow_right (by decide) hn
      _ ≤ x.natAbs ^ n := Nat.pow_le_pow_left hx n
  rw [fit64?, Int64.toInt_minValue, Int64.toInt_maxValue, if_neg]
  omega

/-- **The power is the exact one, if that fits.** -/
theorem power?_eq (x : Int) (n : Nat) : power? x n = fit64? (x ^ n) := by
  unfold power?
  split
  · rfl
  · next hn =>
      split
      · next hx =>
          rw [show x.pow (64 + n % 2) = x ^ (64 + n % 2) from rfl, pow_mod_two hx (by omega)]
      · next hx => exact (fit64?_pow_eq_none (by omega) (by omega)).symm

end ArithmeticOp

/-! ## The operator -/

open ArithmeticOp

/-- **Integer powers are exact, or floats where they do not fit,** except for one thing: with an
exponent above the largest one the powers of 0, 1 and -1, which fit, are floats as well. -/
theorem integer_power_is_exact_iff (env : Environment) (limit : Nat) (x y : Int64) (op : Token)
    (hop : op.kind = .starStar) (hy : 0 ≤ y.toInt) :
    ∃ v, op.Combines env limit (.int x) (.int y) (.ok v) ∧
      (v.IsExact (· = x.toInt ^ y.toInt.toNat) ↔
        y.toInt ≤ maxExponent ∨ 1 < x.toInt.natAbs) ∧
      (¬ (y.toInt ≤ maxExponent ∨ 1 < x.toInt.natAbs) → ∃ z, v = .float z) := by
  have hresult : pow.onNumbers (.int x) (.int y) = _ := onNumbers_integers (by decide) nofun
  refine ⟨_, Token.combines_of_some (by rw [hop]; rfl) hresult, ?_⟩
  by_cases hmax : y.toInt ≤ maxExponent
  · have hpower : pow.onIntegers? x.toInt y.toInt = fit64? (x.toInt ^ y.toInt.toNat) := by
      rw [onIntegers?, if_pos ⟨hy, hmax⟩, power?_eq]
    rw [hpower]
    refine ⟨iff_of_true (.of_option ?_ ?_ _) (.inl hmax), fun hout => absurd (.inl hmax) hout⟩
    · exact fun n hn => toInt_of_fit64? hn
    · exact ne_toInt_of_fit64?
  · have hfloat : pow.onIntegers? x.toInt y.toInt = none := by
      rw [onIntegers?, if_neg fun h => hmax h.2]
    rw [hfloat]
    refine ⟨?_, fun _ => ⟨_, rfl⟩⟩
    by_cases hx : 1 < x.toInt.natAbs
    · -- An exponent above the largest one is far above 64.
      have hlong : 64 ≤ y.toInt.toNat := by
        rw [maxExponent] at hmax
        omega
      exact iff_of_true (.float (ne_toInt_of_fit64? (fit64?_pow_eq_none hx hlong))) (.inr hx)
    · obtain ⟨i, hi⟩ := exists_fit64?_pow (by omega : x.toInt.natAbs ≤ 1) y.toInt.toNat
      refine iff_of_false ?_ (not_or.mpr ⟨hmax, hx⟩)
      rintro (- | hnone)
      exact hnone i (toInt_of_fit64? hi)

/-- The least integer is a power that just fits. -/
theorem least_integer_is_power_of_minus_two :
    0 ≤ (63 : Int64).toInt ∧ (63 : Int64).toInt ≤ maxExponent ∧
    (⟨.starStar, "**", ⟨3, 2, 1, 4⟩⟩ : Token).Combines ⟨.empty, .absent, .empty⟩ 2
      (.int (-2)) (.int 63) (.ok (.int Int64.minValue)) := by
  refine ⟨by decide, by decide, ?_⟩
  obtain ⟨v, hcombines, hexact, -⟩ := integer_power_is_exact_iff ⟨.empty, .absent, .empty⟩ 2
    (-2) 63 ⟨.starStar, "**", ⟨3, 2, 1, 4⟩⟩ rfl (by decide)
  have hpower : (-2 : Int64).toInt ^ (63 : Int64).toInt.toNat = Int64.minValue.toInt := by decide
  rw [hpower] at hexact
  cases hexact.mpr (.inl (by decide)) with
  | int hn => rwa [Int64.toInt_inj.mp hn] at hcombines
  | float hnone => exact absurd rfl (hnone Int64.minValue)

/-- One is the power of one, but it is a float when the exponent has more than 32 bits. -/
theorem far_power_of_one_is_float :
    ¬ ∀ (env : Environment) (limit : Nat) (x y : Int64) (op : Token), op.kind = .starStar →
      0 ≤ y.toInt → ∃ v, op.Combines env limit (.int x) (.int y) (.ok v) ∧
        v.IsExact (· = x.toInt ^ y.toInt.toNat) := by
  intro hclaim
  let env : Environment := ⟨.ofList [("x", .int 1), ("y", .int 4294967296)], .absent, .empty⟩
  let op : Token := ⟨.starStar, "**", ⟨3, 2, 1, 4⟩⟩
  obtain ⟨v, hcombines, hexact⟩ := hclaim env 2 1 4294967296 op rfl (by decide)
  have hrun := hcombines 1 (.variable ⟨.variable, "$x", ⟨0, 2, 1, 1⟩⟩)
    (.variable ⟨.variable, "$y", ⟨6, 2, 1, 7⟩⟩) [] [] [] rfl rfl
  have hfloat : ∃ z, ((Expr.binary (.variable ⟨.variable, "$x", ⟨0, 2, 1, 1⟩⟩) op
      (.variable ⟨.variable, "$y", ⟨6, 2, 1, 7⟩⟩)).evaluateWithin env 2 2).runOn [] =
        (.ok (.float z), []) := ⟨_, rfl⟩
  obtain ⟨z, hz⟩ := hfloat
  rw [hz] at hrun
  cases hrun
  cases hexact with
  | float hnone => exact hnone 1 (by rw [show (1 : Int64).toInt = 1 from rfl, one_pow])

end GuardedExpr
