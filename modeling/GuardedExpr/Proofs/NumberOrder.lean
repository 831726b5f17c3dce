/-
# The order of numbers — the same from both sides

Two floats are less, equal, greater or incomparable.  The evaluator finds out by three
questions, `x < y`, `x == y` and `y < x`, and each of them is answered by one comparison
of signs, exponents and mantissas.  So the order of two numbers taken the other way
round is the same order turned round (`Number.order?_swap`), and NaN is the only number
that is not equal to itself (`Number.order?_self`).

NaN comes from arithmetic and from the host, and from nothing that is read.  A numeral
is a product or a quotient of an integer and a power of ten, zero, or infinite; a
quotient is NaN only where both of its parts are zero, or both infinite
(`Numeral.isNaN_toFloat`).
-/
import GuardedExpr.Value.Order

namespace GuardedExpr

open Float.Model

/-! ## Comparing floats -/

section Compare

theorem compare_swap_sign (s t : UnpackedFloat.Sign) : compare t s = (compare s t).swap := by
  cases s <;> cases t <;> rfl

/-- A comparison the other way round.  Only signs, exponents and mantissas are looked at, and
where there is a choice it is made on both sides alike. -/
theorem compare_swap_unpacked (a b : UnpackedFloat) :
    b.compare a = (a.compare b).map Ordering.swap := by
  cases a with
  | notANumber => cases b <;> rfl
  | infinity s =>
      cases b with
      | infinity t => exact congrArg some (compare_swap_sign s t)
      | notANumber | zero | finite => cases s <;> rfl
  | zero =>
      cases b with
      | notANumber | zero => rfl
      | infinity t | finite t => cases t <;> rfl
  | finite s m e =>
      cases b with
      | notANumber => rfl
      | zero => cases s <;> rfl
      | infinity t => cases s <;> cases t <;> rfl
      | finite t n f =>
          have hmagnitude :
              (compare f e).then (compare n m) = ((compare e f).then (compare m n)).swap := by
            rw [Ordering.swap_then, Nat.compare_swap, Int.compare_swap]
          cases s <;> cases t
          · exact congrArg (some ·.swap) hmagnitude
          · rfl
          · rfl
          · exact congrArg some hmagnitude

theorem compare_self_unpacked {a : UnpackedFloat} (h : a.isNaN = false) :
    a.compare a = some .eq := by
  cases a with
  | notANumber => cases h
  | zero => rfl
  | infinity s => cases s <;> rfl
  | finite s m e =>
      have hmagnitude : (compare e e).then (compare m m) = .eq := by simp
      cases s
      · exact congrArg (some ·.swap) hmagnitude
      · exact congrArg some hmagnitude

end Compare

namespace Number

/-- The three questions about two floats are one comparison. -/
theorem order?_floats (x y : Float) :
    (if x < y then some .lt else if x == y then some .eq else if y < x then some .gt else none)
      = x.toModel.unpack.compare y.toModel.unpack := by
  have hlt : x < y ↔ x.toModel.unpack.compare y.toModel.unpack = some .lt := by
    show decide (x.toModel.lt y.toModel = true) = true ↔ _
    rw [decide_eq_true_iff]
    exact beq_iff_eq
  have hgt : y < x ↔ y.toModel.unpack.compare x.toModel.unpack = some .lt := by
    show decide (y.toModel.lt x.toModel = true) = true ↔ _
    rw [decide_eq_true_iff]
    exact beq_iff_eq
  have heq : (x == y) = true ↔ x.toModel.unpack.compare y.toModel.unpack = some .eq := by
    show (x.toModel.unpack.compare y.toModel.unpack == some .eq) = true ↔ _
    exact beq_iff_eq
  rw [compare_swap_unpacked x.toModel.unpack y.toModel.unpack] at hgt
  simp only [hlt, heq, hgt]
  cases x.toModel.unpack.compare y.toModel.unpack with
  | none => rfl
  | some o => cases o <;> rfl

/-- **The order of two numbers the other way round.**  Two integers are compared as they are, all
others as floats. -/
theorem order?_swap (m n : Number) : n.order? m = (m.order? n).map Ordering.swap := by
  have hfloats (x y : Float) : (Number.float y).order? (.float x)
      = ((Number.float x).order? (.float y)).map Ordering.swap := by
    have hxy : (Number.float x).order? (.float y) = _ := order?_floats x y
    have hyx : (Number.float y).order? (.float x) = _ := order?_floats y x
    rw [hxy, hyx, compare_swap_unpacked]
  cases m with
  | int x =>
      cases n with
      | int y => exact congrArg some (Int.compare_swap x.toInt y.toInt).symm
      | float y => exact hfloats x.toFloat y
  | float x =>
      cases n with
      | int y => exact hfloats x y.toFloat
      | float y => exact hfloats x y

/-- Floats that are the same number are equal. -/
theorem order?_of_beq {x y : Float} (h : (x == y) = true) :
    (Number.float x).order? (.float y) = some .eq := by
  have hxy : (Number.float x).order? (.float y) = _ := order?_floats x y
  rw [hxy]
  exact beq_iff_eq.mp h

/-- A number is equal to itself unless it is NaN. -/
theorem order?_self {n : Number} (h : ∀ x, n = .float x → x.isNaN = false) :
    n.order? n = some .eq := by
  cases n with
  | int x => exact congrArg some (Int.compare_eq_eq.mpr rfl)
  | float x =>
      have hself : (Number.float x).order? (.float x) = _ := order?_floats x x
      rw [hself]
      exact compare_self_unpacked (h x rfl)

end Number

/-! ## What is no NaN -/

section NaN

/-- Only an exponent of ones with a mantissa behind it is NaN. -/
theorem isNaN_unpack {b : BitVec Format.binary64.numBits}
    (h : UnpackedFloat.unpackExponent b = (-1#_) → UnpackedFloat.unpackMantissa b = 0#_) :
    (UnpackedFloat.unpack Format.binary64 b).isNaN = false := by
  unfold UnpackedFloat.unpack
  dsimp only
  by_cases hexponent : UnpackedFloat.unpackExponent b = (-1#_)
  · rw [if_pos hexponent, if_pos (h hexponent)]
    rfl
  rw [if_neg hexponent, apply_ite UnpackedFloat.isNaN, apply_dite UnpackedFloat.isNaN]
  change ite _ (dite _ (fun _ => false) fun _ => false) false = false
  rw [dite_eq_ite, ite_self, ite_self]

/-- Packing makes no NaN: a number too large for its exponent is packed as infinite. -/
theorem isNaN_pack {a : UnpackedFloat} (h : a.isNaN = false) : (pack a).unpack.isNaN = false := by
  show (UnpackedFloat.unpack Format.binary64 (UnpackedFloat.pack Format.binary64 a)).isNaN = false
  refine isNaN_unpack fun hexponent => ?_
  cases a with
  | notANumber => cases h
  | infinity s =>
      unfold UnpackedFloat.pack
      simp [UnpackedFloat.packedInfinity]
  | zero s =>
      unfold UnpackedFloat.pack
      simp [UnpackedFloat.packedZero]
  | finite s m e =>
      revert hexponent
      unfold UnpackedFloat.pack
      dsimp only
      split
      · simp [UnpackedFloat.packedInfinity]
      · next hsmall =>
          split
          · rw [UnpackedFloat.unpackExponent_packComponents]
            intro hexponent
            have hones := congrArg BitVec.toNat hexponent
            rw [BitVec.toNat_ofNat] at hones
            change _ % 2 ^ 11 = 2 ^ 11 - 1 at hones
            rw [Nat.mod_eq_of_lt (by omega)] at hones
            omega
          · simp

variable {spec : Format}

theorem isNaN_roundWithAccuracy (s : UnpackedFloat.Sign) (m : Nat) (e : Int)
    (accuracy : UnpackedFloat.Accuracy) :
    (UnpackedFloat.roundWithAccuracy spec s m e accuracy).isNaN = false := by
  unfold UnpackedFloat.roundWithAccuracy
  dsimp only
  rw [apply_dite UnpackedFloat.isNaN]
  change dite _ (fun _ => false) (fun _ => false) = false
  rw [dite_eq_ite, ite_self]

theorem isNaN_ofInt (n : Int) : (UnpackedFloat.ofInt spec n).isNaN = false := by
  unfold UnpackedFloat.ofInt UnpackedFloat.normalize
  split
  · exact isNaN_roundWithAccuracy ..
  · rfl
  · exact isNaN_roundWithAccuracy ..

variable {a b : UnpackedFloat}

theorem isNaN_mul (ha : a.isNaN = false) (hb : (b matches .finite ..) = true) :
    (UnpackedFloat.mul spec a b).isNaN = false := by
  cases b with
  | notANumber | infinity | zero => cases hb
  | finite =>
      cases a with
      | notANumber => cases ha
      | infinity | zero => rfl
      | finite => exact isNaN_roundWithAccuracy ..

theorem isNaN_div (ha : a.isNaN = false) (hb : (b matches .finite ..) = true) :
    (UnpackedFloat.div spec a b).isNaN = false := by
  cases b with
  | notANumber | infinity | zero => cases hb
  | finite =>
      cases a with
      | notANumber => cases ha
      | infinity | zero => rfl
      | finite => exact isNaN_roundWithAccuracy ..

theorem isNaN_scientific (m : Nat) (e : Int) :
    (UnpackedFloat.ofScientific spec m e).isNaN = false := by
  unfold UnpackedFloat.ofScientific
  by_cases hm : m = 0
  · rw [dif_pos hm]
    rfl
  rw [dif_neg hm]
  by_cases hlarge : e > 2 ^ spec.exponentBits
  · rw [if_pos hlarge]
    rfl
  rw [if_neg hlarge]
  by_cases hsmall : e < -(2 ^ spec.exponentBits + m.log2)
  · rw [if_pos hsmall]
    rfl
  rw [if_neg hsmall]
  by_cases hnonneg : 0 ≤ e
  · rw [if_pos hnonneg]
    exact isNaN_mul rfl rfl
  · rw [if_neg hnonneg]
    exact isNaN_div rfl rfl

theorem powersOfTen_finite : ∀ x ∈ Float.exactlyRepresentablePowersOfTen,
    (x.toModel.unpack matches .finite ..) = true := by
  decide

/-- A decimal number is no NaN: where its digits and the power of ten are small it is their product
or quotient, else it is rounded once. -/
theorem isNaN_ofScientific (m : Nat) (s : Bool) (e : Nat) :
    (Float.ofScientific m s e).isNaN = false := by
  unfold Float.ofScientific
  split
  · have hdigits : m.toUInt64.toFloat.toModel.unpack.isNaN = false := isNaN_pack (isNaN_ofInt _)
    dsimp only
    split
    · exact isNaN_pack (isNaN_div hdigits (powersOfTen_finite _ (Array.getElem_mem _)))
    · exact isNaN_pack (isNaN_mul hdigits (powersOfTen_finite _ (Array.getElem_mem _)))
  · exact isNaN_pack (isNaN_scientific ..)

theorem isNaN_neg {x : Float} (h : x.isNaN = false) : (-x).isNaN = false := by
  have hneg : x.toModel.unpack.neg.isNaN = false := by
    change x.toModel.unpack.isNaN = false at h
    cases hx : x.toModel.unpack with
    | notANumber =>
        rw [hx] at h
        cases h
    | infinity | zero | finite => rfl
  exact isNaN_pack hneg

end NaN

namespace Numeral

theorem isNaN_nearestFloat (digits : List Char) (point : Int) :
    (nearestFloat digits point).isNaN = false := by
  unfold nearestFloat
  split
  · decide
  split
  · decide
  split
  · decide
  · exact isNaN_ofScientific ..

/-- **No numeral is read as NaN.** -/
theorem isNaN_toFloat (n : Numeral) : n.toFloat.isNaN = false := by
  unfold toFloat
  dsimp only
  split
  · exact isNaN_neg (isNaN_nearestFloat ..)
  · exact isNaN_nearestFloat ..

theorem isNaN_value {n : Numeral} {x : Float} (h : n.value = .float x) : x.isNaN = false := by
  unfold value at h
  split at h
  · split at h
    · cases h
    · cases h
      exact isNaN_toFloat n
  · cases h
    exact isNaN_toFloat n

end Numeral

/-- A numeric string is equal to itself as a number. -/
theorem order?_self_of_numeric {s : String} {n : Number} (h : parseNumeric? s = some n) :
    n.order? n = some .eq := by
  refine Number.order?_self fun x hx => ?_
  unfold parseNumeric? at h
  split at h
  · cases h
    exact Numeral.isNaN_value hx
  · cases h

end GuardedExpr
