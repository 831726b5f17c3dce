/-
# Integer arithmetic — exact, or in floats

On two 64-bit integers an operator has three ways to end.  It yields the integer
that the exact result is; where the exact result is no 64-bit integer it yields a
float; and a division by zero is a fault of its own.  `Value.IsExact P` says the
first two at once: the value is an integer with the property `P`, or a float, and
then no 64-bit integer has the property.  So an integer that comes out of an
operator is never one that was wrapped round or cut off.

The operators are stated for any trees that run to the two integers
(`Token.Combines`, `Token.Turns`), in whatever place and whatever they call.

Quotients are cut toward zero in the evaluator and in the library alike, hence the
remainder has the sign of the dividend, and the two add up to it again.
-/
import GuardedExpr.Eval.Evaluate
import GuardedExpr.Library.Standard
import GuardedExpr.Proofs.Contract

namespace GuardedExpr

open Eval

/-! ## Results -/

/-- An integer with the property, or a float where no 64-bit integer has it. -/
inductive Value.IsExact (P : Int → Prop) : Value → Prop
  | int {n : Int64} (h : P n.toInt) : IsExact P (.int n)
  | float {z : Float} (h : ∀ n : Int64, ¬ P n.toInt) : IsExact P (.float z)

/-- An integer if there is one, else the float. -/
theorem Value.IsExact.of_option {P : Int → Prop} {o : Option Int64}
    (hsome : ∀ n, o = some n → P n.toInt) (hnone : o = none → ∀ n : Int64, ¬ P n.toInt)
    (z : Float) : (o.elim (Number.float z) Number.int).toValue.IsExact P := by
  cases o with
  | none => exact .float (hnone rfl)
  | some n => exact .int (hsome n rfl)

namespace ArithmeticOp

variable {op : ArithmeticOp} {x y : Int64}

theorem onNumbers_integers (hmod : op ≠ .mod) (hdiv : op = .div → y ≠ 0) :
    op.onNumbers (.int x) (.int y) =
      some ((op.onIntegers? x.toInt y.toInt).elim (.float (op.onFloats x.toFloat y.toFloat))
        .int) := by
  have hzero : ¬ (op = .div ∧ (Number.int y).isZero) := by
    rintro ⟨rfl, hy⟩
    exact hdiv rfl (by simpa [Number.isZero] using hy)
  unfold onNumbers
  split
  · exact absurd rfl hmod
  · rw [if_neg hzero]
    dsimp only
    cases op.onIntegers? x.toInt y.toInt <;> rfl

/-- Sums, differences and products. -/
theorem exists_onNumbers_of_fit64 {exact : Int} (hmod : op ≠ .mod) (hdiv : op ≠ .div)
    (hop : op.onIntegers? x.toInt y.toInt = fit64? exact) :
    ∃ n, op.onNumbers (.int x) (.int y) = some n ∧ n.toValue.IsExact (· = exact) := by
  refine ⟨_, onNumbers_integers hmod (fun h => absurd h hdiv), .of_option ?_ ?_ _⟩
  · intro n hn
    exact toInt_of_fit64? (hop ▸ hn)
  · intro hnone
    exact ne_toInt_of_fit64? (hop ▸ hnone)

theorem div_by_zero (a : Number) : div.onNumbers a (.int 0) = none := by
  cases a <;> rfl

/-- A quotient is an integer exactly if the divisor goes into the dividend. -/
theorem exists_onNumbers_div (hy : y ≠ 0) :
    ∃ n, div.onNumbers (.int x) (.int y) = some n ∧
      n.toValue.IsExact (x.toInt = · * y.toInt) := by
  have hy' : y.toInt ≠ 0 := fun h => hy (Int64.toInt_inj.mp h)
  refine ⟨_, onNumbers_integers (by decide) (fun _ => hy), .of_option ?_ ?_ _⟩
  · intro n hn
    simp only [onIntegers?] at hn
    split at hn
    · next hdvd =>
        rw [toInt_of_fit64? hn, Int.tdiv_mul_cancel (Int.dvd_of_tmod_eq_zero hdvd.2)]
    · cases hn
  · intro hnone n hn
    have hdvd : x.toInt.tmod y.toInt = 0 := by rw [hn, Int.mul_tmod_left]
    have hquotient : x.toInt.tdiv y.toInt = n.toInt := by rw [hn, Int.mul_tdiv_cancel _ hy']
    rw [onIntegers?, if_pos ⟨hy', hdvd⟩, hquotient, fit64?_toInt] at hnone
    cases hnone

theorem mod_by_zero (a : Number) : mod.onNumbers a (.int 0) = none := rfl

theorem onNumbers_mod (hy : y ≠ 0) :
    mod.onNumbers (.int x) (.int y) = some (.int (x % y)) := if_neg hy

end ArithmeticOp

/-- The remainder is smaller than the divisor and has the sign of the dividend. -/
theorem natAbs_mod_lt {x y : Int64} (hy : y ≠ 0) :
    (x % y).toInt.natAbs < y.toInt.natAbs ∧
      (x % y = 0 ∨ (x % y).toInt.sign = x.toInt.sign) := by
  have hy' : y.toInt ≠ 0 := fun h => hy (Int64.toInt_inj.mp h)
  rw [← Int64.toInt_inj, Int64.toInt_mod, Int.natAbs_tmod, Int.sign_tmod]
  refine ⟨Nat.mod_lt _ (Int.natAbs_pos.mpr hy'), ?_⟩
  split
  · next hdvd => exact .inl (Int.tmod_eq_zero_of_dvd hdvd)
  · exact .inr rfl

/-- Only the least integer has no negative. -/
theorem fit64?_neg {x : Int64} (hx : x ≠ Int64.minValue) : ∃ n, fit64? (-x.toInt) = some n := by
  have hne : x.toInt ≠ Int64.minValue.toInt := fun h => hx (Int64.toInt_inj.mp h)
  rw [Int64.toInt_minValue] at hne
  have hlow := x.le_toInt
  have hhigh := x.toInt_lt
  exact exists_fit64? (by omega) (by omega)

/-! ## Operators on trees -/

section Trees

variable (env : Environment) (limit : Nat) (op : Token)

/-- Whatever the operands are: once they have run to the two values, the operator ends in the
result and calls nothing itself. -/
def Token.Combines (v w : Value) (result : Except EvalFault Value) : Prop :=
  ∀ (depth : Nat) (left right : Expr) (past calls calls' : List Call),
    (left.evaluateWithin env limit depth).runOn past = (.ok v, calls) →
    (right.evaluateWithin env limit depth).runOn calls = (.ok w, calls') →
    ((Expr.binary left op right).evaluateWithin env limit (depth + 1)).runOn past =
      (result.mapError (⟨·, op.location⟩), calls')

/-- The same of an operator in front of its operand. -/
def Token.Turns (v : Value) (result : Except EvalFault Value) : Prop :=
  ∀ (depth : Nat) (operand : Expr) (past calls : List Call),
    (operand.evaluateWithin env limit depth).runOn past = (.ok v, calls) →
    ((Expr.unary op operand).evaluateWithin env limit (depth + 1)).runOn past =
      (result.mapError (⟨·, op.location⟩), calls)

variable {env limit op}

theorem Eval.binary_of_arithmetic {eval : Expr → EvalM Value} {left right : Expr}
    {arith : ArithmeticOp} (h : op.kind.arithmetic? = some arith) :
    binary env eval left op right = (do
      let v ← eval left
      let w ← eval right
      arithmetic arith op v w) := by
  have hnode : binary env eval left op right = (do
      let v ← eval left
      let w ← eval right
      binaryOperation env op v w) := by
    unfold binary
    split <;> simp_all [TokenKind.arithmetic?]
  have hvalues : binaryOperation env op = arithmetic arith op := by
    funext v w
    unfold binaryOperation
    split <;> simp_all [TokenKind.arithmetic?]
  rw [hnode, hvalues]

theorem Eval.arithmetic_integers (arith : ArithmeticOp) (x y : Int64) :
    arithmetic arith op (.int x) (.int y) =
      match arith.onNumbers (.int x) (.int y) with
      | some n => pure n.toValue
      | none => EvalM.fail op.location (.divisionByZero op.text) := by
  cases h : arith.onNumbers (.int x) (.int y) <;>
    simp [arithmetic, numberOperand, Value.toNumber?, EvalM.someOrFail, h]
  rfl

theorem Token.combines_of_some {arith : ArithmeticOp} {x y : Int64} {n : Number}
    (h : op.kind.arithmetic? = some arith) (hn : arith.onNumbers (.int x) (.int y) = some n) :
    op.Combines env limit (.int x) (.int y) (.ok n.toValue) := by
  intro depth left right past calls calls' hleft hright
  show (binary env _ left op right).runOn past = _
  rw [binary_of_arithmetic h, EvalM.runOn_bind_ok hleft, EvalM.runOn_bind_ok hright,
    arithmetic_integers, hn]
  rfl

theorem Token.combines_of_none {arith : ArithmeticOp} {x y : Int64}
    (h : op.kind.arithmetic? = some arith) (hn : arith.onNumbers (.int x) (.int y) = none) :
    op.Combines env limit (.int x) (.int y) (.error (.divisionByZero op.text)) := by
  intro depth left right past calls calls' hleft hright
  show (binary env _ left op right).runOn past = _
  rw [binary_of_arithmetic h, EvalM.runOn_bind_ok hleft, EvalM.runOn_bind_ok hright,
    arithmetic_integers, hn]
  rfl

theorem Token.combines_exactly {arith : ArithmeticOp} {x y : Int64} {P : Int → Prop}
    (h : op.kind.arithmetic? = some arith)
    (hn : ∃ n, arith.onNumbers (.int x) (.int y) = some n ∧ n.toValue.IsExact P) :
    ∃ v, op.Combines env limit (.int x) (.int y) (.ok v) ∧ v.IsExact P := by
  obtain ⟨n, hresult, hexact⟩ := hn
  exact ⟨n.toValue, combines_of_some h hresult, hexact⟩

/-- An exact integer is the result. -/
theorem Token.combines_integer {arith : ArithmeticOp} {x y n : Int64}
    (h : op.kind.arithmetic? = some arith) (hmod : arith ≠ .mod) (hdiv : arith ≠ .div)
    (hn : arith.onIntegers? x.toInt y.toInt = some n) :
    op.Combines env limit (.int x) (.int y) (.ok (.int n)) := by
  have hresult : arith.onNumbers (.int x) (.int y) = _ :=
    ArithmeticOp.onNumbers_integers hmod fun h => absurd h hdiv
  rw [hn] at hresult
  exact combines_of_some h hresult

theorem Token.turns_minus (h : op.kind = .minus) (x : Int64) :
    op.Turns env limit (.int x) (.ok (Number.int x).negate.toValue) := by
  intro depth operand past calls hrun
  have hvalue : unaryOperation op (.int x) = pure (Number.int x).negate.toValue := by
    simp [unaryOperation, h, Value.toNumber?, EvalM.someOrFail]
  rw [Expr.evaluateWithin, node, EvalM.runOn_bind_ok hrun, hvalue]
  rfl

end Trees

/-! ## The quotient of the library -/

namespace Library

/-- The function is found under every name that leads to it. -/
theorem invoke_intdiv {name : String} (hname : canonicalName name = "intdiv") (x y : Int64) :
    standard.invoke name [.int x, .int y] = integerQuotient ⟨"intdiv", [.int x, .int y]⟩ := by
  have hentry : standard.get? name = some (entry "intdiv" 2 2 integerQuotient).2 := by
    rw [FunctionTable.get?, hname]
    rfl
  rw [FunctionTable.invoke, hentry]
  rfl

/-- Only one quotient of 64-bit integers has more than 64 bits. -/
theorem fit64?_tdiv {x y : Int64} (h : x ≠ Int64.minValue ∨ y ≠ -1) :
    ∃ q, fit64? (x.toInt.tdiv y.toInt) = some q := by
  have hlow := x.le_toInt
  have hhigh := x.toInt_lt
  suffices hfits : -9223372036854775808 ≤ x.toInt.tdiv y.toInt ∧
      x.toInt.tdiv y.toInt < 9223372036854775808 from exists_fit64? hfits.1 hfits.2
  by_cases hone : y.toInt = 1
  · rw [hone, Int.tdiv_one]
    exact ⟨hlow, hhigh⟩
  by_cases hminus : y.toInt = -1
  · have hx : x.toInt ≠ Int64.minValue.toInt := by
      intro heq
      rcases h with h | h
      · exact h (Int64.toInt_inj.mp heq)
      · exact h (Int64.toInt_inj.mp (hminus.trans (by decide)))
    rw [Int64.toInt_minValue] at hx
    rw [hminus, Int.tdiv_neg, Int.tdiv_one]
    omega
  · -- A divisor of another magnitude halves the dividend at least, unless it is zero.
    have hquotient : (x.toInt.tdiv y.toInt).natAbs = x.toInt.natAbs / y.toInt.natAbs :=
      Int.natAbs_tdiv _ _
    have hhalf : x.toInt.natAbs / y.toInt.natAbs ≤ x.toInt.natAbs / 2 := by
      rcases Nat.eq_zero_or_pos y.toInt.natAbs with hzero | hpos
      · simp [hzero]
      · exact Nat.div_le_div_left (by omega) (by decide)
    rw [← hquotient] at hhalf
    omega

/-- The product of the quotient and the divisor has 64 bits again: it lies between zero and the
dividend. -/
theorem fit64?_tdiv_mul (x y : Int64) : ∃ p, fit64? (x.toInt.tdiv y.toInt * y.toInt) = some p := by
  have hlow := x.le_toInt
  have hhigh := x.toInt_lt
  have hsum := Int.tdiv_mul_add_tmod x.toInt y.toInt
  have hproduct : (x.toInt.tdiv y.toInt * y.toInt).natAbs ≤ x.toInt.natAbs := by
    rw [Int.natAbs_mul, Int.natAbs_tdiv]
    exact Nat.div_mul_le_self _ _
  have hremainder : (x.toInt.tmod y.toInt).natAbs ≤ x.toInt.natAbs := by
    rw [Int.natAbs_tmod]
    exact Nat.mod_le _ _
  exact exists_fit64? (by omega) (by omega)

theorem integerQuotient_integers {x y : Int64} (hy : y ≠ 0)
    (h : x ≠ Int64.minValue ∨ y ≠ -1) :
    ∃ q : Int64, q.toInt = x.toInt.tdiv y.toInt ∧
      integerQuotient ⟨"intdiv", [.int x, .int y]⟩ = .ok (.int q) := by
  obtain ⟨q, hq⟩ := fit64?_tdiv h
  refine ⟨q, toInt_of_fit64? hq, ?_⟩
  have hdividend : Arguments.int ⟨"intdiv", [.int x, .int y]⟩ 0 = .ok x := rfl
  have hdivisor : Arguments.int ⟨"intdiv", [.int x, .int y]⟩ 1 = .ok y := rfl
  rw [integerQuotient, hdividend, hdivisor]
  simp only [bind, Except.bind]
  rw [if_neg hy, hq]
  rfl

end Library

/-! ## All operators -/

/-- **Integers yield exact integers, or floats.** A sum, difference or product is the exact
integer, a quotient the integer that multiplied by the divisor gives the dividend, and a float
stands only where there is no such 64-bit integer. A remainder is always an integer. Division by
zero is a fault. The quotient of the library goes with the remainder of the evaluator: its
product with the divisor and the remainder add up to the dividend again, without a float on the
way. -/
theorem integer_arithmetic_is_exact (env : Environment) (limit : Nat) (x y : Int64) :
    (∀ op : Token, op.kind = .plus → ∃ v,
      op.Combines env limit (.int x) (.int y) (.ok v) ∧ v.IsExact (· = x.toInt + y.toInt)) ∧
    (∀ op : Token, op.kind = .minus → ∃ v,
      op.Combines env limit (.int x) (.int y) (.ok v) ∧ v.IsExact (· = x.toInt - y.toInt)) ∧
    (∀ op : Token, op.kind = .star → ∃ v,
      op.Combines env limit (.int x) (.int y) (.ok v) ∧ v.IsExact (· = x.toInt * y.toInt)) ∧
    (∀ op : Token, op.kind = .slash →
      (y = 0 → op.Combines env limit (.int x) (.int y) (.error (.divisionByZero op.text))) ∧
      (y ≠ 0 → ∃ v, op.Combines env limit (.int x) (.int y) (.ok v) ∧
        v.IsExact (x.toInt = · * y.toInt))) ∧
    (∀ op : Token, op.kind = .percent →
      (y = 0 → op.Combines env limit (.int x) (.int y) (.error (.divisionByZero op.text))) ∧
      (y ≠ 0 → ∃ r : Int64, op.Combines env limit (.int x) (.int y) (.ok (.int r)) ∧
        r.toInt = x.toInt.tmod y.toInt ∧ r.toInt.natAbs < y.toInt.natAbs ∧
        (r = 0 ∨ r.toInt.sign = x.toInt.sign))) ∧
    (∀ op : Token, op.kind = .minus →
      (x ≠ Int64.minValue → ∃ n : Int64, op.Turns env limit (.int x) (.ok (.int n)) ∧
        n.toInt = -x.toInt) ∧
      (x = Int64.minValue → ∃ z, op.Turns env limit (.int x) (.ok (.float z)))) ∧
    (y ≠ 0 → (x ≠ Int64.minValue ∨ y ≠ -1) → ∃ q p r : Int64,
      (∀ name, canonicalName name = "intdiv" →
        Library.standard.invoke name [.int x, .int y] = .ok (.int q)) ∧
      (∀ op : Token, op.kind = .star →
        op.Combines env limit (.int q) (.int y) (.ok (.int p))) ∧
      (∀ op : Token, op.kind = .percent →
        op.Combines env limit (.int x) (.int y) (.ok (.int r))) ∧
      (∀ op : Token, op.kind = .plus →
        op.Combines env limit (.int p) (.int r) (.ok (.int x)))) := by
  refine ⟨?plus, ?minus, ?star, ?slash, ?percent, ?negative, ?intdiv⟩
  case plus =>
    intro op hop
    have harith : op.kind.arithmetic? = some .add := by rw [hop]; rfl
    exact Token.combines_exactly harith
      (ArithmeticOp.exists_onNumbers_of_fit64 (by decide) (by decide) rfl)
  case minus =>
    intro op hop
    have harith : op.kind.arithmetic? = some .sub := by rw [hop]; rfl
    exact Token.combines_exactly harith
      (ArithmeticOp.exists_onNumbers_of_fit64 (by decide) (by decide) rfl)
  case star =>
    intro op hop
    have harith : op.kind.arithmetic? = some .mul := by rw [hop]; rfl
    exact Token.combines_exactly harith
      (ArithmeticOp.exists_onNumbers_of_fit64 (by decide) (by decide) rfl)
  case slash =>
    intro op hop
    have harith : op.kind.arithmetic? = some .div := by rw [hop]; rfl
    constructor
    · rintro rfl
      exact Token.combines_of_none harith (ArithmeticOp.div_by_zero _)
    · intro hy
      exact Token.combines_exactly harith (ArithmeticOp.exists_onNumbers_div hy)
  case percent =>
    intro op hop
    have harith : op.kind.arithmetic? = some .mod := by rw [hop]; rfl
    constructor
    · rintro rfl
      exact Token.combines_of_none harith (ArithmeticOp.mod_by_zero _)
    · intro hy
      exact ⟨x % y, Token.combines_of_some harith (ArithmeticOp.onNumbers_mod hy),
        Int64.toInt_mod x y, natAbs_mod_lt hy⟩
  case negative =>
    intro op hop
    have hturns : op.Turns env limit (.int x) _ := Token.turns_minus hop x
    constructor
    · intro hx
      obtain ⟨n, hn⟩ := fit64?_neg hx
      rw [Number.negate, hn] at hturns
      exact ⟨n, hturns, toInt_of_fit64? hn⟩
    · rintro rfl
      exact ⟨_, hturns⟩
  case intdiv =>
    intro hy h
    obtain ⟨q, hq, hquotient⟩ := Library.integerQuotient_integers hy h
    obtain ⟨p, hp⟩ := Library.fit64?_tdiv_mul x y
    have hsum : p.toInt + (x % y).toInt = x.toInt := by
      rw [toInt_of_fit64? hp, Int64.toInt_mod, Int.tdiv_mul_add_tmod]
    refine ⟨q, p, x % y, ?_, ?_, ?_, ?_⟩
    · intro name hname
      rw [Library.invoke_intdiv hname, hquotient]
    · intro op hop
      have harith : op.kind.arithmetic? = some .mul := by rw [hop]; rfl
      exact Token.combines_integer harith (by decide) (by decide)
        (by rw [ArithmeticOp.onIntegers?, hq, hp])
    · intro op hop
      exact Token.combines_of_some (by rw [hop]; rfl) (ArithmeticOp.onNumbers_mod hy)
    · intro op hop
      have harith : op.kind.arithmetic? = some .add := by rw [hop]; rfl
      exact Token.combines_integer harith (by decide) (by decide)
        (by rw [ArithmeticOp.onIntegers?, hsum, fit64?_toInt])

/-- One more than the greatest integer is a float. -/
theorem beyond_greatest_integer_is_float :
    ∃ z, ((Expr.binary (.variable ⟨.variable, "$x", ⟨0, 2, 1, 1⟩⟩) ⟨.plus, "+", ⟨3, 1, 1, 4⟩⟩
        (.variable ⟨.variable, "$y", ⟨5, 2, 1, 6⟩⟩)).evaluate
      ⟨.ofList [("x", .int Int64.maxValue), ("y", .int 1)], .absent, .empty⟩ 2).runOn [] =
        (.ok (.float z), []) := by
  obtain ⟨v, hcombines, hexact⟩ := (integer_arithmetic_is_exact
    ⟨.ofList [("x", .int Int64.maxValue), ("y", .int 1)], .absent, .empty⟩ 2
    Int64.maxValue 1).1 ⟨.plus, "+", ⟨3, 1, 1, 4⟩⟩ rfl
  have hrun := hcombines 1 (.variable ⟨.variable, "$x", ⟨0, 2, 1, 1⟩⟩)
    (.variable ⟨.variable, "$y", ⟨5, 2, 1, 6⟩⟩) [] [] [] rfl rfl
  cases hexact with
  | float _ => exact ⟨_, hrun⟩
  | @int n hn =>
      have hmax := n.toInt_le
      have hone : (1 : Int64).toInt = 1 := by decide
      omega

end GuardedExpr
