import Autodiff.Calculus.Operation
import Mathlib.Algebra.DualNumber
import Mathlib.Tactic.FieldSimp

/-!
# Operations on dual numbers

A dual number is a value with a tangent, and the arithmetic of dual numbers carries tangents along
without any table of derivatives.  On the rational operations it agrees with the formulas of
`Operation.partials` wherever no denominator is zero.
-/

open TrivSqZeroExt

/-- A field in the sense of algebra. In the library itself a `Field` is a piece of a block. -/
abbrev ExactField (F : Type) := Field F

namespace Autodiff

/-! ## Integer powers -/

theorem powerAux_eq_mul_pow {M : Type} [Monoid M] (r a : M) (p : Nat) :
    powerAux r a p = r * a ^ p := by
  induction p using Nat.strong_induction_on generalizing r a with
  | _ p ih =>
    by_cases hp : p < 2
    · rw [powerAux_of_lt_two r a hp]
      obtain rfl | rfl : p = 0 ∨ p = 1 := by omega
      · rw [if_neg (by decide), pow_zero, mul_one]
      · rw [if_pos rfl, pow_one]
    · have hhalf : p / 2 ≠ 0 := by omega
      have hpow : a ^ p = a ^ (p % 2) * (a * a) ^ (p / 2) := by
        rw [← pow_two, ← pow_mul, ← pow_add, Nat.mod_add_div]
      rw [powerAux, if_neg hhalf, ih (p / 2) (by omega), hpow]
      rcases Nat.mod_two_eq_zero_or_one p with hmod | hmod
      · rw [hmod, if_neg (by decide), pow_zero, one_mul]
      · rw [hmod, if_pos rfl, pow_one, mul_assoc]

variable {F : Type} [ExactField F]

theorem power_eq_zpow (a : F) (n : ℤ) : power a n = a ^ n := by
  unfold power
  by_cases hone : n = 1
  · rw [if_pos hone, hone, zpow_one]
  · rw [if_neg hone, powerAux_eq_mul_pow, one_mul]
    by_cases hneg : n < 0
    · have hn : n = -(n.natAbs : ℤ) := by omega
      rw [if_pos hneg]
      conv_rhs => rw [hn]
      rw [zpow_neg, zpow_natCast, one_div]
    · have hn : n = (n.natAbs : ℤ) := by omega
      rw [if_neg hneg]
      conv_rhs => rw [hn]
      rw [zpow_natCast]

theorem powerPartial_eq {a : F} {n : Int32} (h : n.toInt < 0 → a ≠ 0) :
    Operation.powerPartial a n = (n.toInt : F) * a ^ (n.toInt - 1) := by
  unfold Operation.powerPartial
  by_cases hzero : n = 0
  · subst hzero
    simp
  · rw [if_neg hzero]
    -- The smallest exponent has no predecessor and is treated apart; the power is the same.
    by_cases hmin : n = Int32.minValue
    · have ha : a ≠ 0 := h (by rw [hmin]; decide)
      rw [if_pos hmin, power_eq_zpow, zpow_sub_one₀ ha, div_eq_mul_inv]
    · rw [if_neg hmin, power_eq_zpow]

namespace Operation

/-! ## Dual numbers -/

/-- A rational operation without a zero denominator. -/
def Regular (op : Operation) (a b : F) : Prop :=
  match op with
  | add | sub | mul | neg => True
  | div => b ≠ 0
  | recip => a ≠ 0
  | power n => n.toInt < 0 → a ≠ 0
  | _ => False

instance [DecidableEq F] (op : Operation) (a b : F) : Decidable (op.Regular a b) :=
  match op with
  | add | sub | mul | neg => .isTrue trivial
  | div => inferInstanceAs (Decidable (b ≠ 0))
  | recip => inferInstanceAs (Decidable (a ≠ 0))
  | power n => inferInstanceAs (Decidable (n.toInt < 0 → a ≠ 0))
  | realPower | angle | hypotenuse | max | min | sqrt | exp | log | sin | cos | tan | arcSin
  | arcCos | arcTan | sinh | cosh | tanh | abs => .isFalse id

variable [Elementary F]

/-- The rational operations on dual numbers; the others keep no tangent. -/
def onDual (op : Operation) (a b : DualNumber F) : DualNumber F :=
  match op with
  | add => a + b
  | sub => a - b
  | mul => a * b
  | div => a * b⁻¹
  | neg => -a
  | recip => a⁻¹
  | power n => if 0 ≤ n.toInt then a ^ n.toInt.toNat else a⁻¹ ^ n.toInt.natAbs
  | _ => inl (op.value a.fst b.fst)

theorem fst_onDual {op : Operation} {a b : DualNumber F} (h : op.Regular a.fst b.fst) :
    (op.onDual a b).fst = op.value a.fst b.fst := by
  cases op with
  | add | sub | mul | neg => rfl
  | div => exact (div_eq_mul_inv a.fst b.fst).symm
  | recip => exact (one_div a.fst).symm
  | power n =>
    show (if 0 ≤ n.toInt then a ^ n.toInt.toNat else a⁻¹ ^ n.toInt.natAbs).fst =
      Autodiff.power a.fst n.toInt
    rw [power_eq_zpow]
    by_cases hn : 0 ≤ n.toInt
    · rw [if_pos hn, fst_pow, ← zpow_natCast, Int.toNat_of_nonneg hn]
    · have habs : n.toInt = -(n.toInt.natAbs : ℤ) := by omega
      rw [if_neg hn, fst_pow, fst_inv]
      conv_rhs => rw [habs]
      rw [zpow_neg, zpow_natCast, inv_pow]
  | _ => exact absurd h id

theorem snd_onDual_power {a b : DualNumber F} {n : Int32} (h : n.toInt < 0 → a.fst ≠ 0) :
    ((power n).onDual a b).snd = (n.toInt : F) * a.fst ^ (n.toInt - 1) * a.snd := by
  show (if 0 ≤ n.toInt then a ^ n.toInt.toNat else a⁻¹ ^ n.toInt.natAbs).snd = _
  by_cases hn : 0 ≤ n.toInt
  -- The exponent zero has derivative zero also where the base is zero.
  · obtain ⟨k, hk⟩ := Int.eq_ofNat_of_zero_le hn
    rw [if_pos hn, hk, Int.toNat_natCast, snd_pow]
    cases k with
    | zero => simp
    | succ k =>
      have hpred : ((k + 1 : ℕ) : ℤ) - 1 = (k : ℤ) := by omega
      rw [hpred, zpow_natCast]
      simp only [Nat.pred_succ, smul_eq_mul, nsmul_eq_mul]
      push_cast
      ring
  · have ha : a.fst ≠ 0 := h (by omega)
    obtain ⟨k, hk⟩ : ∃ k : ℕ, n.toInt = -((k : ℤ) + 1) := ⟨(n.toInt.natAbs - 1), by omega⟩
    have habs : n.toInt.natAbs = k + 1 := by omega
    have hexponent : -((k : ℤ) + 1) - 1 = -((k + 2 : ℕ) : ℤ) := by
      push_cast
      ring
    rw [if_neg hn, habs, snd_pow, fst_inv, snd_inv, hk, hexponent, zpow_neg, zpow_natCast]
    simp only [Nat.pred_succ, smul_eq_mul, nsmul_eq_mul, MulOpposite.smul_eq_mul_unop,
      MulOpposite.unop_op, inv_pow]
    push_cast
    field_simp
    ring

/-- The formulas for derivatives are those of dual numbers. -/
theorem snd_onDual {op : Operation} {a b : DualNumber F} (h : op.Regular a.fst b.fst) :
    (op.onDual a b).snd =
      (op.partials a.fst b.fst (op.value a.fst b.fst)).1 * a.snd +
        (op.partials a.fst b.fst (op.value a.fst b.fst)).2 * b.snd := by
  cases op with
  | add =>
    show a.snd + b.snd = 1 * a.snd + 1 * b.snd
    ring
  | sub =>
    show a.snd - b.snd = 1 * a.snd + -1 * b.snd
    ring
  | mul =>
    show (a * b).snd = b.fst * a.snd + a.fst * b.snd
    rw [DualNumber.snd_mul]
    ring
  | div =>
    have hb : b.fst ≠ 0 := h
    show (a * b⁻¹).snd =
      1 / b.fst * a.snd + -a.fst * (1 / b.fst) * (1 / b.fst) * b.snd
    rw [DualNumber.snd_mul, fst_inv, snd_inv]
    simp only [smul_eq_mul, MulOpposite.smul_eq_mul_unop, MulOpposite.unop_op]
    field_simp
    ring
  | neg =>
    show -a.snd = -1 * a.snd + 0 * b.snd
    ring
  | recip =>
    have ha : a.fst ≠ 0 := h
    show (a⁻¹).snd = -(1 / a.fst) * (1 / a.fst) * a.snd + 0 * b.snd
    rw [snd_inv]
    simp only [smul_eq_mul, MulOpposite.smul_eq_mul_unop, MulOpposite.unop_op]
    field_simp
    ring
  | power n =>
    show _ = powerPartial a.fst n * a.snd + 0 * b.snd
    rw [snd_onDual_power h, powerPartial_eq h, zero_mul, add_zero]
  | _ => exact absurd h id

end Operation

end Autodiff
