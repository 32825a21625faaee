import Autodiff.Proofs.Calculus.Dual
import Autodiff.Proofs.Exact

/-!
# Derivatives by running the operations on dual numbers

The formulas for results are written for any number type, and dual numbers are one.  Run on them,
the rational operations compute with each result its derivative along the tangents of the
operands, and this is what the formulas for the partial derivatives give.  For powers it holds
because repeated squaring is multiplication over and over in every monoid, so one lemma serves the
numbers and the dual numbers.
-/

open TrivSqZeroExt

namespace Autodiff

variable {F : Type} [ExactField F]

/-! ## Dual numbers as numbers of a tape -/

/-- Quotients are products with the inverse, which has a meaning where the value is not zero. -/
instance dualDiv : Div (DualNumber F) := ⟨fun a b => a * b⁻¹⟩

/-- Functions that are not rational see the values only. -/
instance dualElementary [Elementary F] : Elementary (DualNumber F) where
  atMost a b := Elementary.atMost a.fst b.fst
  absolute a := inl (Elementary.absolute a.fst)
  signOf a := inl (Elementary.signOf a.fst)
  squareRoot a := inl (Elementary.squareRoot a.fst)
  realPower a b := inl (Elementary.realPower a.fst b.fst)
  angle a b := inl (Elementary.angle a.fst b.fst)
  hypotenuse a b := inl (Elementary.hypotenuse a.fst b.fst)
  exponential a := inl (Elementary.exponential a.fst)
  naturalLog a := inl (Elementary.naturalLog a.fst)
  sine a := inl (Elementary.sine a.fst)
  cosine a := inl (Elementary.cosine a.fst)
  tangent a := inl (Elementary.tangent a.fst)
  arcSine a := inl (Elementary.arcSine a.fst)
  arcCosine a := inl (Elementary.arcCosine a.fst)
  arcTangent a := inl (Elementary.arcTangent a.fst)
  hyperbolicSine a := inl (Elementary.hyperbolicSine a.fst)
  hyperbolicCosine a := inl (Elementary.hyperbolicCosine a.fst)
  hyperbolicTangent a := inl (Elementary.hyperbolicTangent a.fst)

/-- What was divided is found again, so there is no other quotient than this one. -/
theorem div_mul_cancel_dual {a b : DualNumber F} (h : b.fst ≠ 0) : a / b * b = a := by
  show a * b⁻¹ * b = a
  rw [mul_assoc, TrivSqZeroExt.inv_mul_cancel h, mul_one]

theorem inv_pow_dual (a : DualNumber F) (k : ℕ) : (a ^ k)⁻¹ = a⁻¹ ^ k := by
  induction k with
  | zero => rw [pow_zero, pow_zero, TrivSqZeroExt.inv_one]
  | succ k ih => rw [pow_succ, TrivSqZeroExt.mul_inv_rev, ih, pow_succ']

theorem power_dual (a : DualNumber F) (n : ℤ) :
    power a n = if 0 ≤ n then a ^ n.toNat else a⁻¹ ^ n.natAbs := by
  unfold power
  by_cases hone : n = 1
  · subst hone
    exact (pow_one a).symm
  -- Below zero the power is inverted, and this is the power of the inverse.
  · have hpow : powerAux 1 a n.natAbs = a ^ n.natAbs :=
      (powerAux_eq_mul_pow 1 a n.natAbs).trans (one_mul _)
    rw [if_neg hone, hpow]
    by_cases hneg : n < 0
    · have hsign : ¬0 ≤ n := by omega
      rw [if_pos hneg, if_neg hsign, ← inv_pow_dual]
      exact one_mul _
    · have hsign : 0 ≤ n := by omega
      have hn : n.natAbs = n.toNat := by omega
      rw [if_neg hneg, if_pos hsign, hn]

namespace Operation

variable [Elementary F]

/-- A unary operation does not depend on its second operand. -/
theorem snd_partials_of_unary {op : Operation} (h : op.isBinary = false) (a b r : F) :
    (op.partials a b r).2 = 0 := by
  cases op with
  | add | sub | mul | div | realPower | angle | hypotenuse | max | min => exact Bool.noConfusion h
  | neg | recip | sqrt | power n | exp | log | sin | cos | tan | arcSin | arcCos | arcTan | sinh
  | cosh | tanh | abs => rfl

variable [Elementary (DualNumber F)]

/-- Only the rational operations are needed, so it does not matter what the other functions do. -/
theorem value_eq_onDual {op : Operation} {a b : DualNumber F} (h : op.Regular a.fst b.fst) :
    op.value a b = op.onDual a b := by
  cases op with
  | add | sub | mul | div | neg => rfl
  | recip => exact one_mul a⁻¹
  | power n => exact power_dual a n.toInt
  | _ => exact absurd h id

/-! ## Main statement -/

/-- A rational operation on dual numbers, where no denominator is zero, has the result of the same
operation on the values as its value, and the sum of the tangents weighted with the partial
derivatives as its tangent.  A unary operation takes nothing from its second operand. -/
theorem rational_partials_are_derivatives {op : Operation} {a b : F} (h : op.Regular a b)
    (a' b' : F) :
    op.value (inl a + inr a' : DualNumber F) (inl b + inr b') =
      inl (op.value a b) +
        inr ((op.partials a b (op.value a b)).1 * a' +
          (op.partials a b (op.value a b)).2 * b') ∧
    (op.isBinary = false → (op.partials a b (op.value a b)).2 = 0) := by
  have hfst (x x' : F) : (inl x + inr x' : DualNumber F).fst = x := by simp
  have hsnd (x x' : F) : (inl x + inr x' : DualNumber F).snd = x' := by simp
  have hregular : op.Regular (inl a + inr a' : DualNumber F).fst (inl b + inr b').fst := by
    rw [hfst, hfst]
    exact h
  refine ⟨?_, fun hunary => snd_partials_of_unary hunary a b _⟩
  have hvalue := fst_onDual hregular
  have htangent := snd_onDual hregular
  rw [hfst, hfst] at hvalue
  rw [hfst, hfst, hsnd, hsnd] at htangent
  rw [value_eq_onDual hregular, ← inl_fst_add_inr_snd_eq (op.onDual _ _), hvalue, htangent]

/-- The power with the smallest exponent, whose predecessor is out of range, at minus one, and one
with a negative exponent that has a predecessor. -/
theorem rational_partials_are_derivatives_of_smallest_exponent :
    (power Int32.minValue).Regular (-1 : ℚ) 0 ∧ (power (-3)).Regular (2 : ℚ) 0 ∧
    (power Int32.minValue).value (inl (-1) + inr 1 : DualNumber ℚ) (inl 0 + inr 1) =
      inl 1 + inr 2147483648 ∧
    (power (-3)).value (inl 2 + inr 1 : DualNumber ℚ) (inl 0 + inr 1) =
      inl (1 / 8) + inr (-3 / 16) := by
  have hleast : (power Int32.minValue).Regular (-1 : ℚ) 0 := fun _ => by norm_num
  have hcube : (power (-3)).Regular (2 : ℚ) 0 := fun _ => by norm_num
  refine ⟨hleast, hcube, ?_, ?_⟩
  · rw [(rational_partials_are_derivatives hleast 1 1).1]
    show inl (Autodiff.power (-1 : ℚ) Int32.minValue.toInt) +
      inr (powerPartial (-1 : ℚ) Int32.minValue * 1 + 0 * 1) = _
    rw [powerPartial_eq hleast, power_eq_zpow]
    have hn : Int32.minValue.toInt = -2147483648 := rfl
    have heven : Even (-2147483648 : ℤ) := ⟨-1073741824, rfl⟩
    have hodd : Odd (-2147483648 - 1 : ℤ) := ⟨-1073741825, rfl⟩
    rw [hn, heven.neg_one_zpow, hodd.neg_one_zpow]
    norm_num
  · rw [(rational_partials_are_derivatives hcube 1 1).1]
    show inl (Autodiff.power (2 : ℚ) (-3 : Int32).toInt) +
      inr (powerPartial (2 : ℚ) (-3) * 1 + 0 * 1) = _
    rw [powerPartial_eq hcube, power_eq_zpow]
    have hn : (-3 : Int32).toInt = -3 := rfl
    rw [hn]
    norm_num

end Operation

end Autodiff
