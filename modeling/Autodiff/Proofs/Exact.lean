import Autodiff.Calculus.Scalar
import Mathlib.Algebra.Order.Field.Rat

/-!
# Exact numbers

Integers and rationals as the numbers of a tape.  Functions without exact values are zero, so that
only the rational operations mean something here.
-/

namespace Autodiff

@[reducible] def FixedWidth.exact (F : Type) [NatCast F] : FixedWidth F where
  width := 8
  ofBits n := n
  signalling _ := false

@[reducible] def Elementary.exact (F : Type) [Zero F] [One F] [Neg F] [LinearOrder F] :
    Elementary F where
  atMost a b := decide (a ≤ b)
  absolute a := max a (-a)
  signOf a := if a < 0 then -1 else 1
  squareRoot _ := 0
  realPower _ _ := 0
  angle _ _ := 0
  hypotenuse _ _ := 0
  exponential _ := 0
  naturalLog _ := 0
  sine _ := 0
  cosine _ := 0
  tangent _ := 0
  arcSine _ := 0
  arcCosine _ := 0
  arcTangent _ := 0
  hyperbolicSine _ := 0
  hyperbolicCosine _ := 0
  hyperbolicTangent _ := 0

instance : FixedWidth Int := .exact Int

instance : FixedWidth ℚ := .exact ℚ

instance : Elementary Int := .exact Int

instance : Elementary ℚ := .exact ℚ

end Autodiff
