import Autodiff.Calculus.Scalar

/-!
# Elementary operations and their partial derivatives

An operation is a tag.  `Operation.value` computes its result and `Operation.partials` the two
local derivatives; both work over any number type, so the same formulas serve floating point and
exact arithmetic.
-/

namespace Autodiff

/-- Elementary operations.  The exponent of an integer power is part of the operation. -/
inductive Operation where
  | add
  | sub
  | mul
  | div
  | realPower
  | angle
  | hypotenuse
  | max
  | min
  | neg
  | recip
  | sqrt
  | power (exponent : Int32)
  | exp
  | log
  | sin
  | cos
  | tan
  | arcSin
  | arcCos
  | arcTan
  | sinh
  | cosh
  | tanh
  | abs
  deriving DecidableEq

/-! ## Integer powers -/

/-- `r` times `a` to the power `p`, by repeated squaring from the lowest bit of `p`.  The base is
not squared once more after the last bit. -/
def powerAux {F : Type} [Mul F] (r a : F) (p : Nat) : F :=
  let r := if p % 2 = 1 then r * a else r
  if p / 2 = 0 then r else powerAux r (a * a) (p / 2)
termination_by p
decreasing_by omega

/-- An integer power; a negative exponent takes the reciprocal of the positive power.  The first
power is the base itself, not a product with one. -/
def power {F : Type} [One F] [Mul F] [Div F] (a : F) (n : Int) : F :=
  if n = 1 then a
  else
    let p := powerAux 1 a n.natAbs
    if n < 0 then 1 / p else p

theorem powerAux_of_lt_two {F : Type} [Mul F] (r a : F) {p : Nat} (h : p < 2) :
    powerAux r a p = if p = 1 then r * a else r := by
  rw [powerAux]
  have hdiv : p / 2 = 0 := by omega
  have hmod : p % 2 = p := by omega
  simp [hdiv, hmod]

theorem power_zero {F : Type} [One F] [Mul F] [Div F] (a : F) : power a 0 = 1 := by
  simp [power, powerAux_of_lt_two]

theorem power_one {F : Type} [One F] [Mul F] [Div F] (a : F) : power a 1 = a := by
  simp [power]

namespace Operation

/-- Whether the second operand takes part in the operation. -/
def isBinary : Operation → Bool
  | add | sub | mul | div | realPower | angle | hypotenuse | max | min => true
  | _ => false

def text : Operation → String
  | add => "Add"
  | sub => "Sub"
  | mul => "Mul"
  | div => "Div"
  | realPower => "Powf"
  | angle => "Atan2"
  | hypotenuse => "Hypot"
  | max => "Max"
  | min => "Min"
  | neg => "Neg"
  | recip => "Recip"
  | sqrt => "Sqrt"
  | power n => "Powi(" ++ toString n.toInt ++ ")"
  | exp => "Exp"
  | log => "Ln"
  | sin => "Sin"
  | cos => "Cos"
  | tan => "Tan"
  | arcSin => "Asin"
  | arcCos => "Acos"
  | arcTan => "Atan"
  | sinh => "Sinh"
  | cosh => "Cosh"
  | tanh => "Tanh"
  | abs => "Abs"

def plain : List Operation :=
  [add, sub, mul, div, realPower, angle, hypotenuse, max, min, neg, recip, sqrt, exp, log, sin,
    cos, tan, arcSin, arcCos, arcTan, sinh, cosh, tanh, abs]

def named? (name : String) : Option Operation :=
  plain.find? fun op => op.text == name

section Formulas

variable {F : Type} [Zero F] [One F] [Add F] [Sub F] [Mul F] [Div F] [Neg F] [IntCast F]
  [Elementary F]

open Elementary

/-- The result of the operation.  `max` and `min` return their second operand whenever the
comparison fails, so in particular when one operand is a NaN. -/
def value (op : Operation) (a b : F) : F :=
  match op with
  | add => a + b
  | sub => a - b
  | mul => a * b
  | div => a / b
  | realPower => Elementary.realPower a b
  | angle => Elementary.angle a b
  | hypotenuse => Elementary.hypotenuse a b
  | max => if atMost b a then a else b
  | min => if atMost a b then a else b
  | neg => -a
  | recip => 1 / a
  | sqrt => squareRoot a
  | power n => Autodiff.power a n.toInt
  | exp => exponential a
  | log => naturalLog a
  | sin => sine a
  | cos => cosine a
  | tan => tangent a
  | arcSin => arcSine a
  | arcCos => arcCosine a
  | arcTan => arcTangent a
  | sinh => hyperbolicSine a
  | cosh => hyperbolicCosine a
  | tanh => hyperbolicTangent a
  | abs => absolute a

/-- The derivative of `a ^ n`.  The exponent zero has derivative zero even at `a = 0`; for the
smallest exponent `n - 1` is out of range, and the power is divided once more instead. -/
def powerPartial (a : F) (n : Int32) : F :=
  if n = 0 then 0
  else
    let below := if n = Int32.minValue then Autodiff.power a n.toInt / a
      else Autodiff.power a (n.toInt - 1)
    (n.toInt : F) * below

/-- The derivatives of the result `r` by the first and by the second operand. -/
def partials (op : Operation) (a b r : F) : F × F :=
  match op with
  | add => (1, 1)
  | sub => (1, -1)
  | mul => (b, a)
  | div =>
    let inv := 1 / b
    (inv, -a * inv * inv)
  | realPower => (b * Elementary.realPower a (b - 1), r * naturalLog a)
  | angle =>
    let denom := a * a + b * b
    (b / denom, -a / denom)
  | hypotenuse => (a / r, b / r)
  | max => if atMost b a then (1, 0) else (0, 1)
  | min => if atMost a b then (1, 0) else (0, 1)
  | neg => (-1, 0)
  | recip =>
    let inv := 1 / a
    (-inv * inv, 0)
  | sqrt => (1 / (r + r), 0)
  | power n => (powerPartial a n, 0)
  | exp => (r, 0)
  | log => (1 / a, 0)
  | sin => (cosine a, 0)
  | cos => (-sine a, 0)
  | tan =>
    let c := cosine a
    (1 / (c * c), 0)
  | arcSin => (1 / squareRoot (1 - a * a), 0)
  | arcCos => (-1 / squareRoot (1 - a * a), 0)
  | arcTan => (1 / (1 + a * a), 0)
  | sinh => (hyperbolicCosine a, 0)
  | cosh => (hyperbolicSine a, 0)
  | tanh => (1 - r * r, 0)
  | abs => (signOf a, 0)

end Formulas

end Operation

end Autodiff
