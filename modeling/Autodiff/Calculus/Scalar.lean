/-!
# Scalars — the numbers a tape can carry

Replay needs only zero, a sum, a product and a test against zero, so it is written for any type
with those instances.  `Elementary` adds the functions that the operations of the front end need
and that no arithmetic class provides.  Both IEEE formats are instances.
-/

namespace Autodiff

/-- Functions of a number type beyond its arithmetic.

`atMost a b` is the comparison `a ≤ b` of the type itself, so it is false whenever a NaN takes
part.  `signOf` is `1` or `-1` by the sign of its argument, zeros included. -/
class Elementary (F : Type) where
  atMost : F → F → Bool
  absolute : F → F
  signOf : F → F
  squareRoot : F → F
  realPower : F → F → F
  angle : F → F → F
  hypotenuse : F → F → F
  exponential : F → F
  naturalLog : F → F
  sine : F → F
  cosine : F → F
  tangent : F → F
  arcSine : F → F
  arcCosine : F → F
  arcTangent : F → F
  hyperbolicSine : F → F
  hyperbolicCosine : F → F
  hyperbolicTangent : F → F

/-- A number type whose values have a fixed number of bytes. -/
class FixedWidth (F : Type) where
  width : Nat
  /-- The value whose bit pattern is the given number. -/
  ofBits : Nat → F
  /-- Whether a bit pattern stands for a signalling NaN. -/
  signalling : Nat → Bool

/-! ## Double precision -/

/-- One correction step for `h ≈ √(a² + b²)` with `b ≤ a`: the error of `h` is read off the exact
differences `h - a` and `h - b` instead of from the rounded squares. -/
private def sharpen (a b : Float) : Float :=
  let h := (a * a + b * b).sqrt
  let excess :=
    if h <= 2.0 * b then
      let d := h - b
      a * (2.0 * d - a) + (d - 2.0 * (a - b)) * d
    else
      let d := h - a
      2.0 * d * (a - 2.0 * b) + ((4.0 * d - b) * b + d * d)
  h - excess / (2.0 * h)

/-- The length of the vector `(x, y)`.  An infinite component makes it infinite, whatever the
other one is.  Components near an end of the exponent range are scaled first.  A component below
the last place of the other one is only added to it. -/
def floatHypotenuse (x y : Float) : Float :=
  if x.isInf || y.isInf then 1.0 / 0.0
  else if x.isNaN || y.isNaN then x + y
  else
    let a := if x.abs < y.abs then y.abs else x.abs
    let b := if x.abs < y.abs then x.abs else y.abs
    if a > Float.scaleB 1.0 511 then
      if b <= a.scaleB (-54) then a + b
      else (sharpen (a.scaleB (-600)) (b.scaleB (-600))).scaleB 600
    else if b < Float.scaleB 1.0 (-459) then
      if b.scaleB 54 <= a then a + b
      else (sharpen (a.scaleB 600) (b.scaleB 600)).scaleB (-600)
    else if b <= a.scaleB (-54) then a + b
    else sharpen a b

instance floatIntCast : IntCast Float := ⟨Float.ofInt⟩

instance : Elementary Float where
  atMost a b := decide (a ≤ b)
  absolute := Float.abs
  signOf a := if a.isNaN then a else if a.toBits >>> 63 = 1 then -1.0 else 1.0
  squareRoot := Float.sqrt
  realPower := Float.pow
  angle := Float.atan2
  hypotenuse := floatHypotenuse
  exponential := Float.exp
  naturalLog := Float.log
  sine := Float.sin
  cosine := Float.cos
  tangent := Float.tan
  arcSine := Float.asin
  arcCosine := Float.acos
  arcTangent := Float.atan
  hyperbolicSine := Float.sinh
  hyperbolicCosine := Float.cosh
  hyperbolicTangent := Float.tanh

instance : FixedWidth Float where
  width := 8
  ofBits n := Float.ofBits (UInt64.ofNat n)
  signalling n :=
    let magnitude := n % 0x8000000000000000
    decide (0x7FF0000000000000 < magnitude ∧ magnitude < 0x7FF8000000000000)

/-! ## Single precision -/

/-- Squares of single-precision numbers are exact in double precision, so only the sum, the root
and the last conversion round. -/
def float32Hypotenuse (x y : Float32) : Float32 :=
  if x.isInf || y.isInf then 1.0 / 0.0
  else
    let a := x.toFloat
    let b := y.toFloat
    (a * a + b * b).sqrt.toFloat32

instance float32IntCast : IntCast Float32 := ⟨Float32.ofInt⟩

instance : Elementary Float32 where
  atMost a b := decide (a ≤ b)
  absolute := Float32.abs
  signOf a := if a.isNaN then a else if a.toBits >>> 31 = 1 then -1.0 else 1.0
  squareRoot := Float32.sqrt
  realPower := Float32.pow
  angle := Float32.atan2
  hypotenuse := float32Hypotenuse
  exponential := Float32.exp
  naturalLog := Float32.log
  sine := Float32.sin
  cosine := Float32.cos
  tangent := Float32.tan
  arcSine := Float32.asin
  arcCosine := Float32.acos
  arcTangent := Float32.atan
  hyperbolicSine := Float32.sinh
  hyperbolicCosine := Float32.cosh
  hyperbolicTangent := Float32.tanh

instance : FixedWidth Float32 where
  width := 4
  ofBits n := Float32.ofBits (UInt32.ofNat n)
  signalling n :=
    let magnitude := n % 0x80000000
    decide (0x7F800000 < magnitude ∧ magnitude < 0x7FC00000)

end Autodiff
