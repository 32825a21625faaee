import Autodiff.Calculus.Scalar

/-!
# Floating-point data

The numbers of a floating-point type do not tell a quiet NaN from a signalling one.  A `Datum` does.
Two functions need it: a power with base one or exponent zero, and a length with an infinite
component, are numbers when the other operand is a quiet NaN and a NaN when it is a signalling one.
-/

namespace Autodiff

/-- A floating-point number, and whether it is a signalling NaN. -/
structure Datum (F : Type) where
  value : F
  signals : Bool := false

namespace Datum

variable {F : Type}

/-- The result of an operation; none of them makes a signalling NaN. -/
def quiet (x : F) : Datum F := ⟨x, false⟩

/-- Change the sign or drop it. A NaN stays what it is. -/
def onSign (f : F → F) (a : Datum F) : Datum F := { a with value := f a.value }

def lift (f : F → F) (a : Datum F) : Datum F := quiet (f a.value)

def lift₂ (f : F → F → F) (a b : Datum F) : Datum F := quiet (f a.value b.value)

instance [Zero F] : Zero (Datum F) := ⟨quiet 0⟩

instance [One F] : One (Datum F) := ⟨quiet 1⟩

instance [Add F] : Add (Datum F) := ⟨lift₂ (· + ·)⟩

instance [Sub F] : Sub (Datum F) := ⟨lift₂ (· - ·)⟩

instance [Mul F] : Mul (Datum F) := ⟨lift₂ (· * ·)⟩

instance [Div F] : Div (Datum F) := ⟨lift₂ (· / ·)⟩

instance [Neg F] : Neg (Datum F) := ⟨onSign (- ·)⟩

instance [IntCast F] : IntCast (Datum F) := ⟨fun n => quiet (n : F)⟩

instance [BEq F] : BEq (Datum F) := ⟨fun a b => a.value == b.value⟩

/-- Apply a function that turns some pairs with a quiet NaN into a number, but none with a
signalling NaN. The sum of such a pair is a NaN. -/
def liftStrict [Add F] (f : F → F → F) (a b : Datum F) : Datum F :=
  if a.signals || b.signals then a + b else lift₂ f a b

instance [Add F] [Elementary F] : Elementary (Datum F) where
  atMost a b := Elementary.atMost a.value b.value
  absolute := onSign Elementary.absolute
  signOf := lift Elementary.signOf
  squareRoot := lift Elementary.squareRoot
  realPower := liftStrict Elementary.realPower
  angle := lift₂ Elementary.angle
  hypotenuse := liftStrict Elementary.hypotenuse
  exponential := lift Elementary.exponential
  naturalLog := lift Elementary.naturalLog
  sine := lift Elementary.sine
  cosine := lift Elementary.cosine
  tangent := lift Elementary.tangent
  arcSine := lift Elementary.arcSine
  arcCosine := lift Elementary.arcCosine
  arcTangent := lift Elementary.arcTangent
  hyperbolicSine := lift Elementary.hyperbolicSine
  hyperbolicCosine := lift Elementary.hyperbolicCosine
  hyperbolicTangent := lift Elementary.hyperbolicTangent

instance [FixedWidth F] : FixedWidth (Datum F) where
  width := FixedWidth.width F
  ofBits n := ⟨FixedWidth.ofBits n, FixedWidth.signalling F n⟩
  signalling := FixedWidth.signalling F

end Datum

end Autodiff
