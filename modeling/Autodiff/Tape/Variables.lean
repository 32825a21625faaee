import Autodiff.Calculus.Operation
import Autodiff.Tape.Gradients

/-!
# Tapes — variables

Values that record what is done with them.  An identifier belongs to one variable at a time, so a
copy is a recorded assignment with an identifier of its own.
-/

namespace Autodiff

/-- A value and the identifier of its derivative. -/
structure Variable (F : Type) where
  value : F
  identifier : Nat

namespace Variable

variable {F : Type}

def constant (x : F) : Variable F := ⟨x, passive⟩

def isActive (a : Variable F) : Bool := a.identifier != passive

end Variable

namespace Tape

variable {F : Type} {s : Scheme}

def input (t : Tape F s) (x : F) : Run (Variable F × Tape F s) := do
  let (identifier, t) ← t.registerInput
  return (⟨x, identifier⟩, t)

def unaryInto [Zero F] [One F] [Add F] [Sub F] [Mul F] [Div F] [Neg F] [IntCast F] [Elementary F]
    (t : Tape F s) (target : Variable F) (op : Operation) (a : Variable F) :
    Run (Variable F × Tape F s) := do
  if op.isBinary then throw (.needsTwoOperands op)
  let result := op.value a.value 0
  let (da, _) := op.partials a.value 0 result
  let (identifier, t) ← t.store target.identifier [(da, a.identifier)]
  return (⟨result, identifier⟩, t)

def binaryInto [Zero F] [One F] [Add F] [Sub F] [Mul F] [Div F] [Neg F] [IntCast F] [Elementary F]
    (t : Tape F s) (target : Variable F) (op : Operation) (a b : Variable F) :
    Run (Variable F × Tape F s) := do
  unless op.isBinary do
    throw (.needsOneOperand op)
  let result := op.value a.value b.value
  let (da, db) := op.partials a.value b.value result
  let (identifier, t) ← t.store target.identifier [(da, a.identifier), (db, b.identifier)]
  return (⟨result, identifier⟩, t)

def unary [Zero F] [One F] [Add F] [Sub F] [Mul F] [Div F] [Neg F] [IntCast F] [Elementary F]
    (t : Tape F s) (op : Operation) (a : Variable F) : Run (Variable F × Tape F s) :=
  t.unaryInto (.constant 0) op a

def binary [Zero F] [One F] [Add F] [Sub F] [Mul F] [Div F] [Neg F] [IntCast F] [Elementary F]
    (t : Tape F s) (op : Operation) (a b : Variable F) : Run (Variable F × Tape F s) :=
  t.binaryInto (.constant 0) op a b

def apply [Zero F] [One F] [Add F] [Sub F] [Mul F] [Div F] [Neg F] [IntCast F] [Elementary F]
    (t : Tape F s) (target : Variable F) (op : Operation) : Run (Variable F × Tape F s) :=
  t.unaryInto target op target

/-- Apply an operation with a second operand to a variable in place. -/
def applyWith [Zero F] [One F] [Add F] [Sub F] [Mul F] [Div F] [Neg F] [IntCast F] [Elementary F]
    (t : Tape F s) (target : Variable F) (op : Operation) (b : Variable F) :
    Run (Variable F × Tape F s) :=
  t.binaryInto target op target b

def assign [One F] (t : Tape F s) (target a : Variable F) : Run (Variable F × Tape F s) := do
  let (identifier, t) ← t.store target.identifier [(1, a.identifier)]
  return (⟨a.value, identifier⟩, t)

def copy [One F] (t : Tape F s) (a : Variable F) : Run (Variable F × Tape F s) :=
  t.assign (.constant a.value) a

def assignConstant (t : Tape F s) (target : Variable F) (x : F) :
    Except Fault (Variable F × Tape F s) := do
  let t ← t.release target.identifier
  return (.constant x, t)

/-- Give a dependent variable an identifier of its own before it is seeded. -/
def markOutput [One F] (t : Tape F s) (a : Variable F) : Run (Variable F × Tape F s) := do
  let (identifier, t) ← t.registerOutput a.identifier
  return (⟨a.value, identifier⟩, t)

def releaseVariable (t : Tape F s) (a : Variable F) : Except Fault (Tape F s) :=
  t.release a.identifier

/-- The derivative of a variable; passive variables have none. -/
def gradientOf [Zero F] (t : Tape F s) (a : Variable F) : Run F :=
  if a.isActive then t.gradient a.identifier else return 0

def seedOf [Zero F] (t : Tape F s) (a : Variable F) (x : F) : Except Fault (Tape F s) :=
  t.seed a.identifier x

end Tape

end Autodiff
