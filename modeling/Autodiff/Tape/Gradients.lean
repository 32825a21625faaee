import Autodiff.Tape.Recorder

/-!
# Tapes — access to gradients

Reading and writing single slots of a tape's vector under the three policies for identifiers
outside the vector.
-/

namespace Autodiff.Tape

variable {F : Type} {s : Scheme}

/-- What a read outside the vector sees: slot zero, or zero when there is none. -/
def dummyGradient [Zero F] (t : Tape F s) (identifier : Nat) : Run F := do
  Run.note [.readOutside identifier t.adjoints.size]
  return t.adjoints.getD 0 0

/-- The adjoint or tangent of an identifier. -/
def gradient [Zero F] (t : Tape F s) (identifier : Nat) : Run F :=
  match t.adjoints[identifier]? with
  | some x => return x
  | none => t.dummyGradient identifier

def getGradient [Zero F] (t : Tape F s) (identifier : Nat) (checking : Checking) :
    Run (Except Refusal F) :=
  match t.adjoints[identifier]? with
  | some x => return .ok x
  | none =>
    match checking with
    | .relaxed => do
      let x ← t.dummyGradient identifier
      return .ok x
    | .strict => return .error (.outOfBounds identifier t.adjoints.size)
    | .off => throw (.unchecked identifier t.adjoints.size)

/-- Change a slot by `f`, and give its new value. -/
def modifyGradient [Zero F] (t : Tape F s) (identifier : Nat) (checking : Checking) (f : F → F) :
    Except Fault (Except Refusal (F × Tape F s)) := do
  let v := match checking with
    | .relaxed => t.adjoints.ensure identifier
    | .strict | .off => t.adjoints
  if checking = .strict ∧ v.size ≤ identifier then
    return .error (.outOfBounds identifier v.size)
  else
    let x ← v.fetch identifier
    let v ← v.put identifier (f x)
    return .ok (f x, { t with adjoints := v })

def setGradient [Zero F] (t : Tape F s) (identifier : Nat) (x : F) (checking : Checking) :
    Except Fault (Except Refusal (Tape F s)) := do
  let r ← t.modifyGradient identifier checking fun _ => x
  return r.map fun (_, t) => t

/-- Set the slot of an identifier, which comes into being if needed. The passive identifier is
ignored. -/
def seed [Zero F] (t : Tape F s) (identifier : Nat) (x : F) : Except Fault (Tape F s) := do
  if identifier = passive then return t
  else
    let v ← (t.adjoints.ensure identifier).put identifier x
    return { t with adjoints := v }

def resizeAdjoints [Zero F] [FixedWidth F] (t : Tape F s) (n : Nat) : Except Fault (Tape F s) := do
  let v ← t.adjoints.resizeTo n
  return { t with adjoints := v }

def ensureAdjoint [Zero F] [FixedWidth F] (t : Tape F s) (i : Nat) : Except Fault (Tape F s) := do
  let v ← t.adjoints.reach i
  return { t with adjoints := v }

def clearAllAdjoints [Zero F] (t : Tape F s) : Tape F s :=
  { t with adjoints := t.adjoints.clear }

end Autodiff.Tape
