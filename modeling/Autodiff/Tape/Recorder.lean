import Autodiff.Recording.Streams
import Autodiff.Supply

/-!
# Tapes — recording

A tape joins a recording with a registry of external functions, a supply of identifiers and an
adjoint vector.  This module holds its state and everything that records: statements, inputs,
outputs and blocks.  A passive tape records nothing and lets the targets of assignments go.
-/

namespace Autodiff

/-- A tape over the numbers `F` whose identifiers are issued under the scheme `s`. -/
structure Tape (F : Type) (s : Scheme) where
  recording : Recording F
  registry : Registry F
  supply : Supply s
  adjoints : Adjoints F
  settings : Settings
  active : Bool

namespace Tape

variable {F : Type} {s : Scheme}

/-- A new tape around a vector, which is enlarged to the number of slots that the settings ask
for. -/
def create [Zero F] [FixedWidth F] (settings : Settings) (v : Adjoints F) :
    Except Fault (Tape F s) := do
  let adjoints ← v.resizeTo (max settings.initialSlots v.size)
  let recording ← Recording.allocate settings
  return {
    recording := recording
    registry := {}
    supply := .fresh s
    adjoints := adjoints
    settings := settings
    active := true }

def setActive (t : Tape F s) (active : Bool) : Tape F s := { t with active := active }

def register (t : Tape F s) (f : External F) : Except Fault (Nat × Tape F s) := do
  let (token, registry) ← t.registry.register f
  return (token, { t with registry := registry })

/-! ## Positions -/

def position (t : Tape F s) : Position := t.recording.endPosition t.supply.mark

def isEmpty (t : Tape F s) : Bool := t.position = .zero

def Contains (t : Tape F s) (p : Position) : Prop := t.recording.Contains p

instance (t : Tape F s) (p : Position) : Decidable (t.Contains p) :=
  inferInstanceAs (Decidable (t.recording.Contains p))

/-! ## Statements -/

/-- Take an identifier back from a variable, which is passive from then on. -/
def release (t : Tape F s) (identifier : Nat) : Except Fault (Tape F s) := do
  let supply ← t.supply.release identifier
  return { t with supply := supply }

/-- Record an assignment to the variable with identifier `target`, and give the identifier that it
has from then on.  Passive arguments are left out.  When none is left, or the tape is passive, the
variable becomes passive. -/
def store (t : Tape F s) (target : Nat) (arguments : List (F × Nat)) : Run (Nat × Tape F s) := do
  let entries := arguments.filter fun e => e.2 != passive
  if !t.active || entries.isEmpty then
    let t ← t.release target
    return (passive, t)
  else
    let _ ← Kind.ofCount entries.length
    -- The chunks are opened before the identifier is known, and are the same for any.
    Run.note (t.recording.growth (.normal target entries))
    let (target, supply) ← t.supply.claim target
    let recording := t.recording.append (.normal target entries)
    return (target, { t with recording := recording, supply := supply })

/-- Record a new independent variable or an output of a block, and give its identifier, which is
the passive one while the tape is passive. -/
def registerInput (t : Tape F s) : Run (Nat × Tape F s) := do
  if t.active then
    Run.note (t.recording.growth (.input passive))
    let (identifier, supply) ← t.supply.generate
    let recording := t.recording.append (.input identifier)
    return (identifier, { t with recording := recording, supply := supply })
  else return (passive, t)

/-- Give a dependent variable an identifier of its own by recording a copy; the old identifier is
taken back after that. -/
def registerOutput [One F] (t : Tape F s) (identifier : Nat) : Run (Nat × Tape F s) := do
  if identifier = passive || !t.active then return (identifier, t)
  else
    let (output, t) ← t.store passive [(1, identifier)]
    let t ← t.release identifier
    return (output, t)

/-! ## Blocks -/

/-- Check what was written for a block: both views are full, and the function finds as many
dynamic bytes as were written. -/
def checkBlock (f : External F) (token : Nat) (fixed dynamic : Writer) : Run Unit := do
  unless fixed.remaining = 0 ∧ dynamic.remaining = 0 do
    throw (.incompleteBlock f.name token fixed.written fixed.capacity dynamic.written
      dynamic.capacity)
  let asked ← Run.ask f.key
  let counted ← f.dynamicSize asked ⟨fixed.bytes, 0⟩
  unless counted = dynamic.capacity do
    let description ← f.describe ⟨fixed.bytes, 0⟩ ⟨dynamic.bytes, 0⟩
    throw (.dynamicSizeMismatch f.name token counted dynamic.capacity description)

/-- Record a block of an external function, whose bytes `write` puts into two views of the given
sizes, and give the full views.  A passive tape only checks the token and the number of fixed
bytes; it does not call `write`. -/
def pushBlock (t : Tape F s) (token fixedSize dynamicSize : Nat)
    (write : Writer → Writer → Except Fault (Writer × Writer)) :
    Run (Option (Writer × Writer) × Tape F s) := do
  let f ← t.registry.expect token
  unless fixedSize = f.fixedSize do
    throw (.fixedSizeMismatch f.name token f.fixedSize fixedSize)
  if t.active then
    t.recording.prepareBlock fixedSize dynamicSize
    let (fixed, dynamic) ← write { capacity := fixedSize } { capacity := dynamicSize }
    checkBlock f token fixed dynamic
    Run.note (t.recording.tokens.growth 1)
    let largest := max fixed.largest dynamic.largest
    let statement := .block token largest fixed.bytes.toList dynamic.bytes.toList
    let recording := t.recording.append statement
    return (some (fixed, dynamic), { t with recording := recording })
  else return (none, t)

/-! ## Resetting -/

/-- Drop the whole recording. The vector keeps its size. -/
def reset [Zero F] (t : Tape F s) : Run (Tape F s) := do
  Run.note [.resetting t.recording.statements.length]
  return { t with
    recording := t.recording.clear
    supply := t.supply.restart
    adjoints := if t.settings.clearOnReset then t.adjoints.clear else t.adjoints }

def resetTo (t : Tape F s) (p : Position) : Run (Tape F s) := do
  unless t.Contains p do
    throw (.tapeRewind p t.position)
  let dropped ← t.recording.statements.distance p.statements t.recording.statements.endCut
  Run.note [.rewinding p.statements dropped]
  let supply ← t.supply.rewindTo p.counter
  return { t with recording := t.recording.truncate p, supply := supply }

end Tape

end Autodiff
