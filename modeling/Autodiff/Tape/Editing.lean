import Autodiff.Tape.Recorder

/-!
# Tapes — editing

Statements between two positions of a tape can be appended to another tape or erased.  Identifiers
are carried over as they are, which only makes sense where they are reused, so editing exists for
that scheme alone.  To erase a range, the statements after it are copied to a scratch tape, the tape
is cut back to the start of the range, and the copy is appended.
-/

namespace Autodiff.Tape

variable {F : Type}

def tokensBetween (t : Tape F .reuse) (start stop : Position) : Except Fault (List Nat) := do
  let items ← t.recording.tokens.between start.tokens stop.tokens
  return (items.map fun item => item.1).mergeSort fun a b => decide (a ≤ b)

/-- Why the function behind a token of `source` is not the same in `t`, if so. -/
def tokenRefusal (t source : Tape F .reuse) (token : Nat) : Except Fault (Option Refusal) := do
  let theirs ← source.registry.expect token
  return match t.registry.get? token with
    | none => some (.unknownToken token)
    | some ours =>
      if ours.key = theirs.key then none
      else some (.incompatibleToken token theirs.name ours.name)

def tokensRefusal (t source : Tape F .reuse) : List Nat → Except Fault (Option Refusal)
  | [] => .ok none
  | token :: tokens => do
    match ← t.tokenRefusal source token with
    | some refusal => return some refusal
    | none => tokensRefusal t source tokens

/-- Why a range of `source` cannot be appended to `t`, if so. -/
def appendRefusal (t source : Tape F .reuse) (start stop : Position) :
    Except Fault (Option Refusal) := do
  if ¬start ≤ stop then return some .reversedRange
  else if ¬(source.Contains start ∧ source.Contains stop) then return some .foreignPosition
  else
    let tokens ← source.tokensBetween start stop
    t.tokensRefusal source tokens

def append (t source : Tape F .reuse) (start stop : Position) :
    Run (Except Refusal (Tape F .reuse)) := do
  match ← t.appendRefusal source start stop with
  | some refusal => return .error refusal
  | none =>
    let (recording, n) ← t.recording.appendFrom source.recording source.registry start stop
    Run.note [.appended n]
    return .ok { t with recording := recording }

/-- Erase the statements between two positions by way of a scratch tape.  The answer comes with
both tapes as they are left. -/
def eraseWith (t scratch : Tape F .reuse) (start stop : Position) :
    Run (Except Refusal Unit × Tape F .reuse × Tape F .reuse) := do
  if ¬start ≤ stop then return (.error .reversedRange, t, scratch)
  else if ¬t.Contains start then return (.error .foreignPosition, t, scratch)
  else
    let tailEnd := t.position
    let scratchStart := scratch.position
    match ← scratch.append t stop tailEnd with
    | .error refusal => return (.error refusal, t, scratch)
    | .ok scratch =>
      let erased ← t.recording.statements.distance start.statements stop.statements
      Run.note [.erasing erased]
      let t ← t.resetTo start
      let result ← t.append scratch scratchStart scratch.position
      let scratch ← scratch.resetTo scratchStart
      return match result with
        | .error refusal => (.error refusal, t, scratch)
        | .ok t => (.ok (), t, scratch)

/-- An empty tape with the same settings and functions, and without slots. -/
def scratch (t : Tape F .reuse) : Except Fault (Tape F .reuse) := do
  let recording ← Recording.create t.settings
  return { t with recording := recording, supply := .fresh .reuse, adjoints := #[], active := true }

def erase (t : Tape F .reuse) (start stop : Position) :
    Run (Except Refusal Unit × Tape F .reuse) := do
  let scratch ← t.scratch
  let (result, t, _) ← t.eraseWith scratch start stop
  return (result, t)

end Autodiff.Tape
