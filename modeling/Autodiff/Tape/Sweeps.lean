import Autodiff.Tape.Recorder

/-!
# Tapes — sweeps

Forward and reverse sweeps over the statements between two positions, and clearing the slots of
what was recorded there.  Under automatic management the vector first grows to hold every
identifier that the tape knows of.
-/

namespace Autodiff.Tape

variable {F : Type} {s : Scheme}

/-- The largest identifier that was issued or is mentioned by the recording. -/
def largestIdentifier (t : Tape F s) : Nat := max t.supply.largest t.recording.largest

/-- Make the vector hold every identifier of the tape, if that is asked for. -/
def prepare [Zero F] (t : Tape F s) (management : Management) : Tape F s :=
  match management with
  | .automatic => { t with adjoints := t.adjoints.ensure t.largestIdentifier }
  | .manual => t

/-- Sweep over the statements between two positions with a vector of the caller's. -/
def evaluateWith [Zero F] [Add F] [Mul F] [BEq F] (t : Tape F s) (d : Direction)
    (start stop : Position) (v : Adjoints F) : Run (Adjoints F) := do
  unless d.Ordered start stop do
    throw (.tapeReversed d start stop)
  t.recording.replay t.registry d start stop v

/-- Sweep over the statements between two positions with the vector of the tape. -/
def evaluate [Zero F] [Add F] [Mul F] [BEq F] (t : Tape F s) (d : Direction)
    (start stop : Position) (management : Management) : Run (Tape F s) := do
  unless d.Ordered start stop do
    throw (.tapeReversed d start stop)
  let t := t.prepare management
  let v ← t.recording.replay t.registry d start stop t.adjoints
  return { t with adjoints := v }

def evaluateAll [Zero F] [Add F] [Mul F] [BEq F] (t : Tape F s) (d : Direction) : Run (Tape F s) :=
  match d with
  | .forward => t.evaluate d .zero t.position .automatic
  | .reverse => t.evaluate d t.position .zero .automatic

/-- Zero the slots of all targets recorded between two positions, in either order.  Under the
linear scheme those are the identifiers that were issued in between, so a range of slots is
cleared; otherwise the statements are walked, and targets outside the vector are skipped. -/
def clearBetween [Zero F] (t : Tape F s) (start stop : Position) (management : Management) :
    Except Fault (Tape F s) := do
  let (late, early) := if stop ≤ start then (start, stop) else (stop, start)
  let t := t.prepare management
  let v ← match s with
    | .linear =>
      let n := t.adjoints.size
      t.adjoints.eraseRange (min (early.counter + 1) n) (min (late.counter + 1) n)
    | .reuse => t.recording.clearTargets late early t.adjoints
  return { t with adjoints := v }

end Autodiff.Tape
