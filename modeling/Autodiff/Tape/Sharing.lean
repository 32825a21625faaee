import Autodiff.Tape.Recorder

/-!
# Tapes — shared vectors

Several tapes may use one adjoint vector.  The vector then lives in a pool; a tape borrows it for
the length of an operation and gives it back afterwards.
-/

namespace Autodiff.Tape

variable {F : Type} {s : Scheme}

/-- Run an operation of a tape on the vector that a handle names. -/
def onPool {α : Type} (t : Tape F s) (p : Pool F) (h : Nat)
    (act : Tape F s → Run (α × Tape F s)) : Run (α × Tape F s × Pool F) := do
  let (a, t) ← act { t with adjoints := p.read h }
  return (a, t, p.write h t.adjoints)

end Autodiff.Tape
