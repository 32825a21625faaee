import Autodiff.Adjoints
import Autodiff.Block.Bytes
import Autodiff.Text.Quoted

/-!
# External functions

An external function stands on a tape as an opaque block: a token, fixed bytes whose number the
function declares, and dynamic bytes whose number it computes from the fixed ones.  Both numbers can
be found again during replay, so a tape stores neither.  A `Registry` gives out the tokens.
-/

namespace Autodiff

/-- One kind of external function. Bytes are handed over in recording order in both directions.

`dynamicSize asked fixed` is the answer to the question number `asked`, counted from zero over all
questions to this function; a function that depends on the count contradicts itself sooner or
later, and the tape has to notice. -/
structure External (F : Type) where
  /-- Tells functions apart that agree in everything else. -/
  key : Nat
  name : String
  fixedSize : Nat
  dynamicSize (asked : Nat) (fixed : Reader) : Except Fault Nat
  forward (fixed dynamic : Reader) (v : Adjoints F) : Except Fault (Adjoints F)
  reverse (fixed dynamic : Reader) (v : Adjoints F) : Except Fault (Adjoints F)
  describe (fixed dynamic : Reader) : Except Fault String :=
    .ok s!"{name}: {fixed.bytes.size} fixed bytes, {dynamic.bytes.size} dynamic bytes"

/-- The functions of a tape, by token. -/
structure Registry (F : Type) where
  functions : Array (External F) := #[]

namespace Registry

variable {F : Type}

def capacity : Nat := 65536

def register (r : Registry F) (f : External F) : Except Fault (Nat × Registry F) :=
  if r.functions.size < capacity then .ok (r.functions.size, ⟨r.functions.push f⟩)
  else .error .registryFull

def get? (r : Registry F) (token : Nat) : Option (External F) := r.functions[token]?

def expect (r : Registry F) (token : Nat) : Except Fault (External F) :=
  match r.get? token with
  | some f => .ok f
  | none => .error (.unregistered token r.functions.size)

def text (r : Registry F) : String :=
  Text.quoteList (r.functions.toList.map fun f => f.name)

theorem get?_register {r r' : Registry F} {f : External F} {token : Nat}
    (h : r.register f = .ok (token, r')) : r'.get? token = some f := by
  unfold register at h
  split at h
  · cases h
    simp [get?]
  · cases h

theorem get?_register_of_lt {r r' : Registry F} {f : External F} {token other : Nat}
    (h : r.register f = .ok (token, r')) (hlt : other < r.functions.size) :
    r'.get? other = r.get? other := by
  unfold register at h
  split at h
  · cases h
    have hne : other ≠ r.functions.size := by omega
    simp [get?, Array.getElem?_push, hne]
  · cases h

end Registry

end Autodiff
