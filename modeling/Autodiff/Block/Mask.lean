import Autodiff.Block.Bytes

/-!
# Masks of active arguments

An external function with several inputs can store in its block which of them are active.  A mask
takes one, two, four or eight bytes, by the number of arguments, and holds 64 arguments at most.
-/

namespace Autodiff

/-- Which of some arguments are active, one bit each from the lowest. -/
structure Mask where
  bits : BitVec 64
  arguments : Nat
  deriving DecidableEq

namespace Mask

def width (arguments : Nat) : Nat :=
  if arguments ≤ 8 then 1 else if arguments ≤ 16 then 2 else if arguments ≤ 32 then 4 else 8

def create (arguments : Nat) : Except Fault Mask :=
  if maskBits < arguments then .error (.maskTooWide arguments) else .ok ⟨0, arguments⟩

def set (m : Mask) (i : Nat) (active : Bool) : Except Fault Mask :=
  if m.arguments ≤ i then .error (.argumentOutside i m.arguments)
  else
    let bit := 1#64 <<< i
    .ok { m with bits := if active then m.bits ||| bit else m.bits &&& ~~~bit }

/-- Whether an argument is active; arguments that the mask does not have are not. -/
def get (m : Mask) (i : Nat) : Bool := decide (i < m.arguments) && m.bits.getLsbD i

def count (m : Mask) : Nat := (List.range 64).countP fun i => m.bits.getLsbD i

def any (m : Mask) : Bool := m.bits != 0

/-- The arguments that are not passive identifiers are active. -/
def ofIdentifiers (ids : List Nat) : Except Fault Mask := do
  let m ← create ids.length
  ids.zipIdx.foldlM (fun m (id, i) => m.set i (id != passive)) m

/-- The field that stores the mask, its bits cut to the width of the mask. -/
def field (m : Mask) : Field :=
  match width m.arguments with
  | 1 => .uint8 (UInt8.ofNat m.bits.toNat)
  | 2 => .uint16 (UInt16.ofNat m.bits.toNat)
  | 4 => .uint32 (UInt32.ofNat m.bits.toNat)
  | _ => .uint64 (UInt64.ofNat m.bits.toNat)

def store (m : Mask) (w : Writer) : Except Fault Writer := w.put m.field

/-- Read the mask of so many arguments. All bits of its bytes are kept. The bytes are read before
the number of arguments is looked at. -/
def restore (arguments : Nat) (r : Reader) : Except Fault (Mask × Reader) := do
  let (bits, r) ← r.nat (width arguments)
  let m ← create arguments
  return ({ m with bits := BitVec.ofNat 64 bits }, r)

def text (m : Mask) : String :=
  s!"Activity \x7b bits: {m.bits.toNat}, arguments: {m.arguments} \x7d"

@[simp] theorem width_field (m : Mask) : m.field.shape.width = width m.arguments := by
  unfold field
  have h : width m.arguments = 1 ∨ width m.arguments = 2 ∨ width m.arguments = 4 ∨
      width m.arguments = 8 := by
    unfold width
    repeat' split
    all_goals simp
  rcases h with h | h | h | h <;> rw [h] <;> rfl

theorem get_set {m m' : Mask} {i : Nat} {active : Bool} (hm : m.arguments ≤ maskBits)
    (h : m.set i active = .ok m') (j : Nat) :
    m'.get j = if j = i then active else m.get j := by
  unfold set at h
  split at h
  · cases h
  · next hi =>
    cases h
    have h64 : i < 64 := by
      have : maskBits = 64 := rfl
      omega
    by_cases hj : j < m.arguments
    · have hj64 : j < 64 := by
        have : maskBits = 64 := rfl
        omega
      cases active <;> by_cases hij : j = i <;> simp [get, hj, hj64, hij]
      all_goals omega
    · have hij : j ≠ i := by omega
      simp [get, hj, hij]

end Mask

end Autodiff
