import Autodiff.Calculus.Scalar
import Autodiff.Fault

/-!
# Adjoint vectors

One slot per identifier.  The same vector holds adjoints in a reverse sweep and tangents in a
forward sweep.  Reads and writes of a slot that does not exist are faults; whoever wants the vector
to grow asks for it with `ensure`.
-/

namespace Autodiff

/-- The slots of a vector, by identifier. -/
abbrev Adjoints (F : Type) := Array F

namespace Adjoints

variable {F : Type}

def ofSize [Zero F] (n : Nat) : Adjoints F := Array.replicate n 0

/-! ## Size -/

/-- Give the vector exactly `n` slots: slots beyond are dropped, new ones are zero. -/
def resize [Zero F] (v : Adjoints F) (n : Nat) : Adjoints F :=
  v.take n ++ Array.replicate (n - v.size) 0

/-- The number of slots once the slot `i` exists. Growth at least doubles the vector. -/
def ensuredSize (v : Adjoints F) (i : Nat) : Nat :=
  if i < v.size then v.size else max (i + 1) (2 * v.size)

def ensure [Zero F] (v : Adjoints F) (i : Nat) : Adjoints F :=
  if i < v.size then v else v.resize (v.ensuredSize i)

def clear [Zero F] (v : Adjoints F) : Adjoints F := v.map fun _ => 0

@[simp] theorem size_resize [Zero F] (v : Adjoints F) (n : Nat) : (v.resize n).size = n := by
  simp only [resize, Array.take_eq_extract, Array.size_append, Array.size_extract,
    Array.size_replicate]
  omega

theorem size_ensure [Zero F] (v : Adjoints F) (i : Nat) : (v.ensure i).size = v.ensuredSize i := by
  unfold ensure
  split
  · next h => simp [ensuredSize, h]
  · simp

theorem lt_size_ensure [Zero F] (v : Adjoints F) (i : Nat) : i < (v.ensure i).size := by
  rw [size_ensure, ensuredSize]
  split <;> omega

@[simp] theorem size_clear [Zero F] (v : Adjoints F) : v.clear.size = v.size := by
  simp [clear]

/-! ## Sizes from outside

Identifiers are small enough for the functions above.  A size that a caller chooses may be one that
no vector can have. -/

def checkSize (F : Type) [FixedWidth F] (n : Nat) : Except Fault Unit :=
  if n * FixedWidth.width F ≤ memoryLimit then .ok () else .error .tooLarge

def allocate [Zero F] [FixedWidth F] (n : Nat) : Except Fault (Adjoints F) := do
  checkSize F n
  return ofSize n

def resizeTo [Zero F] [FixedWidth F] (v : Adjoints F) (n : Nat) : Except Fault (Adjoints F) := do
  if v.size < n then checkSize F n
  return v.resize n

def reach [Zero F] [FixedWidth F] (v : Adjoints F) (i : Nat) : Except Fault (Adjoints F) := do
  if v.size ≤ i ∧ sizeLimit ≤ i + 1 then throw .sizeOverflow
  checkSize F (v.ensuredSize i)
  return v.ensure i

/-! ## Slots -/

def fetch (v : Adjoints F) (i : Nat) : Except Fault F :=
  match v[i]? with
  | some x => .ok x
  | none => .error (.indexOutside v.size i)

def put (v : Adjoints F) (i : Nat) (x : F) : Except Fault (Adjoints F) :=
  if h : i < v.size then .ok (v.set i x h) else .error (.indexOutside v.size i)

def add [Add F] (v : Adjoints F) (i : Nat) (x : F) : Except Fault (Adjoints F) := do
  let y ← v.fetch i
  v.put i (y + x)

def erase [Zero F] (v : Adjoints F) (i : Nat) : Except Fault (Adjoints F) := v.put i 0

def pull [Zero F] (v : Adjoints F) (i : Nat) : Except Fault (F × Adjoints F) := do
  let x ← v.fetch i
  let v ← v.erase i
  return (x, v)

/-- Set the slots from `first` up to `last` to zero; the range has to lie within the vector. -/
def eraseRange [Zero F] (v : Adjoints F) (first last : Nat) : Except Fault (Adjoints F) :=
  if first ≤ last ∧ last ≤ v.size then
    .ok (v.mapIdx fun i x => if first ≤ i ∧ i < last then 0 else x)
  else .error .rangeOutside

/-- Set those of the given slots to zero that exist. -/
def eraseAll [Zero F] (v : Adjoints F) (is : List Nat) : Adjoints F :=
  is.foldl (fun v i => v.setIfInBounds i 0) v

theorem fetch_eq_ok_iff {v : Adjoints F} {i : Nat} {x : F} :
    v.fetch i = .ok x ↔ v[i]? = some x := by
  unfold fetch
  cases v[i]? <;> simp

theorem put_of_lt {v : Adjoints F} {i : Nat} (h : i < v.size) (x : F) :
    v.put i x = .ok (v.set i x h) := by
  simp [put, h]

@[simp] theorem size_eraseAll [Zero F] (v : Adjoints F) (is : List Nat) :
    (v.eraseAll is).size = v.size := by
  unfold eraseAll
  induction is generalizing v with
  | nil => rfl
  | cons i is ih => rw [List.foldl_cons, ih, Array.size_setIfInBounds]

end Adjoints

/-! ## Sharing -/

/-- Whether a copy of a handle names a copy of the vector or the same vector. -/
inductive Sharing where
  | owned
  | shared
  deriving DecidableEq

/-- Vectors that handles name by their number in the pool. Several copies of a handle name one
vector, which then all of them see change. -/
structure Pool (F : Type) where
  vectors : Array (Adjoints F) := #[]

namespace Pool

variable {F : Type}

/-- The vector that a handle names; a handle never given out names an empty one. -/
def read (p : Pool F) (h : Nat) : Adjoints F := p.vectors.getD h #[]

def write (p : Pool F) (h : Nat) (v : Adjoints F) : Pool F :=
  { p with vectors := p.vectors.setIfInBounds h v }

def add (p : Pool F) (v : Adjoints F) : Nat × Pool F :=
  (p.vectors.size, { p with vectors := p.vectors.push v })

def copy (p : Pool F) (sharing : Sharing) (h : Nat) : Nat × Pool F :=
  match sharing with
  | .owned => p.add (p.read h)
  | .shared => (h, p)

@[simp] theorem read_add (p : Pool F) (v : Adjoints F) : (p.add v).2.read (p.add v).1 = v := by
  simp [read, add]

theorem read_write_same (p : Pool F) {h : Nat} (hh : h < p.vectors.size) (v : Adjoints F) :
    (p.write h v).read h = v := by
  simp [read, write, hh]

theorem read_write_other (p : Pool F) {h g : Nat} (hg : g ≠ h) (v : Adjoints F) :
    (p.write h v).read g = p.read g := by
  simp only [read, write, Array.getD_eq_getD_getElem?]
  rw [Array.getElem?_setIfInBounds_ne (Ne.symm hg)]

end Pool

end Autodiff
