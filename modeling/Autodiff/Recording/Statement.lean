import Autodiff.Block.External

/-!
# Statements

A statement is what a recording is made of: an input, an assignment with its partial derivatives,
or the block of an external function.  Streams store its `Kind`, which takes one byte: the number
of arguments, with the two ends of the range reserved for inputs and blocks.

`Statement.propagate` is the effect of one statement on a vector, in either direction.
-/

namespace Autodiff

/-! ## Kinds -/

/-- What follows a statement in the other streams. -/
inductive Kind where
  | input
  | normal (arguments : Nat)
  | block
  deriving DecidableEq

namespace Kind

def inputByte : UInt8 := 0

def blockByte : UInt8 := 255

def ofByte (b : UInt8) : Kind :=
  if b = inputByte then input else if b = blockByte then block else normal b.toNat

/-- The byte of a kind; a count that means something else has none. -/
def toByte : Kind → Except Fault UInt8
  | input => .ok inputByte
  | block => .ok blockByte
  | normal n => if n = 0 ∨ maxArguments < n then .error .reservedCount else .ok (UInt8.ofNat n)

/-- The kind of an assignment with so many active arguments. -/
def ofCount (n : Nat) : Except Fault Kind :=
  if n = 0 then .error .noArguments
  else if maxArguments < n then .error (.tooManyArguments n)
  else .ok (normal n)

def text : Kind → String
  | input => "Input"
  | normal n => s!"Normal \x7b arguments: {n} \x7d"
  | block => "LowLevelFunction"

theorem toByte_ofByte (b : UInt8) : (ofByte b).toByte = .ok b := by
  unfold ofByte
  split
  · next h => rw [h]; rfl
  · split
    · next h => rw [h]; rfl
    · next h0 h255 =>
      have h0 : b.toNat ≠ 0 := fun h => h0 (UInt8.toNat_inj.1 h)
      have h255 : b.toNat ≠ 255 := fun h => h255 (UInt8.toNat_inj.1 h)
      have hlt : b.toNat < 256 := b.toNat_lt
      have hmax : ¬(b.toNat = 0 ∨ maxArguments < b.toNat) := by
        unfold maxArguments
        omega
      simp [toByte, hmax]

theorem ofByte_toByte {k : Kind} {b : UInt8} (h : k.toByte = .ok b) : ofByte b = k := by
  cases k with
  | input => cases h; rfl
  | block => cases h; rfl
  | normal n =>
    simp only [toByte] at h
    split at h
    · cases h
    · next hn =>
      cases h
      have hmax : maxArguments = 254 := rfl
      have hmod : n % 256 = n := by omega
      have htoNat : (UInt8.ofNat n).toNat = n := by simp [hmod]
      have h0 : UInt8.ofNat n ≠ inputByte := by
        intro h
        have : n = 0 := by rw [← htoNat, h]; rfl
        omega
      have h255 : UInt8.ofNat n ≠ blockByte := by
        intro h
        have : n = 255 := by rw [← htoNat, h]; rfl
        omega
      rw [ofByte, if_neg h0, if_neg h255, htoNat]

end Kind

/-! ## Statements -/

/-- One recorded statement with everything that belongs to it. -/
inductive Statement (F : Type) where
  /-- Gives an identifier to an independent variable or to an output of a block. -/
  | input (target : Nat)
  /-- Assigns to `target`; each entry is a partial derivative and the argument it belongs to. -/
  | normal (target : Nat) (entries : List (F × Nat))
  /-- Runs an external function; `largest` is the largest identifier that its bytes mention. -/
  | block (token largest : Nat) (fixed dynamic : List UInt8)

namespace Statement

variable {F : Type}

def kind : Statement F → Kind
  | input _ => .input
  | normal _ entries => .normal entries.length
  | block _ _ _ _ => .block

/-- The identifier that the statement stream names. Blocks name the passive one. -/
def target : Statement F → Nat
  | input t => t
  | normal t _ => t
  | block _ _ _ _ => passive

def largest : Statement F → Nat
  | input t => t
  | normal t entries => (entries.map fun e => e.2).foldl max t
  | block _ largest _ _ => largest

/-! ## Runs

What a statement leaves in the streams that follow the statements. -/

def entries : Statement F → List (F × Nat)
  | normal _ entries => entries
  | _ => []

/-- The token of a block with the largest identifier that its bytes mention. -/
def tokens : Statement F → List (Nat × Nat)
  | block token largest _ _ => [(token, largest)]
  | _ => []

def fixed : Statement F → List UInt8
  | block _ _ fixed _ => fixed
  | _ => []

def dynamic : Statement F → List UInt8
  | block _ _ _ dynamic => dynamic
  | _ => []

/-! ## Effect on a vector -/

/-- The sum of partial times tangent over the entries, added to `acc` from left to right. -/
def gather [Add F] [Mul F] (v : Adjoints F) : List (F × Nat) → F → Except Fault F
  | [], acc => .ok acc
  | (p, a) :: entries, acc => do
    let t ← v.fetch a
    gather v entries (acc + p * t)

/-- Add to the slot of every argument its partial times `bar`, from left to right. -/
def scatter [Add F] [Mul F] (bar : F) : List (F × Nat) → Adjoints F → Except Fault (Adjoints F)
  | [], v => .ok v
  | (p, a) :: entries, v => do
    let v ← v.add a (p * bar)
    scatter bar entries v

/-- Carry tangents or adjoints through one statement.  Forwards the target's slot is overwritten.
In reverse it is read and left zero before the arguments are updated; when it was zero the
arguments are left alone. -/
def propagate [Zero F] [Add F] [Mul F] [BEq F] (registry : Registry F) (d : Direction)
    (s : Statement F) (v : Adjoints F) : Except Fault (Adjoints F) :=
  match s with
  | input _ => .ok v
  | normal t entries =>
    match d with
    | .forward => do
      let x ← gather v entries 0
      v.put t x
    | .reverse => do
      let (bar, v) ← v.pull t
      if bar != 0 then scatter bar entries v else return v
  | block token _ fixed dynamic => do
    let f ← registry.expect token
    match d with
    | .forward => f.forward (.ofList fixed) (.ofList dynamic) v
    | .reverse => f.reverse (.ofList fixed) (.ofList dynamic) v

end Statement

end Autodiff
