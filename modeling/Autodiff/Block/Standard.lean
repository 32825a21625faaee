import Autodiff.Block.External
import Autodiff.Block.Mask

/-!
# Ready-made external functions

Weighted sums, with and without a mask of active terms, a transfer of one slot to another, and a
block of given sizes without effect.
-/

namespace Autodiff.External

variable {F : Type}

/-! ## Weighted sums -/

/-- The bytes of one term: a weight and the identifier that it applies to. -/
def termWidth (F : Type) [FixedWidth F] : Nat := FixedWidth.width F + 4

def term [FixedWidth F] (r : Reader) : Except Fault ((F × Nat) × Reader) := do
  let (w, r) ← r.scalar
  let (x, r) ← r.identifier
  return ((w, x), r)

/-- The sum of `n` terms, added to `acc` one by one. -/
def sumTerms [FixedWidth F] [Add F] [Mul F] (v : Adjoints F) : Nat → Reader → F → Except Fault F
  | 0, _, acc => .ok acc
  | n + 1, r, acc => do
    let ((w, x), r) ← term r
    let y ← v.fetch x
    sumTerms v n r (acc + w * y)

/-- Give each of `n` terms its share of `bar`. -/
def spreadTerms [FixedWidth F] [Add F] [Mul F] (bar : F) :
    Nat → Reader → Adjoints F → Except Fault (Adjoints F)
  | 0, _, v => .ok v
  | n + 1, r, v => do
    let ((w, x), r) ← term r
    let v ← v.add x (w * bar)
    spreadTerms bar n r v

/-- A weighted sum whose fixed bytes start with a header that tells the number of terms. The
identifier of the sum follows the header. -/
def sumWithHeader [FixedWidth F] [Zero F] [Add F] [Mul F] (key : Nat) (name : String)
    (headerWidth : Nat) (header : Reader → Except Fault (Nat × Reader)) : External F where
  key := key
  name := name
  fixedSize := headerWidth + 4
  dynamicSize _ fixed := do
    let (n, _) ← header fixed
    return n * termWidth F
  forward fixed dynamic v := do
    let (n, fixed) ← header fixed
    let (out, _) ← fixed.identifier
    let t ← sumTerms v n dynamic 0
    v.put out t
  reverse fixed dynamic v := do
    let (n, fixed) ← header fixed
    let (out, _) ← fixed.identifier
    let (bar, v) ← v.pull out
    spreadTerms bar n dynamic v

/-- A weighted sum of as many terms as its block says. -/
def weightedSum [FixedWidth F] [Zero F] [Add F] [Mul F] (key : Nat) (name : String) : External F :=
  sumWithHeader key name 4 fun fixed => fixed.nat 4

/-- A weighted sum of a fixed number of terms, of which only the active ones are recorded. -/
def maskedSum [FixedWidth F] [Zero F] [Add F] [Mul F] (key : Nat) (name : String)
    (terms : Nat) : External F :=
  sumWithHeader key name (Mask.width terms) fun fixed => do
    let (m, fixed) ← Mask.restore terms fixed
    return (m.count, fixed)

/-! ## Other functions -/

def endpoints (fixed : Reader) : Except Fault (Nat × Nat) := do
  let (a, fixed) ← fixed.identifier
  let (b, _) ← fixed.identifier
  return (a, b)

/-- Moves one slot into another. On the way back the second slot is left with the size of the
vector in it. -/
def transfer [Zero F] [Add F] [IntCast F] (key : Nat) (name : String) (padding : Nat) :
    External F where
  key := key
  name := name
  fixedSize := 8
  dynamicSize _ _ := .ok padding
  forward fixed _ v := do
    let (a, b) ← endpoints fixed
    let t ← v.fetch a
    let v ← v.add b t
    v.erase a
  reverse fixed _ v := do
    let (a, b) ← endpoints fixed
    let (t, v) ← v.pull b
    let v ← v.add a t
    v.put b ((v.size : Int) : F)
  describe fixed dynamic := do
    let (a, b) ← endpoints fixed
    return s!"{name} from {a} to {b} with {dynamic.bytes.size} padding"

/-- Has no effect on slots. Its dynamic size is the first fixed byte, or it runs through a list of
answers and stays at the last. -/
def sized (key : Nat) (name : String) (fixedSize : Nat) (sizes : List Nat) : External F where
  key := key
  name := name
  fixedSize := fixedSize
  dynamicSize asked fixed :=
    match sizes[min asked (sizes.length - 1)]? with
    | some n => .ok n
    | none => do
      let (n, _) ← fixed.nat 1
      return n
  forward _ _ v := .ok v
  reverse _ _ v := .ok v

end Autodiff.External
