import Autodiff.Stream.Chunked

/-!
# Taking runs

Runs of a dependent stream are read by their lengths alone.  Reading forwards skips to the next
chunk when the rest of a chunk is too short for the run, because that is what the reservation did;
reading backwards goes to the end of the previous chunk.  A run of no items stays where it is.
-/

namespace Autodiff

namespace Chunked

variable {α : Type}

/-- The first cut from `p` on that has `n` items after it in its chunk.  `fuel` is the number of
chunks that are left. -/
def seekForward (s : Chunked α) (n : Nat) : Nat → Cut → Except Fault Cut
  | 0, p => .error (.indexOutside s.chunkCount p.chunk)
  | fuel + 1, p => do
    let c ← s.chunk p.chunk
    if p.offset + n ≤ c.items.size then return p
    else if p.chunk + 1 < s.chunkCount then seekForward s n fuel ⟨p.chunk + 1, 0⟩
    else throw (.streamExhausted .forward n p)

/-- The cut from which `n` items are read forwards.  The sum of offset and length has to be a size
unless the cut and the items are there. -/
def forwardStart (s : Chunked α) (n : Nat) (p : Cut) : Except Fault Cut :=
  let found := s.seekForward n (s.chunkCount - p.chunk) p
  if p.offset + n < sizeLimit ∨ (s.Contains p ∧ found.isOk) then found else .error .sizeOverflow

/-- The last cut up to the given chunk and offset that has `n` items before it in its chunk. -/
def seekReverse (s : Chunked α) (n : Nat) : Nat → Nat → Except Fault Cut
  | chunk, offset =>
    if n ≤ offset then .ok ⟨chunk, offset⟩
    else match chunk with
      | 0 => .error (.streamExhausted .reverse n ⟨0, offset⟩)
      | previous + 1 => do
        let c ← s.chunk previous
        seekReverse s n previous c.items.size

/-- Take `n` items next to the cut `p`, in recording order, and say where that leads. -/
def take (s : Chunked α) (d : Direction) (p : Cut) (n : Nat) : Except Fault (List α × Cut) :=
  if n = 0 then .ok ([], p)
  else match d with
    | .forward => do
      let p ← s.forwardStart n p
      let c ← s.chunk p.chunk
      let xs ← c.slice p.offset (p.offset + n)
      return (xs, ⟨p.chunk, p.offset + n⟩)
    | .reverse => do
      let p ← s.seekReverse n p.chunk p.offset
      let c ← s.chunk p.chunk
      let xs ← c.slice (p.offset - n) p.offset
      return (xs, ⟨p.chunk, p.offset - n⟩)

def takeOne (s : Chunked α) (d : Direction) (p : Cut) : Except Fault (α × Cut) := do
  match ← s.take d p 1 with
  | (x :: _, p) => return (x, p)
  | ([], _) => throw .rangeOutside

/-- Check that reading ended at the expected place; `name` says which stream it is. -/
def finish (s : Chunked α) (p expected : Cut) (name : String) : Except Fault Unit := do
  unless ← s.sameCut p expected do
    throw (.outOfStep name p expected)

@[simp] theorem take_zero (s : Chunked α) (d : Direction) (p : Cut) : s.take d p 0 = .ok ([], p) :=
  rfl

theorem finish_eq_ok_iff {s : Chunked α} {p expected : Cut} {name : String} (hp : s.HasNext p)
    (hexpected : s.HasNext expected) :
    s.finish p expected name = .ok () ↔ s.SameCut p expected := by
  by_cases h : s.SameCut p expected <;>
    simp [finish, sameCut, hp, hexpected, h, bind, Except.bind, throw, throwThe,
      MonadExceptOf.throw, pure, Except.pure]

end Chunked

end Autodiff
