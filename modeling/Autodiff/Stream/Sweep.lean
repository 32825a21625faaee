import Autodiff.Stream.Chunked

/-!
# Sweeps over a range of a stream

A sweep visits every chunk that a range touches, in recording order or against it.  Each visit
says where in the chunk to begin and where to stop, and the visitor answers where it stopped; any
other answer than the bound is a fault.  `fold` is the sweep that consumes one item at a time.
-/

namespace Autodiff

/-- One chunk of a sweep: the offset to begin at and the offset to stop at. In the reverse
direction items below `cursor` are still to come, down to `bound`. -/
structure Visit (α : Type) where
  index : Nat
  chunk : Chunk α
  cursor : Nat
  bound : Nat

namespace Visit

variable {α σ : Type} {m : Type → Type} [Monad m] [MonadExceptOf Fault m]

def item (v : Visit α) (i : Nat) : m α :=
  match v.chunk.items[i]? with
  | some x => pure x
  | none => throw (.indexOutside v.chunk.items.size i)

/-- Feed `n` items from offset `i` upwards to `step`. -/
def ascend (v : Visit α) (step : σ → α → m σ) : Nat → Nat → σ → m σ
  | 0, _, acc => pure acc
  | n + 1, i, acc => do
    let x ← v.item i
    let acc ← step acc x
    ascend v step n (i + 1) acc

/-- Feed the `n` items below offset `bound + n` to `step`, from the highest down. -/
def descend (v : Visit α) (step : σ → α → m σ) : Nat → σ → m σ
  | 0, acc => pure acc
  | n + 1, acc => do
    let x ← v.item (v.bound + n)
    let acc ← step acc x
    descend v step n acc

/-- Consume the items of the visit one by one, and answer where that ended.  A visit that begins
beyond its bound has no items and stays where it is. -/
def drain (d : Direction) (step : σ → α → m σ) (acc : σ) (v : Visit α) : m (σ × Nat) := do
  match d with
  | .forward =>
    let acc ← v.ascend step (v.bound - v.cursor) v.cursor acc
    return (acc, max v.cursor v.bound)
  | .reverse =>
    let acc ← v.descend step (v.cursor - v.bound) acc
    return (acc, min v.cursor v.bound)

def items (d : Direction) (v : Visit α) : Except Fault (List α) :=
  match d with
  | .forward => v.chunk.slice v.cursor v.bound
  | .reverse => v.chunk.slice v.bound v.cursor

end Visit

namespace Chunked

variable {α σ : Type}

def visit (s : Chunked α) (d : Direction) (start stop : Cut) (i : Nat) :
    Except Fault (Visit α) := do
  let c ← s.chunk i
  return match d with
    | .forward =>
      ⟨i, c, if i = start.chunk then start.offset else 0,
        if i = stop.chunk then stop.offset else c.items.size⟩
    | .reverse =>
      ⟨i, c, if i = start.chunk then start.offset else c.items.size,
        if i = stop.chunk then stop.offset else 0⟩

variable {m : Type → Type} [Monad m] [MonadExceptOf Fault m]

def sweepAux (s : Chunked α) (d : Direction) (start stop : Cut)
    (visitor : σ → Visit α → m (σ × Nat)) : Nat → Nat → σ → m σ
  | 0, _, acc => pure acc
  | n + 1, i, acc => do
    let v ← MonadExcept.ofExcept (s.visit d start stop i)
    let (acc, stopped) ← visitor acc v
    unless stopped = v.bound do
      throw (Fault.strayCursor d stopped v.bound i)
    match d with
    | .forward => sweepAux s d start stop visitor n (i + 1) acc
    | .reverse => sweepAux s d start stop visitor n (i - 1) acc

/-- Visit every chunk between two cuts.  A reversed range is a fault, and so is a chunk that the
stream does not have, once the sweep gets there. -/
def sweep (s : Chunked α) (d : Direction) (start stop : Cut)
    (visitor : σ → Visit α → m (σ × Nat)) (acc : σ) : m σ := do
  unless d.Ordered start stop do
    throw (Fault.streamReversed d start stop)
  let chunks := match d with
    | .forward => stop.chunk - start.chunk + 1
    | .reverse => start.chunk - stop.chunk + 1
  sweepAux s d start stop visitor chunks start.chunk acc

def fold (s : Chunked α) (d : Direction) (start stop : Cut) (step : σ → α → m σ) (acc : σ) : m σ :=
  s.sweep d start stop (Visit.drain d step) acc

/-- The items between two cuts in recording order, read chunk by chunk.  The sweep puts every item
in front of those before it, so each is handled once. -/
def between (s : Chunked α) (start stop : Cut) : Except Fault (List α) := do
  let latestFirst ← s.sweep .forward start stop
    (fun acc v => do
      let xs ← v.items .forward
      return (xs.reverseAux acc, v.bound))
    []
  return latestFirst.reverse

end Chunked

end Autodiff
