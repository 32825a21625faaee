import Autodiff.Journal

/-!
# Chunked streams

An append-only stream stored in chunks.  After `reserve n` the next `n` items land in one chunk,
so a run recorded together can be read together.  A chunk that is closed by a reservation keeps
its gap: chunks hold fewer items than their limit in general, and may be empty.

`toList` is the plain view: all items in recording order.
-/

namespace Autodiff

/-- Some consecutive items and the number of items that may stand here. -/
structure Chunk (α : Type) where
  items : Array α
  limit : Nat

namespace Chunk

variable {α : Type}

def empty (limit : Nat) : Chunk α := ⟨#[], limit⟩

def room (c : Chunk α) : Nat := c.limit - c.items.size

/-- Check that there can be a chunk for `limit` items, of which the wider column takes `width`
bytes each. -/
def check (width limit : Nat) : Except Fault Unit :=
  if limit = 0 then .error .emptyChunks
  else if memoryLimit < limit * width then .error .tooLarge
  else .ok ()

/-- The items in a range of offsets, or a fault when the range is not within the chunk. -/
def slice (c : Chunk α) (first last : Nat) : Except Fault (List α) :=
  if first ≤ last ∧ last ≤ c.items.size then .ok (c.items.extract first last).toList
  else .error .rangeOutside

def total (cs : List (Chunk α)) : Nat := cs.foldr (fun c n => c.items.size + n) 0

theorem total_eq (cs : List (Chunk α)) :
    total cs = (cs.flatMap fun c => c.items.toList).length := by
  induction cs with
  | nil => rfl
  | cons c cs ih =>
    unfold total at ih ⊢
    simp [ih]

end Chunk

/-- The chunks before the current one, and the current one, into which items are pushed. -/
structure Chunked (α : Type) where
  chunkSize : Nat
  closed : Array (Chunk α)
  current : Chunk α

namespace Chunked

variable {α : Type}

def create (chunkSize : Nat) : Except Fault (Chunked α) :=
  if chunkSize = 0 then .error .emptyChunks else .ok ⟨chunkSize, #[], .empty chunkSize⟩

/-- An empty stream with columns of at most the given width, if its first chunk has room in
memory. -/
def allocate (width chunkSize : Nat) : Except Fault (Chunked α) := do
  Chunk.check width chunkSize
  create chunkSize

/-! ## Views -/

def chunkCount (s : Chunked α) : Nat := s.closed.size + 1

def chunks (s : Chunked α) : List (Chunk α) := s.closed.toList ++ [s.current]

def chunk? (s : Chunked α) (i : Nat) : Option (Chunk α) :=
  if i = s.closed.size then some s.current else s.closed[i]?

def chunk (s : Chunked α) (i : Nat) : Except Fault (Chunk α) :=
  match s.chunk? i with
  | some c => .ok c
  | none => .error (.indexOutside s.chunkCount i)

def toList (s : Chunked α) : List α := s.chunks.flatMap fun c => c.items.toList

def length (s : Chunked α) : Nat := Chunk.total s.chunks

def endCut (s : Chunked α) : Cut := ⟨s.closed.size, s.current.items.size⟩

/-- Whether the stream ends where it began. An empty chunk that a reservation opened counts as
progress. -/
def isEmpty (s : Chunked α) : Bool := s.endCut = .zero

def Contains (s : Chunked α) (p : Cut) : Prop :=
  match s.chunk? p.chunk with
  | some c => p.offset ≤ c.items.size
  | none => False

instance (s : Chunked α) (p : Cut) : Decidable (s.Contains p) := by
  unfold Contains
  cases s.chunk? p.chunk <;> infer_instance

def usedBytes (s : Chunked α) (width : Nat) : Nat := width * s.length

/-- The number of bytes set aside for the chunks, whether used or not. -/
def allocatedBytes (s : Chunked α) (width : Nat) : Nat :=
  s.chunks.foldr (fun c n => c.limit * width + n) 0

theorem chunk?_eq (s : Chunked α) (i : Nat) : s.chunk? i = s.chunks[i]? := by
  unfold chunk? chunks
  by_cases h : i = s.closed.size
  · subst h
    simp
  · rw [if_neg h, List.getElem?_append]
    by_cases hlt : i < s.closed.size
    · simp [hlt]
    · have hge : s.closed.size < i := by omega
      have hpos : i - s.closed.size ≠ 0 := by omega
      simp [hlt, hpos]

theorem length_eq (s : Chunked α) : s.length = s.toList.length := Chunk.total_eq s.chunks

theorem contains_endCut (s : Chunked α) : s.Contains s.endCut := by
  simp [Contains, endCut, chunk?]

/-! ## Recording -/

/-- The event of opening a chunk, when a reservation of `n` items needs one. -/
def growth (s : Chunked α) (n : Nat) : List Event :=
  if s.current.room < n then [.allocated s.chunkCount (max s.chunkSize n)] else []

/-- What a reservation of `n` items leaves: they fit into the current chunk. -/
def reserve (s : Chunked α) (n : Nat) : Chunked α :=
  if s.current.room < n then
    { s with closed := s.closed.push s.current, current := .empty (max s.chunkSize n) }
  else s

/-- Announce the chunk that a reservation of `n` items opens, and check that there can be one with
columns of at most the given width. -/
def prepare (s : Chunked α) (width n : Nat) : Run Unit := do
  Run.note (s.growth n)
  if s.current.room < n then Chunk.check width (max s.chunkSize n)

/-- Add items to the current chunk, which has room for them. -/
def extend (s : Chunked α) (xs : List α) : Chunked α :=
  { s with current := { s.current with items := s.current.items ++ xs.toArray } }

/-- Add one item; it is a fault if nothing was reserved for it. -/
def push (s : Chunked α) (x : α) : Except Fault (Chunked α) :=
  if s.current.room = 0 then .error .noRoom else .ok (s.extend [x])

def pushRun (s : Chunked α) (xs : List α) : Chunked α := (s.reserve xs.length).extend xs

def pushZeroed [Zero α] (s : Chunked α) (n : Nat) : Chunked α := s.pushRun (List.replicate n 0)

/-- Overwrite the start of the run formed by the last `n` items. -/
def fillRun (s : Chunked α) (n : Nat) (xs : List α) : Chunked α :=
  let start := s.current.items.size - n
  let items := s.current.items
  { s with current := { s.current with
      items := items.take start ++ xs.toArray ++ items.extract (start + xs.length) items.size } }

/-- Reserve: after this the next `n` items fit into the current chunk. -/
def makeRoom (s : Chunked α) (width n : Nat) : Run (Chunked α) := do
  s.prepare width n
  return s.reserve n

/-- Reserve `n` zeros and write `xs` over the first of them. -/
def addZeroed [Zero α] (s : Chunked α) (width n : Nat) (xs : List α) : Run (Chunked α) := do
  s.prepare width n
  return (s.pushZeroed n).fillRun n xs

@[simp] theorem growth_zero (s : Chunked α) : s.growth 0 = [] := by
  simp [growth]

@[simp] theorem outcome_prepare (s : Chunked α) (width n : Nat) (j : Journal) :
    (s.prepare width n).outcome j =
      (if s.current.room < n then Chunk.check width (max s.chunkSize n) else .ok (),
        j.note (s.growth n)) := by
  unfold prepare
  by_cases h : s.current.room < n
  · simp [h]
  · simp [h]

@[simp] theorem pushRun_nil (s : Chunked α) : s.pushRun [] = s := by
  simp [pushRun, reserve, extend]

theorem toList_reserve (s : Chunked α) (n : Nat) : (s.reserve n).toList = s.toList := by
  unfold reserve
  split <;> simp [toList, chunks, Chunk.empty]

theorem toList_extend (s : Chunked α) (xs : List α) : (s.extend xs).toList = s.toList ++ xs := by
  simp [toList, chunks, extend]

theorem toList_pushRun (s : Chunked α) (xs : List α) : (s.pushRun xs).toList = s.toList ++ xs := by
  rw [pushRun, toList_extend, toList_reserve]

/-! ## Truncation -/

/-- The stream up to a cut; later chunks are dropped and the chunk of the cut becomes current. -/
def truncate (s : Chunked α) (p : Cut) : Chunked α :=
  match s.chunk? p.chunk with
  | some c =>
    { s with closed := s.closed.take p.chunk, current := { c with items := c.items.take p.offset } }
  | none => s

def rewindTo (s : Chunked α) (p : Cut) : Except Fault (Chunked α) :=
  if s.Contains p then .ok (s.truncate p) else .error (.streamRewind p s.endCut)

def clear (s : Chunked α) : Chunked α := s.truncate .zero

theorem contains_zero (s : Chunked α) : s.Contains .zero := by
  unfold Contains chunk? Cut.zero
  by_cases h : 0 = s.closed.size
  · simp only [if_pos h]
    exact Nat.zero_le _
  · have hpos : 0 < s.closed.size := by omega
    simp only [if_neg h, Array.getElem?_eq_getElem hpos]
    exact Nat.zero_le _

theorem endCut_truncate {s : Chunked α} {p : Cut} (h : s.Contains p) :
    (s.truncate p).endCut = p := by
  unfold Contains at h
  unfold truncate
  cases hc : s.chunk? p.chunk with
  | none => simp [hc] at h
  | some c =>
    rw [hc] at h
    have hchunk : p.chunk ≤ s.closed.size := by
      unfold chunk? at hc
      split at hc
      · omega
      · have := (Array.getElem?_eq_some_iff.1 hc).1
        omega
    have hoffset : p.offset ≤ c.items.size := h
    simp [endCut, Nat.min_eq_left hchunk, Nat.min_eq_left hoffset]

@[simp] theorem toList_clear (s : Chunked α) : s.clear.toList = [] := by
  obtain ⟨size, closed, current⟩ := s
  unfold clear truncate chunk? Cut.zero
  by_cases h : 0 = closed.size
  · simp [h.symm, toList, chunks]
  · have hpos : 0 < closed.size := by omega
    simp [h, hpos, toList, chunks]

theorem toList_create {n : Nat} {s : Chunked α} (h : create n = .ok s) : s.toList = [] := by
  unfold create at h
  split at h
  · cases h
  · cases h
    simp [toList, chunks, Chunk.empty]

/-! ## Distance and equality of cuts -/

/-- The number of items from one cut to a later one; zero when the second is not later.  Only for
a cut outside the stream that number can be none. -/
def distance (s : Chunked α) (start stop : Cut) : Except Fault Nat :=
  if stop ≤ start then .ok 0
  else if start.chunk = stop.chunk then .ok (stop.offset - start.offset)
  else do
    let first ← s.chunk start.chunk
    if first.items.size < start.offset then throw .negativeDistance
    if s.chunkCount < stop.chunk then throw .rangeOutside
    let between := (s.chunks.take stop.chunk).drop (start.chunk + 1)
    let n := (first.items.size - start.offset) + Chunk.total between + stop.offset
    if sizeLimit ≤ n ∧ ¬s.Contains stop then throw .sizeOverflow
    return n

/-- Move a cut at the end of a chunk to the start of the next one, `fuel` times at most. -/
def normalizeAux (s : Chunked α) : Nat → Cut → Cut
  | 0, p => p
  | fuel + 1, p =>
    if p.chunk + 1 < s.chunkCount ∧ (s.chunk? p.chunk).map (fun c => c.items.size) = some p.offset
    then normalizeAux s fuel ⟨p.chunk + 1, 0⟩
    else p

/-- The last of the cuts that denote the same place: no cut but the last one of the stream stands
at the end of its chunk. -/
def normalize (s : Chunked α) (p : Cut) : Cut := s.normalizeAux (s.chunkCount - p.chunk) p

/-- Whether two cuts denote the same place between items. -/
def SameCut (s : Chunked α) (p q : Cut) : Prop := s.normalize p = s.normalize q

instance (s : Chunked α) (p q : Cut) : Decidable (s.SameCut p q) :=
  inferInstanceAs (Decidable (s.normalize p = s.normalize q))

/-- Whether the chunk after a cut has a number. It has for every cut in the stream. -/
def HasNext (s : Chunked α) (p : Cut) : Prop := p.chunk < s.chunkCount ∨ p.chunk + 1 < sizeLimit

instance (s : Chunked α) (p : Cut) : Decidable (s.HasNext p) :=
  inferInstanceAs (Decidable (p.chunk < s.chunkCount ∨ p.chunk + 1 < sizeLimit))

/-- Compare two cuts, which may lie outside the stream, by the places they denote. -/
def sameCut (s : Chunked α) (p q : Cut) : Except Fault Bool :=
  if s.HasNext p ∧ s.HasNext q then .ok (decide (s.SameCut p q)) else .error .sizeOverflow

end Chunked

end Autodiff
