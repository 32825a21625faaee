import Autodiff.Proofs.Stream.Calls
import Mathlib.Algebra.GroupWithZero.Nat
import Mathlib.Algebra.Notation.Prod

/-!
# Streams in two columns

In memory the items of a stream are pairs, and a chunk holds the two sides of its items in columns
of their own.  Every operation takes the last chunk of a list, measures what is in it by the first
column, and treats the columns one after the other.  That the list is never empty, that the columns
are equally long and that no more is in them than their limit is not part of the layout: it is what
the calls keep.  A stream is laid out in this way by `Chunked.columns`.
-/

namespace Autodiff

/-! ## The layout -/

/-- A chunk in memory: two columns and the number of items that may stand in each. -/
structure Strip (α β : Type) where
  first : Array α
  second : Array β
  limit : Nat

namespace Strip

variable {α β : Type}

def empty (limit : Nat) : Strip α β := ⟨#[], #[], limit⟩

/-- What the limit leaves over the first column; it is a fault if that is less than nothing. -/
def room (c : Strip α β) : Except Fault Nat :=
  if c.limit < c.first.size then .error .negativeDistance else .ok (c.limit - c.first.size)

def push (c : Strip α β) (x : α × β) : Strip α β :=
  { c with first := c.first.push x.1, second := c.second.push x.2 }

/-- Drop what a column has beyond `size` items, or fill it up with zeros. -/
def resizeColumn {γ : Type} [Zero γ] (xs : Array γ) (size : Nat) : Array γ :=
  xs.take size ++ Array.replicate (size - xs.size) 0

/-- Write over some items of a column, from `start` on. -/
def writeColumn {γ : Type} (xs : Array γ) (start : Nat) (ys : List γ) : Array γ :=
  xs.take start ++ ys.toArray ++ xs.extract (start + ys.length) xs.size

def resize [Zero α] [Zero β] (c : Strip α β) (size : Nat) : Strip α β :=
  { c with first := resizeColumn c.first size, second := resizeColumn c.second size }

def write (c : Strip α β) (start : Nat) (xs : List (α × β)) : Strip α β :=
  { c with
    first := writeColumn c.first start (xs.map Prod.fst)
    second := writeColumn c.second start (xs.map Prod.snd) }

def cutOff (c : Strip α β) (size : Nat) : Strip α β :=
  { c with first := c.first.take size, second := c.second.take size }

end Strip

/-- A list of chunks in memory, of which the last is filled. -/
structure Columns (α β : Type) where
  chunkSize : Nat
  strips : Array (Strip α β)

namespace Columns

variable {α β : Type}

def create (width n : Nat) : Except Fault (Columns α β) := do
  Chunk.check width n
  return ⟨n, #[.empty n]⟩

/-- The last chunk; without any chunk it would have no number. -/
def current (t : Columns α β) : Except Fault (Strip α β) :=
  match t.strips.back? with
  | some c => .ok c
  | none => .error .negativeDistance

def replaceCurrent (t : Columns α β) (c : Strip α β) : Columns α β :=
  { t with strips := t.strips.pop.push c }

def reserve (t : Columns α β) (width n : Nat) : Run (Columns α β) := do
  let c ← t.current
  let room ← c.room
  if room < n then
    let limit := max t.chunkSize n
    Run.note [.allocated t.strips.size limit]
    Chunk.check width limit
    return { t with strips := t.strips.push (.empty limit) }
  else return t

def push (t : Columns α β) (x : α × β) : Except Fault (Columns α β) := do
  let c ← t.current
  let room ← c.room
  if room = 0 then throw .noRoom
  return t.replaceCurrent (c.push x)

/-- Reserve `n` zeros and write `xs` over the first of them. -/
def pushZeroed [Zero α] [Zero β] (t : Columns α β) (width n : Nat) (xs : List (α × β)) :
    Run (Columns α β) := do
  let t ← t.reserve width n
  let c ← t.current
  return t.replaceCurrent ((c.resize (c.first.size + n)).write c.first.size xs)

def contains (t : Columns α β) (p : Cut) : Bool :=
  t.strips[p.chunk]?.any fun c => p.offset ≤ c.first.size

/-- Drop the chunks behind the one with number `i`. -/
def upTo (t : Columns α β) (i : Nat) : Columns α β :=
  { t with strips := t.strips.take (i + 1) }

def rewindTo (t : Columns α β) (p : Cut) : Except Fault (Columns α β) := do
  let c ← t.current
  unless t.contains p do
    throw (.streamRewind p ⟨t.strips.size - 1, c.first.size⟩)
  let t := t.upTo p.chunk
  let c ← t.current
  return t.replaceCurrent (c.cutOff p.offset)

open Chunked (Call)

variable [Zero α] [Zero β]

def perform (width : Nat) (t : Columns α β) : Call (α × β) → Run (Columns α β)
  | .reserve n => t.reserve width n
  | .push x => liftM (t.push x)
  | .zeroed xs n => t.pushZeroed width (xs.length + n) xs
  | .rewind p => liftM (t.rewindTo p)
  | .clear => liftM (t.rewindTo .zero)

def performAll (width n : Nat) (cs : List (Call (α × β))) : Run (Columns α β) := do
  let t ← create width n
  cs.foldlM (perform width) t

end Columns

/-! ## Laying out a stream -/

variable {α β : Type}

def Chunk.strip (c : Chunk (α × β)) : Strip α β :=
  ⟨c.items.map Prod.fst, c.items.map Prod.snd, c.limit⟩

/-- The chunks of a stream as they lie in memory. -/
def Chunked.columns (s : Chunked (α × β)) : Columns α β :=
  ⟨s.chunkSize, (s.closed.map Chunk.strip).push s.current.strip⟩

namespace Strip

theorem room_strip {c : Chunk (α × β)} (h : c.items.size ≤ c.limit) :
    c.strip.room = .ok c.room := by
  have hsize : c.strip.first.size = c.items.size := Array.size_map
  have hnot : ¬c.strip.limit < c.items.size := Nat.not_lt.2 h
  rw [room, hsize, if_neg hnot]
  rfl

theorem push_strip (c : Chunk (α × β)) (x : α × β) :
    c.strip.push x = Chunk.strip { c with items := c.items ++ [x].toArray } := by
  simp [push, Chunk.strip]

theorem cutOff_strip (c : Chunk (α × β)) (n : Nat) :
    c.strip.cutOff n = Chunk.strip { c with items := c.items.take n } := by
  simp [cutOff, Chunk.strip, Array.map_extract]

/-- Zeros are appended and then written over. -/
theorem writeColumn_resizeColumn {γ : Type} [Zero γ] (xs : Array γ) (ys : List γ) (n : Nat) :
    writeColumn (resizeColumn xs (xs.size + (ys.length + n))) xs.size ys =
      xs ++ (ys ++ List.replicate n 0).toArray := by
  have hold (stop : Nat) : xs.extract (xs.size + ys.length) stop = #[] :=
    Array.extract_eq_empty_of_le (by omega)
  have hresize : resizeColumn xs (xs.size + (ys.length + n)) =
      xs ++ Array.replicate (ys.length + n) 0 := by
    have hwhole : xs.take (xs.size + (ys.length + n)) = xs := by
      rw [Array.take_eq_extract, Array.extract_eq_self_of_le (Nat.le_add_right _ _)]
    rw [resizeColumn, hwhole, Nat.add_sub_cancel_left]
  have htail : ys.toArray ++ Array.replicate n 0 = (ys ++ List.replicate n 0).toArray := by
    apply Array.toList_inj.1
    simp
  rw [hresize, ← htail]
  simp [writeColumn, Array.extract_append, hold]

theorem write_resize_strip [Zero α] [Zero β] (c : Chunk (α × β)) (xs : List (α × β)) (n : Nat) :
    (c.strip.resize (c.strip.first.size + (xs.length + n))).write c.strip.first.size xs =
      Chunk.strip { c with items := c.items ++ (xs ++ List.replicate n 0).toArray } := by
  have hfirst := writeColumn_resizeColumn (c.items.map Prod.fst) (xs.map Prod.fst) n
  have hsecond := writeColumn_resizeColumn (c.items.map Prod.snd) (xs.map Prod.snd) n
  simp only [Array.size_map, List.length_map] at hfirst hsecond
  simp [write, resize, Chunk.strip, hfirst, hsecond]

end Strip

namespace Chunked

open Run

variable {s s' : Chunked (α × β)}

theorem getElem?_strips (s : Chunked (α × β)) (i : Nat) :
    s.columns.strips[i]? = (s.chunk? i).map Chunk.strip := by
  unfold columns chunk?
  rw [Array.getElem?_push, Array.size_map]
  by_cases hi : i = s.closed.size
  · rw [if_pos hi, if_pos hi]
    rfl
  · rw [if_neg hi, if_neg hi, Array.getElem?_map]

theorem create_columns (width n : Nat) :
    (Columns.create width n : Except Fault (Columns α β)) = (allocate width n).map columns := by
  rw [Columns.create, allocate]
  cases hcheck : Chunk.check width n with
  | error e => rfl
  | ok u =>
    have hpos : 0 < n := (Chunk.check_eq_ok_iff.1 hcheck).1
    show _ = (create n).map columns
    rw [create, if_neg (Nat.ne_of_gt hpos)]
    show Except.ok _ = Except.ok _
    simp [columns, Strip.empty, Chunk.strip, Chunk.empty]

theorem current_columns (s : Chunked (α × β)) : s.columns.current = .ok s.current.strip := by
  simp [Columns.current, columns]

theorem replaceCurrent_columns (s : Chunked (α × β)) (c : Chunk (α × β)) :
    s.columns.replaceCurrent c.strip = columns { s with current := c } := by
  simp [Columns.replaceCurrent, columns]

theorem reserve_columns (h : s.Fits) (width n : Nat) :
    s.columns.reserve width n = columns <$> s.makeRoom width n := by
  have hroom := Strip.room_strip (fits_iff.1 h).2
  have hsize : s.columns.strips.size = s.chunkCount := by simp [columns, chunkCount]
  rw [Columns.reserve, current_columns, makeRoom, prepare, growth, reserve, hsize]
  by_cases hlt : s.current.room < n
  · have hstrips : columns ⟨s.chunkSize, s.closed.push s.current, .empty (max s.chunkSize n)⟩ =
        { s.columns with strips := s.columns.strips.push (.empty (max s.chunkSize n)) } := by
      simp [columns, Strip.empty, Chunk.strip, Chunk.empty]
    simp only [liftM_ok, pure_bind, hroom, if_pos hlt, map_bind, map_pure, bind_assoc, hstrips]
    rfl
  · simp only [liftM_ok, pure_bind, hroom, if_neg hlt, map_bind, map_pure, bind_assoc]
    rfl

theorem push_columns (h : s.Fits) (x : α × β) :
    s.columns.push x = (s.push x).map columns := by
  have hroom := Strip.room_strip (fits_iff.1 h).2
  rw [Columns.push, current_columns]
  simp only [bind, Except.bind, hroom]
  by_cases hzero : s.current.room = 0
  · rw [push, if_pos hzero, if_pos hzero]
    rfl
  · rw [push, if_neg hzero, if_neg hzero, Strip.push_strip]
    exact congrArg Except.ok (s.replaceCurrent_columns _)

theorem contains_columns (s : Chunked (α × β)) (p : Cut) :
    s.columns.contains p = true ↔ s.Contains p := by
  rw [Columns.contains, getElem?_strips, contains_iff]
  cases s.chunk? p.chunk <;> simp [Chunk.strip]

theorem upTo_columns {i : Nat} {c : Chunk (α × β)} (hc : s.chunk? i = some c) :
    s.columns.upTo i = columns ⟨s.chunkSize, s.closed.take i, c⟩ := by
  have hlt : i < s.closed.size + 1 := lt_chunkCount_of_chunk? hc
  have hi : s.columns.strips[i]? = some c.strip := by
    rw [getElem?_strips, hc]
    rfl
  obtain ⟨hsize, hget⟩ := Array.getElem?_eq_some_iff.1 hi
  have hle : i ≤ (s.closed.map Chunk.strip).size := by
    rw [Array.size_map]
    omega
  have hbefore : s.columns.strips.extract 0 i = (s.closed.extract 0 i).map Chunk.strip := by
    rw [columns, Array.extract_push_of_le hle, Array.map_extract]
  have htake : s.columns.strips.take (i + 1) =
      ((s.closed.take i).map Chunk.strip).push c.strip := by
    rw [Array.take_eq_extract, Array.take_eq_extract, ← hbefore, ← hget,
      Array.extract_succ_right (Nat.succ_pos i) hsize]
  exact congrArg (Columns.mk s.chunkSize) htake

theorem rewindTo_columns (s : Chunked (α × β)) (p : Cut) :
    s.columns.rewindTo p = (s.rewindTo p).map columns := by
  rw [Columns.rewindTo, current_columns]
  simp only [bind, Except.bind]
  by_cases hp : s.Contains p
  · obtain ⟨c, hc, -⟩ := contains_iff.1 hp
    have htruncate : s.truncate p = ⟨s.chunkSize, s.closed.take p.chunk,
        { c with items := c.items.take p.offset }⟩ := by
      simp only [truncate, hc]
    rw [rewindTo, if_pos hp, if_pos ((s.contains_columns p).2 hp), htruncate]
    simp only [pure, Except.pure, upTo_columns hc, current_columns, Strip.cutOff_strip,
      replaceCurrent_columns]
    rfl
  · have hnot : ¬s.columns.contains p = true := fun h => hp ((s.contains_columns p).1 h)
    have hend : (⟨s.columns.strips.size - 1, s.current.strip.first.size⟩ : Cut) = s.endCut := by
      simp [columns, endCut, Chunk.strip]
    rw [rewindTo, if_neg hp, if_neg hnot, hend]
    rfl

/-! ## Calls in columns -/

variable [Zero α] [Zero β]

theorem pushZeroed_columns (h : s.Fits) (width : Nat) (xs : List (α × β)) (n : Nat) :
    s.columns.pushZeroed width (xs.length + n) xs =
      columns <$> s.addZeroed width (xs.length + n) xs := by
  have hlength : (xs ++ List.replicate n (0 : α × β)).length = xs.length + n := by simp
  rw [Columns.pushZeroed, reserve_columns h, addZeroed, fillRun_pushZeroed, pushRun, hlength]
  simp only [makeRoom, map_bind, map_pure, bind_assoc, pure_bind, current_columns, liftM_ok,
    Strip.write_resize_strip, replaceCurrent_columns]
  rfl

theorem perform_columns (h : s.Fits) (width : Nat) (c : Call (α × β)) :
    s.columns.perform width c = columns <$> c.perform width s := by
  have hmap (x : Except Fault (Chunked (α × β))) :
      (liftM (x.map columns) : Run (Columns α β)) = columns <$> (liftM x : Run _) := by
    cases x <;> rfl
  cases c with
  | reserve n => exact reserve_columns h width n
  | push x =>
    rw [Columns.perform, push_columns h]
    exact hmap _
  | zeroed xs n => exact pushZeroed_columns h width xs n
  | rewind p =>
    rw [Columns.perform, rewindTo_columns]
    exact hmap _
  | clear =>
    rw [Columns.perform, rewindTo_columns, rewindTo, if_pos s.contains_zero]
    rfl

/-- The columns hold what the stream holds, a call that fails on one fails on the other, and both
announce the same. -/
theorem performAll_columns (width n : Nat) (cs : List (Call (α × β))) :
    Columns.performAll width n cs = columns <$> Call.performAll width n cs := by
  induction cs using List.reverseRecOn with
  | nil =>
    rw [Columns.performAll, Call.performAll, create_columns]
    cases allocate width n <;> rfl
  | append_singleton cs c ih =>
    have hconcat : Columns.performAll width n (cs ++ [c]) =
        Columns.performAll width n cs >>= fun t => t.perform width c := by
      simp [Columns.performAll]
    rw [hconcat, ih, Call.performAll_concat, bind_map_left, map_bind]
    -- The columns only follow a stream that is not overfull, and that is known of what the calls
    -- before have led to.
    apply bind_congr_of_outcome
    intro j s j' hs
    exact perform_columns
      (Call.fits_performAll ((Call.inStep_performAll width n cs).yields_of_outcome hs)) width c

/-! ## Main statement -/

/-- Calls in which no chunk is opened that there is no memory for, no push lacks room, and no cut is
rewound to that the stream does not contain, do not fail, and there is always a chunk.  The columns
of a chunk are equally long and within its limit, so that the room left in it can be computed, and
no more bytes are used than set aside.  A limit is at least the common size, and if it is more, it
is that of a reservation for which the chunk was opened.  After a reservation of `m` items, all
chunks hold what they held before.  Then up to `m` items can be pushed, whatever is reserved in
between, and they stand one after the other in one chunk. -/
theorem reservations_keep_chunks_within_limits {width n : Nat} {cs : List (Call (α × β))}
    (hn : 0 < n) (hsize : n * width ≤ memoryLimit) (hcs : Call.Lawful width (blank n) cs) :
    ∃ (s : Chunked (α × β)) (t : Columns α β),
      (Call.performAll width n cs).Yields s ∧ (Columns.performAll width n cs).Yields t ∧
      t = s.columns ∧ 0 < t.strips.size ∧
      (∀ i c, t.strips[i]? = some c →
        c.first.size = c.second.size ∧ c.first.size ≤ c.limit ∧
        c.room = .ok (c.limit - c.first.size) ∧
        n ≤ c.limit ∧ (n < c.limit → Call.Opened width n cs i c.limit)) ∧
      (∀ size, s.usedBytes size ≤ s.allocatedBytes size) ∧
      ∀ m ms xs, xs.length ≤ m → Call.Lawful width s ((m :: ms).map Call.reserve) → ∃ s' s'' c,
        (((m :: ms).map Call.reserve).foldlM (Call.perform width) s).Yields s' ∧
        (∀ i, i < s.chunkCount → s'.chunk? i = s.chunk? i) ∧ s'.toList = s.toList ∧
        ((xs.map Call.push).foldlM (Call.perform width) s').Yields s'' ∧
        s''.toList = s.toList ++ xs ∧ s''.chunk? s'.endCut.chunk = some c ∧
        c.slice s'.endCut.offset (s'.endCut.offset + xs.length) = .ok xs := by
  obtain ⟨s, hs⟩ := hcs.exists_performAll hn hsize
  have hcolumns : (Columns.performAll width n cs).Yields s.columns := by
    rw [performAll_columns, map_eq_pure_bind]
    exact hs.bind (yields_pure _)
  have hfits := Call.fits_performAll hs
  have hcount : 0 < s.columns.strips.size := by
    rw [columns, Array.size_push]
    exact Nat.succ_pos _
  refine ⟨s, s.columns, hs, hcolumns, rfl, hcount, fun i c hc => ?_, hfits.usedBytes_le,
    fun m ms xs hxs hms => ?_⟩
  · rw [getElem?_strips, Option.map_eq_some_iff] at hc
    obtain ⟨k, hk, rfl⟩ := hc
    have hfirst : k.strip.first.size = k.items.size := Array.size_map
    have hsecond : k.strip.second.size = k.items.size := Array.size_map
    have hle := hfits.chunk hk
    refine ⟨hfirst.trans hsecond.symm, hfirst ▸ hle, ?_, Call.limit_performAll hs i k hk⟩
    rw [Strip.room_strip hle, hfirst]
    rfl
  · have hroom : xs.length ≤ ((m :: ms).foldl reserve s).current.room :=
      Nat.le_trans hxs (le_room_foldl_reserve (s.le_room_reserve m) ms)
    refine ⟨_, _, _, hms.foldlM_reserve, fun i hi => chunk?_foldl_reserve hi _,
      toList_foldl_reserve s _, Call.foldlM_push hroom, ?_, chunk?_current _, slice_extend _ xs⟩
    rw [toList_extend, toList_foldl_reserve]

/-- Two chunks larger than the others: one that is empty again after the next one was dropped, and
one that took its place for another reservation. -/
theorem reservations_keep_chunks_within_limits_of_replaced : ∃ (cs : List (Call (Nat × Nat)))
    (s : Chunked (Nat × Nat)) (t : Columns Nat Nat),
      cs = [.reserve 3, .push (1, 10), .push (2, 20), .reserve 6, .reserve 9, .push (3, 30),
        .rewind ⟨1, 0⟩, .zeroed [(4, 40), (5, 50)] 5, .reserve 2] ∧
      Call.Lawful 8 (blank 4) cs ∧ (Call.performAll 8 4 cs).Yields s ∧
      (Columns.performAll 8 4 cs).Yields t ∧
      t.strips = #[⟨#[1, 2], #[10, 20], 4⟩, ⟨#[], #[], 6⟩,
        ⟨#[4, 5, 0, 0, 0, 0, 0], #[40, 50, 0, 0, 0, 0, 0], 7⟩, ⟨#[], #[], 4⟩] ∧
      Call.Opened 8 4 cs 1 6 ∧ Call.Opened 8 4 cs 2 7 ∧
      Call.Lawful 8 s [.reserve 3, .reserve 9, .reserve 5] ∧
      ∃ s' s'' c, ([Call.reserve 3, .reserve 9, .reserve 5].foldlM (Call.perform 8) s).Yields s' ∧
        ([Call.push (6, 60), .push (7, 70), .push (8, 80)].foldlM (Call.perform 8) s').Yields s'' ∧
        s''.chunk? s'.endCut.chunk = some c ∧
        c.slice s'.endCut.offset (s'.endCut.offset + 3) = .ok [(6, 60), (7, 70), (8, 80)] := by
  have hfilled : (Call.perform 8 (⟨4, #[⟨#[(1, 10), (2, 20)], 4⟩], ⟨#[], 6⟩⟩ : Chunked (Nat × Nat))
      (.zeroed [(4, 40), (5, 50)] 5)).Yields ⟨4, #[⟨#[(1, 10), (2, 20)], 4⟩, ⟨#[], 6⟩],
        ⟨#[(4, 40), (5, 50), (0, 0), (0, 0), (0, 0), (0, 0), (0, 0)], 7⟩⟩ :=
    yields_addZeroed_iff.2 ⟨by decide, rfl⟩
  have hlawful : Call.Lawful 8 (blank 4 : Chunked (Nat × Nat)) [.reserve 3, .push (1, 10),
      .push (2, 20), .reserve 6, .reserve 9, .push (3, 30), .rewind ⟨1, 0⟩,
      .zeroed [(4, 40), (5, 50)] 5, .reserve 2] :=
    .cons (by decide) (fun _ => rfl) <| .cons (by decide) (fun _ => rfl) <|
      .cons (by decide) (fun _ => rfl) <| .cons (by decide) (fun _ => rfl) <|
      .cons (by decide) (fun _ => rfl) <| .cons (by decide) (fun _ => rfl) <|
      .cons (by decide) (fun _ => rfl) <| .cons (by decide) hfilled <|
      .cons (by decide) (fun _ => rfl) trivial
  obtain ⟨s, t, hs, ht, hcolumns, -, hstrips, -, hpush⟩ :=
    reservations_keep_chunks_within_limits (by decide) (by decide) hlawful
  have hbefore : (Call.performAll 8 4 [.reserve 3, .push (1, 10), .push (2, 20), .reserve 6,
      .reserve 9, .push (3, 30), .rewind ⟨1, 0⟩]).Yields
      (⟨4, #[⟨#[(1, 10), (2, 20)], 4⟩], ⟨#[], 6⟩⟩ : Chunked (Nat × Nat)) := fun _ => rfl
  have hall := Call.yields_performAll_concat_iff.2 ⟨_, hbefore, hfilled⟩
  have hrun := Call.yields_performAll_concat_iff.2 ⟨_, hall,
    show ((Call.reserve 2).perform 8 _).Yields _ from fun _ => rfl⟩
  have hend := hs.unique hrun
  have hlayout : t.strips = #[⟨#[1, 2], #[10, 20], 4⟩, ⟨#[], #[], 6⟩,
      ⟨#[4, 5, 0, 0, 0, 0, 0], #[40, 50, 0, 0, 0, 0, 0], 7⟩, ⟨#[], #[], 4⟩] := by
    rw [hcolumns, hend]
    simp [reserve, Chunk.room, Chunk.empty, columns, Chunk.strip]
  have hopened (i : Nat) (c : Strip Nat Nat) (hc : t.strips[i]? = some c) (hlimit : 4 < c.limit) :=
    (hstrips i c hc).2.2.2.2 hlimit
  rw [hlayout] at hopened
  have hmore : Call.Lawful 8 s ([3, 9, 5].map Call.reserve) := by
    rw [hend]
    exact .cons (by decide) (fun _ => rfl) <| .cons (by decide) (fun _ => rfl) <|
      .cons (by decide) (fun _ => rfl) trivial
  obtain ⟨s', s'', c, hreserve, -, -, hpushed, -, hc, hslice⟩ :=
    hpush 3 [9, 5] [(6, 60), (7, 70), (8, 80)] (by decide) hmore
  exact ⟨_, s, t, rfl, hlawful, hs, ht, hlayout, hopened 1 _ rfl (by decide),
    hopened 2 _ rfl (by decide), hmore, s', s'', c, hreserve, hpushed, hc, hslice⟩

end Chunked

end Autodiff
