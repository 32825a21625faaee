import Autodiff.Proofs.Outcome
import Autodiff.Proofs.Stream.Batches
import Autodiff.Proofs.Stream.Offsets

/-!
# What chunks are set aside for

Items are recorded only where there is room for them, so no chunk is overfull.  As long as a chunk
is there its limit stays, and room that was reserved is still there when more is reserved before it
is used.  A chunk is opened only if there is memory for it.
-/

namespace Autodiff

/-! ## Chunks are never overfull -/

theorem Chunk.mul_total_le {α : Type} {cs : List (Chunk α)}
    (h : ∀ c ∈ cs, c.items.size ≤ c.limit) (width : Nat) :
    width * total cs ≤ cs.foldr (fun c n => c.limit * width + n) 0 := by
  induction cs with
  | nil => exact Nat.le_refl _
  | cons c cs ih =>
    rw [List.forall_mem_cons] at h
    have hrest := ih h.2
    have hchunk : c.items.size * width ≤ c.limit * width := Nat.mul_le_mul_right width h.1
    show width * (c.items.size + total cs) ≤
      c.limit * width + cs.foldr (fun c n => c.limit * width + n) 0
    rw [Nat.mul_add, Nat.mul_comm width c.items.size]
    omega

theorem Chunk.check_eq_ok_iff {width limit : Nat} :
    check width limit = .ok () ↔ 0 < limit ∧ limit * width ≤ memoryLimit := by
  unfold check
  by_cases hzero : limit = 0
  · simp [hzero]
  · have hpos : 0 < limit := Nat.pos_of_ne_zero hzero
    by_cases hsize : memoryLimit < limit * width
    · simp [hzero, hsize]
    · simp [hzero, hsize, hpos, Nat.le_of_not_lt hsize]

open Run

namespace Chunked

variable {α : Type} {s s' : Chunked α} {p : Cut} {i m n : Nat}

/-- No chunk of the stream holds more items than it has room for. -/
def Fits (s : Chunked α) : Prop := ∀ c ∈ s.chunks, c.items.size ≤ c.limit

theorem fits_iff {s : Chunked α} :
    s.Fits ↔ (∀ c ∈ s.closed.toList, c.items.size ≤ c.limit) ∧
      s.current.items.size ≤ s.current.limit := by
  simp only [Fits, chunks, List.forall_mem_append, List.forall_mem_singleton]

theorem fits_blank (n : Nat) : (blank n : Chunked α).Fits := by
  rw [fits_iff]
  exact ⟨fun c hc => absurd hc List.not_mem_nil, Nat.zero_le n⟩

theorem Fits.chunk (h : s.Fits) {c : Chunk α} (hc : s.chunk? i = some c) :
    c.items.size ≤ c.limit := by
  rw [chunk?_eq] at hc
  exact h c (List.mem_of_getElem? hc)

theorem chunks_reserve (h : s.current.room < n) :
    (s.reserve n).chunks = s.chunks ++ [.empty (max s.chunkSize n)] := by
  simp [Chunked.reserve, h, chunks]

theorem Fits.reserve (h : s.Fits) (n : Nat) : (s.reserve n).Fits := by
  by_cases hroom : s.current.room < n
  · rw [Fits, chunks_reserve hroom, List.forall_mem_append, List.forall_mem_singleton]
    exact ⟨h, Nat.zero_le _⟩
  · rw [Chunked.reserve, if_neg hroom]
    exact h

theorem Fits.extend (h : s.Fits) {xs : List α} (hroom : xs.length ≤ s.current.room) :
    (s.extend xs).Fits := by
  rw [fits_iff] at h ⊢
  refine ⟨h.1, ?_⟩
  have hcurrent := h.2
  unfold Chunk.room at hroom
  simp only [Chunked.extend, Array.size_append, List.size_toArray]
  omega

/-- A run is recorded only where there is room for the whole of it. -/
theorem Fits.pushRun {s : Chunked α} (h : s.Fits) (xs : List α) : (s.pushRun xs).Fits :=
  (h.reserve xs.length).extend (s.le_room_reserve xs.length)

theorem fits_ofRuns (n : Nat) (runs : List (List α)) : (ofRuns n runs).Fits := by
  induction runs using List.reverseRecOn with
  | nil => exact fits_blank n
  | append_singleton runs xs ih =>
    rw [ofRuns_concat]
    exact ih.pushRun xs

theorem Fits.usedBytes_le {s : Chunked α} (h : s.Fits) (width : Nat) :
    s.usedBytes width ≤ s.allocatedBytes width :=
  Chunk.mul_total_le h width

/-! ## A chunk keeps its limit -/

theorem Continues.limit_eq (h : Continues s s') {c c' : Chunk α} (hc : s.chunk? i = some c)
    (hc' : s'.chunk? i = some c') : c'.limit = c.limit := by
  obtain ⟨xs, hxs⟩ := h.grown hc
  cases hc'.symm.trans hxs
  rfl

theorem Fits.truncate (h : s.Fits) (hp : s.Contains p) : (s.truncate p).Fits := by
  intro c hc
  obtain ⟨i, hi⟩ := List.mem_iff_getElem?.1 hc
  rw [← chunk?_eq] at hi
  obtain ⟨xs, hxs⟩ := (continues_truncate hp).grown hi
  have hle : (c.items ++ xs).size ≤ c.limit := h.chunk hxs
  rw [Array.size_append] at hle
  omega

/-! ## Reservations before anything is pushed -/

theorem le_room_reserve_of_le (h : m ≤ s.current.room) (n : Nat) :
    m ≤ (s.reserve n).current.room := by
  by_cases hroom : s.current.room < n
  -- The new chunk has room for more than the old one had left.
  · exact Nat.le_trans h (Nat.le_trans (Nat.le_of_lt hroom) (s.le_room_reserve n))
  · rw [Chunked.reserve, if_neg hroom]
    exact h

theorem le_room_foldl_reserve (h : m ≤ s.current.room) (ms : List Nat) :
    m ≤ (ms.foldl reserve s).current.room := by
  induction ms generalizing s with
  | nil => exact h
  | cons n ms ih => exact ih (le_room_reserve_of_le h n)

theorem chunk?_reserve (hi : i < s.chunkCount) (n : Nat) : (s.reserve n).chunk? i = s.chunk? i := by
  by_cases hroom : s.current.room < n
  · have hlength : i < s.chunks.length := by
      rw [chunks, List.length_append, Array.length_toList]
      exact hi
    rw [chunk?_eq, chunk?_eq, chunks_reserve hroom, List.getElem?_append_left hlength]
  · rw [Chunked.reserve, if_neg hroom]

theorem chunk?_foldl_reserve (hi : i < s.chunkCount) (ms : List Nat) :
    (ms.foldl reserve s).chunk? i = s.chunk? i := by
  induction ms generalizing s with
  | nil => rfl
  | cons n ms ih =>
    have hi' := Nat.lt_of_lt_of_le hi (s.continues_reserve n).chunkCount_le
    exact (ih hi').trans (chunk?_reserve hi n)

theorem toList_foldl_reserve (s : Chunked α) (ms : List Nat) :
    (ms.foldl reserve s).toList = s.toList := by
  induction ms generalizing s with
  | nil => rfl
  | cons n ms ih => exact (ih (s.reserve n)).trans (s.toList_reserve n)

/-- Items that are added to the current chunk follow those that it has. -/
theorem slice_extend (s : Chunked α) (xs : List α) :
    (s.extend xs).current.slice s.current.items.size (s.current.items.size + xs.length) =
      .ok xs := by
  have hrange : s.current.items.size ≤ s.current.items.size + xs.length ∧
      s.current.items.size + xs.length ≤ (s.extend xs).current.items.size := by
    refine ⟨Nat.le_add_right _ _, ?_⟩
    simp only [extend, Array.size_append, List.size_toArray, Nat.le_refl]
  rw [Chunk.slice, if_pos hrange]
  simp [extend, Array.extract_append]

/-! ## Memory -/

theorem allocate_eq_ok_iff {width : Nat} :
    (allocate width n : Except Fault (Chunked α)) = .ok s ↔
      (0 < n ∧ n * width ≤ memoryLimit) ∧ blank n = s := by
  rw [allocate, Fault.bind_eq_ok_iff]
  constructor
  · rintro ⟨u, hcheck, hcreate⟩
    exact ⟨Chunk.check_eq_ok_iff.1 hcheck, (eq_blank_of_create hcreate).symm⟩
  · rintro ⟨hcheck, rfl⟩
    refine ⟨(), Chunk.check_eq_ok_iff.2 hcheck, ?_⟩
    rw [create, if_neg (Nat.ne_of_gt hcheck.1)]
    rfl

/-- If a chunk has to be opened for `n` items, there is memory for it. -/
def HasMemory (s : Chunked α) (width n : Nat) : Prop :=
  s.current.room < n → max s.chunkSize n * width ≤ memoryLimit

instance (s : Chunked α) (width n : Nat) : Decidable (s.HasMemory width n) :=
  inferInstanceAs (Decidable (s.current.room < n → max s.chunkSize n * width ≤ memoryLimit))

theorem inStep_prepare (s : Chunked α) (width n : Nat) :
    InStep Eq (s.prepare width n) (s.prepare width n) :=
  (abreast_note _).bind_same fun _ => .ite (fun _ => inStep_same _) fun _ => abreast_pure rfl

variable {width : Nat}

theorem yields_prepare_iff : (s.prepare width n).Yields () ↔ s.HasMemory width n := by
  -- What was announced before does not matter, so only the check can fail.
  have hanswer : (s.prepare width n).Yields () ↔
      (if s.current.room < n then Chunk.check width (max s.chunkSize n) else .ok ()) = .ok () := by
    simp only [Yields, outcome_prepare]
    exact ⟨fun h => h {}, fun h _ => h⟩
  rw [hanswer, HasMemory]
  by_cases hroom : s.current.room < n
  · have hpos : 0 < max s.chunkSize n := by omega
    rw [if_pos hroom, Chunk.check_eq_ok_iff, forall_prop_of_true hroom, and_iff_right hpos]
  · rw [if_neg hroom]
    exact iff_of_true rfl fun h => absurd h hroom

theorem yields_prepare_bind_iff {f : Chunked α} :
    (s.prepare width n >>= fun _ => pure f).Yields s' ↔ s.HasMemory width n ∧ f = s' := by
  rw [(s.inStep_prepare width n).yields_bind_iff fun _ => abreast_pure rfl]
  constructor
  · rintro ⟨u, hprepare, hf⟩
    exact ⟨yields_prepare_iff.1 hprepare, yields_pure_iff.1 hf⟩
  · rintro ⟨hmemory, hf⟩
    exact ⟨(), yields_prepare_iff.2 hmemory, yields_pure_iff.2 hf⟩

/-- A reservation fails only for want of memory. -/
theorem yields_makeRoom_iff :
    (s.makeRoom width n).Yields s' ↔ s.HasMemory width n ∧ s.reserve n = s' :=
  yields_prepare_bind_iff

theorem yields_addZeroed_iff [Zero α] {xs : List α} :
    (s.addZeroed width (xs.length + n) xs).Yields s' ↔
      s.HasMemory width (xs.length + n) ∧ s.pushRun (xs ++ List.replicate n 0) = s' := by
  rw [← s.fillRun_pushZeroed xs n]
  exact yields_prepare_bind_iff

end Chunked

end Autodiff
