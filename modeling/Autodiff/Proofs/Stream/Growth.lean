import Autodiff.Stream.Chunked

/-!
# Streams that grow

Recording more never touches what a stream already holds: the closed chunks stay, and the current
chunk keeps its limit and its items.  `Continues` says so of two streams.  A stream is therefore
found again by cutting any continuation of it at its end.
-/

namespace Autodiff.Chunked

variable {α : Type}

/-! ## Chunks by number -/

theorem chunk?_isSome_iff (s : Chunked α) (i : Nat) : (s.chunk? i).isSome ↔ i < s.chunkCount := by
  unfold chunk? chunkCount
  split
  · next h =>
    subst h
    simp
  · next h =>
    rw [isSome_getElem?]
    omega

theorem lt_chunkCount_of_chunk? {s : Chunked α} {i : Nat} {c : Chunk α} (h : s.chunk? i = some c) :
    i < s.chunkCount := by
  rw [← chunk?_isSome_iff, h]
  rfl

theorem exists_chunk? {s : Chunked α} {i : Nat} (h : i < s.chunkCount) :
    ∃ c, s.chunk? i = some c :=
  Option.isSome_iff_exists.1 ((s.chunk?_isSome_iff i).2 h)

theorem chunk_eq_ok_iff {s : Chunked α} {i : Nat} {c : Chunk α} :
    s.chunk i = .ok c ↔ s.chunk? i = some c := by
  unfold chunk
  cases s.chunk? i <;> simp

theorem chunk?_closed {s : Chunked α} {i : Nat} (h : i < s.closed.size) :
    s.chunk? i = s.closed[i]? := by
  have hne : i ≠ s.closed.size := by omega
  rw [chunk?, if_neg hne]

@[simp] theorem chunk?_current (s : Chunked α) : s.chunk? s.closed.size = some s.current := by
  simp [chunk?]

theorem contains_iff {s : Chunked α} {p : Cut} :
    s.Contains p ↔ ∃ c, s.chunk? p.chunk = some c ∧ p.offset ≤ c.items.size := by
  unfold Contains
  cases s.chunk? p.chunk <;> simp

theorem lt_chunkCount_of_contains {s : Chunked α} {p : Cut} (h : s.Contains p) :
    p.chunk < s.chunkCount := by
  obtain ⟨c, hc, -⟩ := contains_iff.1 h
  exact lt_chunkCount_of_chunk? hc

theorem le_endCut {s : Chunked α} {p : Cut} (h : s.Contains p) : p ≤ s.endCut := by
  obtain ⟨c, hc, hle⟩ := contains_iff.1 h
  have hlt : p.chunk < s.closed.size + 1 := lt_chunkCount_of_chunk? hc
  rw [Cut.le_iff]
  show p.chunk < s.closed.size ∨ p.chunk = s.closed.size ∧ p.offset ≤ s.current.items.size
  by_cases heq : p.chunk = s.closed.size
  · rw [heq, chunk?_current] at hc
    cases hc
    exact Or.inr ⟨heq, hle⟩
  · omega

/-! ## Continuations -/

/-- `s'` is what `s` becomes by recording more. -/
structure Continues (s s' : Chunked α) : Prop where
  chunkSize : s'.chunkSize = s.chunkSize
  closed : ∀ i, i < s.closed.size → s'.chunk? i = s.chunk? i
  current : ∃ xs, s'.chunk? s.closed.size = some ⟨s.current.items ++ xs, s.current.limit⟩

theorem Continues.refl (s : Chunked α) : Continues s s where
  chunkSize := rfl
  closed _ _ := rfl
  current := ⟨#[], by simp⟩

theorem Continues.closed_size_le {s s' : Chunked α} (h : Continues s s') :
    s.closed.size ≤ s'.closed.size := by
  obtain ⟨xs, hxs⟩ := h.current
  have hlt := lt_chunkCount_of_chunk? hxs
  unfold chunkCount at hlt
  omega

theorem Continues.chunkCount_le {s s' : Chunked α} (h : Continues s s') :
    s.chunkCount ≤ s'.chunkCount :=
  Nat.succ_le_succ h.closed_size_le

/-- A chunk has what it had before, and perhaps more items. -/
theorem Continues.grown {s s' : Chunked α} (h : Continues s s') {i : Nat} {c : Chunk α}
    (hc : s.chunk? i = some c) : ∃ xs, s'.chunk? i = some ⟨c.items ++ xs, c.limit⟩ := by
  have hlt : i < s.closed.size + 1 := lt_chunkCount_of_chunk? hc
  by_cases hclosed : i < s.closed.size
  · exact ⟨#[], by rw [h.closed i hclosed, hc, Array.append_empty]⟩
  · obtain rfl : i = s.closed.size := by omega
    rw [chunk?_current, Option.some.injEq] at hc
    exact hc ▸ h.current

theorem Continues.trans {s s' s'' : Chunked α} (h : Continues s s') (h' : Continues s' s'') :
    Continues s s'' where
  chunkSize := h'.chunkSize.trans h.chunkSize
  closed i hi := by
    have hlt : i < s'.closed.size := Nat.lt_of_lt_of_le hi h.closed_size_le
    rw [h'.closed i hlt, h.closed i hi]
  current := by
    obtain ⟨xs, hxs⟩ := h.current
    rcases Nat.lt_or_ge s.closed.size s'.closed.size with hlt | hge
    · exact ⟨xs, by rw [h'.closed _ hlt, hxs]⟩
    · -- Both streams stand in the same chunk, which has grown twice.
      have heq : s.closed.size = s'.closed.size := Nat.le_antisymm h.closed_size_le hge
      obtain ⟨ys, hys⟩ := h'.current
      have hcurrent : s'.current = ⟨s.current.items ++ xs, s.current.limit⟩ := by
        rw [heq, chunk?_current] at hxs
        exact Option.some.inj hxs
      refine ⟨xs ++ ys, ?_⟩
      rw [heq, hys, hcurrent, Array.append_assoc]

theorem continues_extend (s : Chunked α) (xs : List α) : Continues s (s.extend xs) where
  chunkSize := rfl
  closed i hi := by
    have hne : i ≠ s.closed.size := by omega
    simp [chunk?, extend, hne]
  current := ⟨xs.toArray, by simp [chunk?, extend]⟩

theorem continues_reserve (s : Chunked α) (n : Nat) : Continues s (s.reserve n) := by
  unfold reserve
  split
  · refine ⟨rfl, fun i hi => ?_, #[], ?_⟩
    · have hne : i ≠ s.closed.size := by omega
      have hne' : i ≠ s.closed.size + 1 := by omega
      simp [chunk?, hne, hne', Array.getElem?_push]
    · simp [chunk?]
  · exact .refl s

/-! ## Reservations that open a chunk -/

theorem size_closed_reserve {s : Chunked α} {n : Nat} (h : s.current.room < n) :
    (s.reserve n).closed.size = s.closed.size + 1 := by
  simp [reserve, h]

theorem endCut_reserve {s : Chunked α} {n : Nat} (h : s.current.room < n) :
    (s.reserve n).endCut = ⟨s.closed.size + 1, 0⟩ := by
  simp [reserve, h, endCut, Chunk.empty]

theorem Continues.chunk?_of_room_lt {s s' : Chunked α} {n : Nat} (h : Continues (s.reserve n) s')
    (hroom : s.current.room < n) : s'.chunk? s.closed.size = some s.current := by
  have hlt : s.closed.size < (s.reserve n).closed.size := by
    rw [size_closed_reserve hroom]
    omega
  rw [h.closed _ hlt, chunk?_closed hlt]
  simp [reserve, hroom]

/-! ## Runs -/

theorem continues_pushRun (s : Chunked α) (xs : List α) : Continues s (s.pushRun xs) :=
  (s.continues_reserve xs.length).trans (continues_extend _ xs)

theorem continues_foldl_pushRun (runs : List (List α)) (s : Chunked α) :
    Continues s (runs.foldl pushRun s) := by
  induction runs generalizing s with
  | nil => exact .refl s
  | cons xs runs ih => exact (s.continues_pushRun xs).trans (ih (s.pushRun xs))

/-! ## Cutting a continuation at the end of the original -/

theorem Continues.contains_endCut {s s' : Chunked α} (h : Continues s s') :
    s'.Contains s.endCut := by
  obtain ⟨xs, hxs⟩ := h.current
  exact contains_iff.2 ⟨_, hxs, by simp [endCut]⟩

theorem Continues.endCut_le {s s' : Chunked α} (h : Continues s s') : s.endCut ≤ s'.endCut := by
  rw [Cut.le_iff]
  simp only [endCut]
  rcases Nat.lt_or_ge s.closed.size s'.closed.size with hlt | hge
  · exact Or.inl hlt
  · have heq : s.closed.size = s'.closed.size := Nat.le_antisymm h.closed_size_le hge
    obtain ⟨xs, hxs⟩ := h.current
    rw [heq, chunk?_current] at hxs
    rw [Option.some.inj hxs, Array.size_append]
    omega

theorem Continues.take_closed {s s' : Chunked α} (h : Continues s s') :
    s'.closed.take s.closed.size = s.closed := by
  have hle := h.closed_size_le
  apply Array.ext_getElem?
  intro i
  rw [Array.take_eq_extract, Array.getElem?_extract, Nat.min_eq_left hle, Nat.zero_add,
    Nat.sub_zero]
  by_cases hi : i < s.closed.size
  · have hlt : i < s'.closed.size := by omega
    rw [if_pos hi, ← chunk?_closed hlt, h.closed i hi, chunk?_closed hi]
  · rw [if_neg hi, Array.getElem?_eq_none (by omega)]

theorem Continues.truncate_endCut {s s' : Chunked α} (h : Continues s s') :
    s'.truncate s.endCut = s := by
  obtain ⟨xs, hxs⟩ := h.current
  have hitems : (s.current.items ++ xs).take s.current.items.size = s.current.items := by simp
  have htake : s'.closed.take s.endCut.chunk = s.closed := h.take_closed
  have hchunk : s'.chunk? s.endCut.chunk = some ⟨s.current.items ++ xs, s.current.limit⟩ := hxs
  simp only [truncate, hchunk, htake, h.chunkSize]
  rw [show s.endCut.offset = s.current.items.size from rfl, hitems]

/-! ## Cutting a continuation behind the end of the original -/

theorem size_take_closed {s : Chunked α} {i : Nat} {c : Chunk α} (hc : s.chunk? i = some c) :
    (s.closed.take i).size = i := by
  have hcount : i < s.closed.size + 1 := lt_chunkCount_of_chunk? hc
  rw [Array.take_eq_extract, Array.size_extract]
  omega

theorem chunk?_truncate_of_lt {s : Chunked α} {p : Cut} {c : Chunk α}
    (hc : s.chunk? p.chunk = some c) {i : Nat} (hi : i < p.chunk) :
    (s.truncate p).chunk? i = s.chunk? i := by
  have hcount : p.chunk < s.closed.size + 1 := lt_chunkCount_of_chunk? hc
  have hclosed : i < (s.closed.take p.chunk).size := by
    rw [size_take_closed hc]
    exact hi
  simp only [truncate, hc]
  rw [chunk?_closed (by exact hclosed), chunk?_closed (by omega)]
  show (s.closed.take p.chunk)[i]? = s.closed[i]?
  rw [Array.take_eq_extract, Array.getElem?_extract, if_pos (by omega), Nat.zero_add]

theorem chunk?_truncate_self {s : Chunked α} {p : Cut} {c : Chunk α}
    (hc : s.chunk? p.chunk = some c) :
    (s.truncate p).chunk? p.chunk = some { c with items := c.items.take p.offset } := by
  simp only [truncate, hc]
  rw [chunk?, if_pos (size_take_closed hc).symm]

theorem Continues.truncate {s s' : Chunked α} (h : Continues s s') {p : Cut} (hp : s'.Contains p)
    (hle : s.endCut ≤ p) : Continues s (s'.truncate p) := by
  obtain ⟨c, hc, -⟩ := contains_iff.1 hp
  rw [Cut.le_iff] at hle
  simp only [endCut] at hle
  refine ⟨?_, fun i hi => ?_, ?_⟩
  · simp only [Chunked.truncate, hc]
    exact h.chunkSize
  · rw [chunk?_truncate_of_lt hc (by omega), h.closed i hi]
  · obtain ⟨xs, hxs⟩ := h.current
    rcases hle with hlt | ⟨hchunk, hoffset⟩
    · exact ⟨xs, by rw [chunk?_truncate_of_lt hc hlt, hxs]⟩
    · -- The cut lies in the chunk in which the original stood, behind all its items.
      rw [hchunk, hc, Option.some.injEq] at hxs
      refine ⟨xs.extract 0 (p.offset - s.current.items.size), ?_⟩
      rw [hchunk, chunk?_truncate_self hc, hxs, Option.some.injEq, Chunk.mk.injEq]
      refine ⟨?_, rfl⟩
      rw [Array.take_eq_extract, Array.extract_append, Array.extract_eq_self_of_le hoffset,
        Nat.zero_sub]

end Autodiff.Chunked
