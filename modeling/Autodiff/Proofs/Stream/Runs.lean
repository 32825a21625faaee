import Autodiff.Proofs.Stream.Growth
import Autodiff.Stream.Take
import Mathlib.Data.List.Induction

/-!
# Runs that are read back

A stream recorded run by run gives the runs back by their lengths alone, from whichever end, and
whatever was recorded behind them.  Reading forwards stands exactly where the recording stood
between two runs.  Reading backwards may stand at the start of a chunk where the recording stood at
the end of the one before: `Abuts` says so, and `finish` takes both for the same cut.
-/

namespace Autodiff.Chunked

variable {α : Type}

/-! ## Streams made of runs -/

/-- A stream with nothing in it. -/
def blank (chunkSize : Nat) : Chunked α := ⟨chunkSize, #[], .empty chunkSize⟩

/-- What recording some runs one after another leaves in a stream. -/
def ofRuns (chunkSize : Nat) (runs : List (List α)) : Chunked α :=
  runs.foldl pushRun (blank chunkSize)

theorem eq_blank_of_create {n : Nat} {s : Chunked α} (h : create n = .ok s) : s = blank n := by
  unfold create at h
  split at h
  · cases h
  · cases h
    rfl

theorem ofRuns_concat (n : Nat) (runs : List (List α)) (xs : List α) :
    ofRuns n (runs ++ [xs]) = (ofRuns n runs).pushRun xs := by
  rw [ofRuns, List.foldl_append]
  rfl

theorem continues_ofRuns (n : Nat) (runs more : List (List α)) :
    Continues (ofRuns n runs) (ofRuns n (runs ++ more)) := by
  unfold ofRuns
  rw [List.foldl_append]
  exact continues_foldl_pushRun more _

theorem toList_ofRuns (n : Nat) (runs : List (List α)) : (ofRuns n runs).toList = runs.flatten := by
  induction runs using List.reverseRecOn with
  | nil => rfl
  | append_singleton runs xs ih =>
    rw [ofRuns_concat, toList_pushRun, ih, List.flatten_append, List.flatten_singleton]

/-! ## Reading forwards -/

theorem seekForward_here {s : Chunked α} {p : Cut} {c : Chunk α} {n : Nat}
    (hc : s.chunk? p.chunk = some c) (hfit : p.offset + n ≤ c.items.size) (fuel : Nat) :
    s.seekForward n (fuel + 1) p = .ok p := by
  have hchunk := chunk_eq_ok_iff.2 hc
  simp only [seekForward, hchunk, bind, Except.bind]
  rw [if_pos hfit]
  rfl

theorem seekForward_next {s : Chunked α} {p : Cut} {c : Chunk α} {n : Nat}
    (hc : s.chunk? p.chunk = some c) (hshort : c.items.size < p.offset + n)
    (hnext : p.chunk + 1 < s.chunkCount) (fuel : Nat) :
    s.seekForward n (fuel + 1) p = s.seekForward n fuel ⟨p.chunk + 1, 0⟩ := by
  have hchunk := chunk_eq_ok_iff.2 hc
  simp only [seekForward, hchunk, bind, Except.bind]
  rw [if_neg (by omega), if_pos hnext]

theorem take_forward_of_seek {s : Chunked α} {p q : Cut} {c : Chunk α} {n : Nat} (hn : n ≠ 0)
    (hp : s.Contains p) (hq : s.seekForward n (s.chunkCount - p.chunk) p = .ok q)
    (hc : s.chunk? q.chunk = some c) (hfit : q.offset + n ≤ c.items.size) :
    s.take .forward p n =
      .ok ((c.items.extract q.offset (q.offset + n)).toList, ⟨q.chunk, q.offset + n⟩) := by
  have hstart : s.forwardStart n p = .ok q := by
    simp only [forwardStart, hq]
    rw [if_pos (Or.inr ⟨hp, rfl⟩)]
  have hslice : c.slice q.offset (q.offset + n) =
      .ok (c.items.extract q.offset (q.offset + n)).toList := by
    rw [Chunk.slice, if_pos ⟨by omega, hfit⟩]
  simp only [take, if_neg hn, hstart, chunk_eq_ok_iff.2 hc, hslice, bind, Except.bind]
  rfl

/-- Where a reservation puts the next run is where reading forwards finds it. -/
theorem seekForward_endCut {s s' : Chunked α} {xs : List α} (h : Continues (s.pushRun xs) s') :
    s'.seekForward xs.length (s'.chunkCount - s.endCut.chunk) s.endCut =
      .ok (s.reserve xs.length).endCut := by
  obtain ⟨ys, hys⟩ := h.current
  have hfit : (s.reserve xs.length).endCut.offset + xs.length ≤
      ((s.pushRun xs).current.items ++ ys).size := by
    simp only [endCut, pushRun, extend, Array.size_append, List.size_toArray]
    omega
  have hcount : (s.reserve xs.length).closed.size < s'.chunkCount := lt_chunkCount_of_chunk? hys
  by_cases hroom : s.current.room < xs.length
  -- The run opened a chunk, so the chunk before it is exactly used up.
  · have hsize := size_closed_reserve hroom
    have hreserve : Continues (s.reserve xs.length) s' := (continues_extend _ xs).trans h
    have hfull : s'.chunk? s.endCut.chunk = some s.current := hreserve.chunk?_of_room_lt hroom
    have hshort : s.current.items.size < s.endCut.offset + xs.length := by
      simp only [endCut]
      omega
    have hnext : s.endCut.chunk + 1 < s'.chunkCount := by
      simp only [endCut]
      omega
    obtain ⟨fuel, hfuel⟩ : ∃ fuel, s'.chunkCount - s.endCut.chunk = fuel + 1 + 1 :=
      ⟨s'.chunkCount - s.closed.size - 2, by simp only [endCut]; omega⟩
    have hstart : (⟨s.endCut.chunk + 1, 0⟩ : Cut) = (s.reserve xs.length).endCut :=
      (endCut_reserve hroom).symm
    rw [hfuel, seekForward_next hfull hshort hnext, hstart]
    exact seekForward_here hys hfit fuel
  -- The run is where the recording stood.
  · have hsame : s.reserve xs.length = s := by
      rw [reserve, if_neg hroom]
    obtain ⟨fuel, hfuel⟩ : ∃ fuel, s'.chunkCount - s.endCut.chunk = fuel + 1 :=
      ⟨s'.chunkCount - s.closed.size - 1, by
        rw [hsame] at hcount
        simp only [endCut]
        omega⟩
    rw [hsame] at hfit ⊢
    have hchunk : s'.chunk? s.endCut.chunk = some ⟨(s.pushRun xs).current.items ++ ys,
        (s.pushRun xs).current.limit⟩ := by
      have hclosed : (s.pushRun xs).closed.size = s.closed.size := by
        simp [pushRun, extend, hsame]
      rw [hclosed] at hys
      exact hys
    rw [hfuel]
    exact seekForward_here hchunk hfit fuel

theorem take_forward_run {s s' : Chunked α} {xs : List α} (h : Continues (s.pushRun xs) s') :
    s'.take .forward s.endCut xs.length = .ok (xs, (s.pushRun xs).endCut) := by
  by_cases hn : xs.length = 0
  · rw [List.length_eq_zero_iff.1 hn]
    simp
  · obtain ⟨ys, hys⟩ := h.current
    have hcontains : s'.Contains s.endCut := ((s.continues_pushRun xs).trans h).contains_endCut
    have hfit : (s.reserve xs.length).endCut.offset + xs.length ≤
        ((s.pushRun xs).current.items ++ ys).size := by
      simp only [endCut, pushRun, extend, Array.size_append, List.size_toArray]
      omega
    rw [take_forward_of_seek hn hcontains (seekForward_endCut h) hys hfit]
    simp [endCut, pushRun, extend, Array.extract_append]

/-! ## Reading backwards -/

theorem seekReverse_here (s : Chunked α) {n offset : Nat} (h : n ≤ offset) (i : Nat) :
    s.seekReverse n i offset = .ok ⟨i, offset⟩ := by
  cases i <;> simp [seekReverse, h]

theorem seekReverse_previous {s : Chunked α} {n i offset : Nat} {c : Chunk α}
    (h : offset < n) (hc : s.chunk? i = some c) :
    s.seekReverse n (i + 1) offset = s.seekReverse n i c.items.size := by
  have hchunk := chunk_eq_ok_iff.2 hc
  have hshort : ¬n ≤ offset := by omega
  simp only [seekReverse, if_neg hshort, hchunk, bind, Except.bind]

/-- `p` is the cut `q`, or the start of the next chunk when `q` stands at the end of its own. -/
def Abuts (s : Chunked α) (p q : Cut) : Prop :=
  p = q ∨ p = ⟨q.chunk + 1, 0⟩ ∧ q.chunk + 1 < s.chunkCount ∧
    ∃ c, s.chunk? q.chunk = some c ∧ c.items.size = q.offset

theorem Abuts.refl (s : Chunked α) (p : Cut) : s.Abuts p p := Or.inl rfl

theorem Abuts.lt_chunkCount {s : Chunked α} {p q : Cut} (h : s.Abuts p q)
    (hq : q.chunk < s.chunkCount) : p.chunk < s.chunkCount := by
  rcases h with rfl | ⟨rfl, hlt, -⟩
  · exact hq
  · exact hlt

theorem Abuts.seekReverse_eq {s : Chunked α} {p q : Cut} (h : s.Abuts p q) {n : Nat}
    (hn : n ≠ 0) : s.seekReverse n p.chunk p.offset = s.seekReverse n q.chunk q.offset := by
  rcases h with rfl | ⟨rfl, hlt, c, hc, hsize⟩
  · rfl
  · rw [← hsize]
    exact seekReverse_previous (Nat.pos_of_ne_zero hn) hc

theorem Abuts.take_reverse_eq {s : Chunked α} {p q : Cut} (h : s.Abuts p q) {n : Nat}
    (hn : n ≠ 0) : s.take .reverse p n = s.take .reverse q n := by
  simp only [take, if_neg hn, h.seekReverse_eq hn]

theorem take_reverse_of_seek {s : Chunked α} {p q : Cut} {c : Chunk α} {n : Nat} (hn : n ≠ 0)
    (hq : s.seekReverse n p.chunk p.offset = .ok q) (hc : s.chunk? q.chunk = some c)
    (hle : n ≤ q.offset) (hfit : q.offset ≤ c.items.size) :
    s.take .reverse p n =
      .ok ((c.items.extract (q.offset - n) q.offset).toList, ⟨q.chunk, q.offset - n⟩) := by
  have hslice : c.slice (q.offset - n) q.offset =
      .ok (c.items.extract (q.offset - n) q.offset).toList := by
    rw [Chunk.slice, if_pos ⟨by omega, hfit⟩]
  simp only [take, if_neg hn, hq, chunk_eq_ok_iff.2 hc, hslice, bind, Except.bind]
  rfl

theorem take_reverse_here {s : Chunked α} {p : Cut} {c : Chunk α} {n : Nat} (hn : n ≠ 0)
    (hc : s.chunk? p.chunk = some c) (hle : n ≤ p.offset) (hfit : p.offset ≤ c.items.size) :
    s.take .reverse p n =
      .ok ((c.items.extract (p.offset - n) p.offset).toList, ⟨p.chunk, p.offset - n⟩) :=
  take_reverse_of_seek hn (s.seekReverse_here hle p.chunk) hc hle hfit

theorem abuts_reserve {s s' : Chunked α} {n : Nat} (h : Continues (s.reserve n) s') :
    s'.Abuts (s.reserve n).endCut s.endCut := by
  by_cases hroom : s.current.room < n
  · have hsize := size_closed_reserve hroom
    have hcount := h.closed_size_le
    refine Or.inr ⟨endCut_reserve hroom, ?_, s.current, h.chunk?_of_room_lt hroom, rfl⟩
    simp only [endCut, chunkCount]
    omega
  · left
    rw [reserve, if_neg hroom]

/-- Reading a run backwards from where the recording stood after it leads to where the recording
stood before it, up to the boundary of a chunk. -/
theorem take_reverse_run {s s' : Chunked α} {xs : List α} (h : Continues (s.pushRun xs) s')
    {p : Cut} (hp : s'.Abuts p (s.pushRun xs).endCut) :
    ∃ q, s'.take .reverse p xs.length = .ok (xs, q) ∧ s'.Abuts q s.endCut := by
  by_cases hn : xs.length = 0
  · rw [List.length_eq_zero_iff.1 hn, pushRun_nil] at hp
    exact ⟨p, by rw [List.length_eq_zero_iff.1 hn]; rfl, hp⟩
  · obtain ⟨ys, hys⟩ := h.current
    have hreserve : Continues (s.reserve xs.length) s' := (continues_extend _ xs).trans h
    -- The run ends its chunk as far as the recording had come, so it is cut out of that chunk.
    have hle : xs.length ≤ (s.pushRun xs).endCut.offset := by
      simp only [endCut, pushRun, extend, Array.size_append, List.size_toArray]
      omega
    have hfit : (s.pushRun xs).endCut.offset ≤ ((s.pushRun xs).current.items ++ ys).size := by
      simp [endCut]
    refine ⟨(s.reserve xs.length).endCut, ?_, abuts_reserve hreserve⟩
    rw [hp.take_reverse_eq hn, take_reverse_here hn hys hle hfit]
    simp [endCut, pushRun, extend, Array.extract_append]

/-! ## The end of a walk -/

theorem normalize_next {s : Chunked α} {p : Cut} {c : Chunk α} (hc : s.chunk? p.chunk = some c)
    (hfull : p.offset = c.items.size) (hlt : p.chunk + 1 < s.chunkCount) :
    s.normalize p = s.normalize ⟨p.chunk + 1, 0⟩ := by
  obtain ⟨fuel, hfuel⟩ : ∃ fuel, s.chunkCount - p.chunk = fuel + 1 :=
    ⟨s.chunkCount - p.chunk - 1, by omega⟩
  have hrest : s.chunkCount - (p.chunk + 1) = fuel := by omega
  unfold normalize
  rw [hfuel, hrest, normalizeAux, if_pos ⟨hlt, by rw [hc, Option.map_some, hfull]⟩]

theorem Abuts.sameCut {s : Chunked α} {p q : Cut} (h : s.Abuts p q) : s.SameCut p q := by
  rcases h with rfl | ⟨rfl, hlt, c, hc, hsize⟩
  · rfl
  · exact (normalize_next hc hsize.symm hlt).symm

theorem Abuts.finish_eq_ok {s : Chunked α} {p q : Cut} (h : s.Abuts p q)
    (hq : q.chunk < s.chunkCount) (name : String) : s.finish p q name = .ok () :=
  (finish_eq_ok_iff (Or.inl (h.lt_chunkCount hq)) (Or.inl hq)).2 h.sameCut

end Autodiff.Chunked
