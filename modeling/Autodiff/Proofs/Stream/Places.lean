import Autodiff.Proofs.Stream.Range
import Autodiff.Proofs.Stream.Runs

/-!
# Places

Where one chunk ends the next one begins, so a place between two items may have several cuts, and
more of them where chunks are empty.  Normalization picks the last: two cuts of a stream denote the
same place when equally many items come before them.
-/

namespace Autodiff.Chunked

variable {α : Type} {s : Chunked α} {p q : Cut}

/-! ## Ranks next to each other -/

theorem rank_add (s : Chunked α) (i a n : Nat) : s.rank ⟨i, a + n⟩ = s.rank ⟨i, a⟩ + n :=
  (Nat.add_assoc ..).symm

theorem contains_start {i : Nat} (h : i < s.chunkCount) : s.Contains ⟨i, 0⟩ := by
  obtain ⟨c, hc⟩ := exists_chunk? h
  exact contains_iff.2 ⟨c, hc, Nat.zero_le _⟩

theorem rank_le_of_chunk_lt {c : Chunk α} (hc : s.chunk? p.chunk = some c)
    (hq : p.chunk < q.chunk) (hlt : q.chunk < s.chunkCount) :
    s.rank ⟨p.chunk, c.items.size⟩ ≤ s.rank q := by
  have hnext : p.chunk + 1 < s.chunkCount := Nat.lt_of_le_of_lt hq hlt
  rw [← rank_succ hc]
  apply rank_mono (contains_start hnext)
  rw [Cut.le_iff]
  show p.chunk + 1 < q.chunk ∨ p.chunk + 1 = q.chunk ∧ 0 ≤ q.offset
  omega

theorem rank_lt_length (hp : s.Contains p) (h : s.rank p < s.toList.length) {c : Chunk α}
    (hc : s.chunk? p.chunk = some c) (hfull : p.offset = c.items.size) :
    p.chunk + 1 < s.chunkCount := by
  have hlt : p.chunk < s.closed.size + 1 := lt_chunkCount_of_contains hp
  rcases Nat.lt_or_eq_of_le (Nat.le_of_lt_succ hlt) with hchunk | hchunk
  · exact Nat.succ_lt_succ hchunk
  -- Behind the end of the last chunk there are no items.
  · have hend : p = s.endCut := by
      obtain ⟨i, a⟩ := p
      obtain rfl : i = s.closed.size := hchunk
      rw [chunk?_current] at hc
      cases hc
      exact congrArg (Cut.mk s.closed.size) hfull
    rw [hend, (Continues.refl s).rank_endCut, length_eq] at h
    exact absurd h (Nat.lt_irrefl _)

/-! ## Normalization -/

theorem rank_normalizeAux (s : Chunked α) (fuel : Nat) (p : Cut) :
    s.rank (s.normalizeAux fuel p) = s.rank p := by
  induction fuel generalizing p with
  | zero => rfl
  | succ fuel ih =>
    rw [normalizeAux]
    split
    · next h =>
      obtain ⟨-, hfull⟩ := h
      obtain ⟨c, hc, hsize⟩ := Option.map_eq_some_iff.1 hfull
      rw [ih, rank_succ hc, hsize]
    · rfl

/-! ## Cuts for the same place -/

theorem SameCut.rank_eq (h : s.SameCut p q) : s.rank p = s.rank q := by
  have hrank := congrArg s.rank h
  rwa [normalize, normalize, rank_normalizeAux, rank_normalizeAux] at hrank

theorem sameCut_of_le (hp : s.Contains p) (hq : s.Contains q) (hle : p ≤ q)
    (hrank : s.rank p = s.rank q) : s.SameCut p q := by
  obtain ⟨n, hn⟩ : ∃ n, q.chunk - p.chunk = n := ⟨_, rfl⟩
  -- The induction is on the number of chunk boundaries between the cuts.
  induction n generalizing p with
  | zero =>
    obtain ⟨i, a⟩ := p
    obtain ⟨k, b⟩ := q
    obtain rfl : i = k := by
      rw [Cut.le_iff] at hle
      simp only at hle hn
      omega
    obtain rfl : a = b := by
      simp only [rank] at hrank
      omega
    rfl
  | succ n ih =>
    have hlt : p.chunk < q.chunk := by omega
    have hcount := lt_chunkCount_of_contains hq
    have hnext : p.chunk + 1 < s.chunkCount := Nat.lt_of_le_of_lt hlt hcount
    obtain ⟨c, hc, hoffset⟩ := contains_iff.1 hp
    -- No item lies between the cuts, so the first one stands at the end of its chunk.
    have hend : s.rank ⟨p.chunk, c.items.size⟩ ≤ s.rank q := rank_le_of_chunk_lt hc hlt hcount
    have hfull : p.offset = c.items.size := by
      rw [← hrank] at hend
      simp only [rank] at hend
      omega
    have hstep : s.rank ⟨p.chunk + 1, 0⟩ = s.rank q := by
      rw [rank_succ hc, ← hrank, ← hfull]
    have hle' : (⟨p.chunk + 1, 0⟩ : Cut) ≤ q := by
      rw [Cut.le_iff]
      show p.chunk + 1 < q.chunk ∨ p.chunk + 1 = q.chunk ∧ 0 ≤ q.offset
      omega
    have hrest := ih (contains_start hnext) hle' hstep (by simp only; omega)
    exact (normalize_next hc hfull hnext).trans hrest

/-- Cuts of a stream denote the same place exactly when equally many items come before them. -/
theorem sameCut_iff_rank_eq (hp : s.Contains p) (hq : s.Contains q) :
    s.SameCut p q ↔ s.rank p = s.rank q := by
  refine ⟨SameCut.rank_eq, fun h => ?_⟩
  rcases Cut.le_total p q with hle | hle
  · exact sameCut_of_le hp hq hle h
  · exact (sameCut_of_le hq hp hle h.symm).symm

end Autodiff.Chunked
