import Autodiff.Proofs.Stream.Places

/-!
# Cuts as offsets

The number of items before a cut says all there is to know about it: cuts for the same place have
the same number, later cuts have no smaller one, and distances are differences.  A stream that is
cut off keeps the items before the cut and can be recorded on from there, so what was cut off is one
way among others to continue it.
-/

namespace Autodiff.Chunked

variable {α : Type} {s s' : Chunked α} {p q r : Cut}

/-! ## Cutting off and continuing -/

theorem continues_truncate (hp : s.Contains p) : Continues (s.truncate p) s := by
  obtain ⟨c, hc, -⟩ := contains_iff.1 hp
  have hsize : (s.truncate p).closed.size = p.chunk := by
    simp only [truncate, hc]
    exact size_take_closed hc
  have hcurrent : (s.truncate p).current = { c with items := c.items.take p.offset } := by
    simp only [truncate, hc]
  refine ⟨?_, fun i hi => ?_, c.items.extract p.offset c.items.size, ?_⟩
  · simp only [truncate, hc]
  · rw [hsize] at hi
    exact (chunk?_truncate_of_lt hc hi).symm
  · have hitems : c.items.take p.offset ++ c.items.extract p.offset c.items.size = c.items := by
      rw [Array.take_eq_extract, Array.extract_append_extract, Nat.zero_min,
        Array.extract_eq_self_of_le]
      omega
    rw [hsize, hcurrent, hc, hitems]

theorem Continues.take_chunks (h : Continues s s') {i : Nat} (hi : i ≤ s.closed.size) :
    s'.chunks.take i = s.chunks.take i := by
  apply List.ext_getElem?
  intro k
  by_cases hk : k < i
  · rw [List.getElem?_take_of_lt hk, List.getElem?_take_of_lt hk, ← chunk?_eq, ← chunk?_eq]
    exact h.closed k (by omega)
  · rw [List.getElem?_take_eq_none (by omega), List.getElem?_take_eq_none (by omega)]

theorem Continues.rank_eq (h : Continues s s') (hp : s.Contains p) : s'.rank p = s.rank p := by
  have hlt : p.chunk < s.closed.size + 1 := lt_chunkCount_of_contains hp
  rw [rank, rank, h.take_chunks (by omega)]

theorem Continues.contains (h : Continues s s') (hp : s.Contains p) : s'.Contains p := by
  obtain ⟨c, hc, hle⟩ := contains_iff.1 hp
  obtain ⟨xs, hxs⟩ := h.grown hc
  refine contains_iff.2 ⟨_, hxs, ?_⟩
  rw [Array.size_append]
  omega

theorem Continues.toList_eq_take (h : Continues s s') : s.toList = s'.toList.take s.length := by
  obtain ⟨xs, hxs⟩ := h.current
  have hsplit := toList_split hxs
  have hclosed : s'.chunks.take s.closed.size = s.closed.toList := by
    rw [h.take_chunks (Nat.le_refl _), chunks, List.take_left' Array.length_toList]
  have hhere : s.toList = s.closed.toList.flatMap (fun c => c.items.toList) ++
      s.current.items.toList := by
    rw [toList, chunks, List.flatMap_append, List.flatMap_singleton]
  have hprefix : s'.toList = s.toList ++ (xs.toList ++
      (s'.chunks.drop (s.closed.size + 1)).flatMap fun c => c.items.toList) := by
    rw [hsplit, hclosed, hhere, Array.toList_append, List.append_assoc, List.append_assoc]
  rw [length_eq, hprefix, List.take_left' rfl]

/-! ## The items before a cut -/

theorem length_truncate (hp : s.Contains p) : (s.truncate p).length = s.rank p := by
  rw [← (continues_truncate hp).rank_endCut, endCut_truncate hp]

theorem toList_truncate (hp : s.Contains p) : (s.truncate p).toList = s.toList.take (s.rank p) := by
  rw [← length_truncate hp]
  exact (continues_truncate hp).toList_eq_take

theorem contains_truncate (hp : s.Contains p) (hq : s.Contains q) (hle : q ≤ p) :
    (s.truncate p).Contains q := by
  obtain ⟨c, hc, -⟩ := contains_iff.1 hp
  obtain ⟨c', hc', hoffset⟩ := contains_iff.1 hq
  rcases Cut.le_iff.1 hle with hlt | ⟨heq, hle⟩
  · exact contains_iff.2 ⟨c', (chunk?_truncate_of_lt hc hlt).trans hc', hoffset⟩
  · rw [heq, hc] at hc'
    cases hc'
    refine contains_iff.2 ⟨_, heq ▸ chunk?_truncate_self hc, ?_⟩
    simp only [Array.take_eq_extract, Array.size_extract]
    omega

/-! ## Distance and places -/

/-- The distance is the number of items in between, and zero to a cut that does not come later. -/
theorem distance_eq_sub (hp : s.Contains p) (hq : s.Contains q) :
    s.distance p q = .ok (s.rank q - s.rank p) := by
  by_cases hqp : q ≤ p
  · rw [distance, if_pos hqp, Nat.sub_eq_zero_of_le (rank_mono hq hqp)]
  · exact distance_eq hp hq ((Cut.le_total p q).resolve_right hqp)

theorem sameCut_eq_decide (hp : s.Contains p) (hq : s.Contains q) :
    s.sameCut p q = .ok (decide (s.rank p = s.rank q)) := by
  have hnext : s.HasNext p ∧ s.HasNext q :=
    ⟨Or.inl (lt_chunkCount_of_contains hp), Or.inl (lt_chunkCount_of_contains hq)⟩
  rw [sameCut, if_pos hnext]
  exact congrArg Except.ok (decide_eq_decide.2 (sameCut_iff_rank_eq hp hq))

/-! ## Main statement -/

/-- What is asked about cuts of a stream is answered from the numbers of items before them, without
a fault and whatever empty chunks there are: whether two denote the same place, which one comes
later, and how far apart they are.  A stream that is rewound to a cut holds the items before it and
ends there. -/
theorem cuts_measure_offsets (hp : s.Contains p) (hq : s.Contains q) (hr : s.Contains r) :
    s.sameCut p q = .ok (decide (s.rank p = s.rank q)) ∧
    (p ≤ q → s.rank p ≤ s.rank q) ∧
    s.distance p q = .ok (s.rank q - s.rank p) ∧
    (p ≤ q → q ≤ r → ∃ m n, s.distance p q = .ok m ∧ s.distance q r = .ok n ∧
      s.distance p r = .ok (m + n)) ∧
    ∃ s', s.rewindTo p = .ok s' ∧ s'.length = s.rank p ∧ s'.endCut = p ∧
      s'.toList = s.toList.take (s.rank p) := by
  refine ⟨sameCut_eq_decide hp hq, rank_mono hp, distance_eq_sub hp hq, fun hpq hqr => ?_,
    s.truncate p, if_pos hp, length_truncate hp, endCut_truncate hp, toList_truncate hp⟩
  have hsum : s.rank r - s.rank p = s.rank q - s.rank p + (s.rank r - s.rank q) := by
    have hpq' := rank_mono hp hpq
    have hqr' := rank_mono hq hqr
    omega
  exact ⟨_, _, distance_eq_sub hp hq, distance_eq_sub hq hr, hsum ▸ distance_eq_sub hp hr⟩

/-- Between the first chunk and the last one lies a chunk that a reservation opened and a larger one
replaced, so one place has three cuts. -/
theorem cuts_measure_offsets_of_replaced_reservation :
    ∃ s s' : Chunked Nat, s = (((blank 4).pushRun [0, 1, 2]).reserve 5).pushRun [3, 4, 5, 6, 7, 8] ∧
      s.Contains ⟨0, 3⟩ ∧ s.Contains ⟨1, 0⟩ ∧ s.Contains ⟨2, 5⟩ ∧
      s.sameCut ⟨0, 3⟩ ⟨1, 0⟩ = .ok true ∧ s.distance ⟨0, 3⟩ ⟨1, 0⟩ = .ok 0 ∧
      (∃ m n, s.distance ⟨0, 3⟩ ⟨1, 0⟩ = .ok m ∧ s.distance ⟨1, 0⟩ ⟨2, 5⟩ = .ok n ∧
        s.distance ⟨0, 3⟩ ⟨2, 5⟩ = .ok (m + n)) ∧
      s.rewindTo ⟨0, 3⟩ = .ok s' ∧ s'.length = 3 ∧ s'.endCut = ⟨0, 3⟩ := by
  obtain ⟨s, hs⟩ : ∃ s : Chunked Nat,
      s = (((blank 4).pushRun [0, 1, 2]).reserve 5).pushRun [3, 4, 5, 6, 7, 8] := ⟨_, rfl⟩
  have hp : s.Contains ⟨0, 3⟩ := by subst hs; decide
  have hq : s.Contains ⟨1, 0⟩ := by subst hs; decide
  have hr : s.Contains ⟨2, 5⟩ := by subst hs; decide
  obtain ⟨hsame, -, hdistance, hsum, s', hrewind, hlength, hend, -⟩ :=
    cuts_measure_offsets hp hq hr
  have hrank : s.rank ⟨0, 3⟩ = 3 ∧ s.rank ⟨1, 0⟩ = 3 := by subst hs; decide
  rw [hrank.1, hrank.2] at hsame hdistance
  rw [hrank.1] at hlength
  exact ⟨s, s', hs, hp, hq, hr, hsame, hdistance, hsum (by decide) (by decide), hrewind, hlength,
    hend⟩

end Autodiff.Chunked
