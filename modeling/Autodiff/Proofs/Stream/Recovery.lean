import Autodiff.Proofs.Stream.Batches
import Autodiff.Proofs.Stream.Losses
import Autodiff.Proofs.Stream.Offsets

/-!
# Recorded runs are recovered

Takes that ask for the lengths of the recorded runs give back these runs, in either direction and
from whichever cut between them, also after the stream was rewound.  What makes this so is that no
run is divided among chunks: the search for room ends at the chunk that the reservation found or
opened, however many empty chunks and gaps it passes.
-/

namespace Autodiff.Chunked

variable {α : Type} {s s' : Chunked α} {p q : Cut} {runs : List (List α)} {n k : Nat}

/-! ## Streams recorded in runs -/

/-- The first `k` of the runs of a stream lie before the cut `p`, and the others behind it. -/
structure Divides (s : Chunked α) (runs : List (List α)) (k : Nat) (p : Cut) : Prop where
  contains : s.Contains p
  le : k ≤ runs.length
  rank : s.rank p = (runs.take k).flatten.length

/-- A stream that was recorded in batches, with the runs that it holds and with the cuts where it
ended between two of them, each with the number of runs before it.  Rewinding to a cut between runs,
whichever of those for its place, leaves the runs before it and no cut behind it. -/
inductive Recorded [Zero α] (n : Nat) : Chunked α → List (List α) → List (Nat × Cut) → Prop
  | create {s : Chunked α} : create n = .ok s → Recorded n s [] [(0, s.endCut)]
  | record {s s' : Chunked α} {runs : List (List α)} {cuts : List (Nat × Cut)} (b : Batch α) :
    Recorded n s runs cuts → b.record s = .ok s' →
      Recorded n s' (runs ++ [b.items]) ((runs.length + 1, s'.endCut) :: cuts)
  | rewind {s s' : Chunked α} {runs : List (List α)} {cuts : List (Nat × Cut)} {k : Nat}
    {p : Cut} : Recorded n s runs cuts → s.Divides runs k p → s.rewindTo p = .ok s' →
      Recorded n s' (runs.take k) ((k, p) :: cuts.filter fun c => c.1 ≤ k ∧ c.2 ≤ p)

/-! ## Runs stay in one chunk -/

/-- The stream consists of the runs, and every run lies in one chunk. -/
structure Unbroken (s : Chunked α) (runs : List (List α)) : Prop where
  toList : s.toList = runs.flatten
  together : ∀ before xs after, runs = before ++ xs :: after → xs ≠ [] →
    ∃ c, s.rank c = before.flatten.length ∧ s.Contains ⟨c.chunk, c.offset + xs.length⟩

theorem unbroken_blank (n : Nat) : (blank n : Chunked α).Unbroken [] where
  toList := rfl
  together before xs after h := absurd h (by simp)

theorem contains_of_add {c : Cut} {n : Nat} (h : s.Contains ⟨c.chunk, c.offset + n⟩) :
    s.Contains c := by
  obtain ⟨chunk, hchunk, hle⟩ := contains_iff.1 h
  exact contains_iff.2 ⟨chunk, hchunk, Nat.le_trans (Nat.le_add_right _ _) hle⟩

theorem le_of_rank_lt (hp : s.Contains p) (h : s.rank q < s.rank p) : q ≤ p := by
  rcases Cut.le_total q p with hle | hle
  · exact hle
  · exact absurd (rank_mono hp hle) (Nat.not_le.2 h)

/-- A run lies where the reservation for it has put the end of the stream. -/
theorem Unbroken.pushRun (h : s.Unbroken runs) (xs : List α) :
    (s.pushRun xs).Unbroken (runs ++ [xs]) where
  toList := by
    rw [toList_pushRun, h.toList, List.flatten_append, List.flatten_singleton]
  together before ys after heq hys := by
    rcases List.eq_nil_or_concat after with rfl | ⟨after, zs, rfl⟩
    · obtain ⟨rfl, hxs⟩ := List.append_inj' heq rfl
      cases hxs
      have hreserved : Continues (s.reserve xs.length) (s.pushRun xs) := continues_extend _ xs
      refine ⟨(s.reserve xs.length).endCut, ?_, ?_⟩
      · rw [hreserved.rank_endCut, length_eq, toList_reserve, h.toList]
      · have hend : (⟨(s.reserve xs.length).endCut.chunk,
            (s.reserve xs.length).endCut.offset + xs.length⟩ : Cut) = (s.pushRun xs).endCut := by
          simp [Chunked.pushRun, extend, endCut]
        rw [hend]
        exact contains_endCut _
    · rw [List.concat_eq_append, ← List.cons_append, ← List.append_assoc] at heq
      obtain ⟨c, hrank, hc⟩ := h.together before ys after (List.append_inj' heq rfl).1 hys
      have hgrows := s.continues_pushRun xs
      exact ⟨c, (hgrows.rank_eq (contains_of_add hc)).trans hrank, hgrows.contains hc⟩

/-- What lies before a cut between runs is not touched when the stream is cut off there. -/
theorem Unbroken.truncate (h : s.Unbroken runs) (hp : s.Divides runs k p) :
    (s.truncate p).Unbroken (runs.take k) where
  toList := by
    have hsplit : runs.flatten = (runs.take k).flatten ++ (runs.drop k).flatten := by
      rw [← List.flatten_append, List.take_append_drop]
    rw [toList_truncate hp.contains, hp.rank, h.toList, hsplit, List.take_left' rfl]
  together before xs after heq hxs := by
    have hruns : runs = before ++ xs :: (after ++ runs.drop k) := by
      rw [← List.cons_append, ← List.append_assoc, ← heq, List.take_append_drop]
    obtain ⟨c, hrank, hc⟩ := h.together before xs _ hruns hxs
    have hlength : s.rank p = before.flatten.length + xs.length + after.flatten.length := by
      rw [hp.rank, heq, List.flatten_append, List.flatten_cons, List.length_append,
        List.length_append, Nat.add_assoc]
    have hend : s.rank ⟨c.chunk, c.offset + xs.length⟩ = s.rank c + xs.length := s.rank_add _ _ _
    have hpositive : 0 < xs.length := List.length_pos_iff.2 hxs
    -- The run ends at an item, so no cut with as many items before it comes before its end.
    have hle : (⟨c.chunk, c.offset + xs.length⟩ : Cut) ≤ p := by
      rw [Cut.le_iff]
      by_contra hnot
      have hbefore : p.chunk < c.chunk ∨ p.chunk = c.chunk ∧ p.offset < c.offset + xs.length := by
        simp only at hnot
        omega
      rcases hbefore with hlt | ⟨hchunk, hoffset⟩
      · have hpc := rank_mono hp.contains (Cut.le_iff.2 (Or.inl hlt))
        omega
      · have hpe : s.rank p < s.rank ⟨c.chunk, c.offset + xs.length⟩ := by
          simp only [Chunked.rank, hchunk]
          omega
        omega
    have hkept := contains_truncate hp.contains hc hle
    have hcontinues := continues_truncate hp.contains
    exact ⟨c, (hcontinues.rank_eq (contains_of_add hkept)).symm.trans hrank, hkept⟩

theorem Recorded.unbroken [Zero α] {cuts : List (Nat × Cut)} (h : Recorded n s runs cuts) :
    s.Unbroken runs := by
  induction h with
  | create h =>
    rw [eq_blank_of_create h]
    exact unbroken_blank n
  | record b _ h ih =>
    rw [record_eq] at h
    cases h
    exact ih.pushRun b.items
  | rewind _ hp h ih =>
    rw [rewindTo, if_pos hp.contains] at h
    cases h
    exact ih.truncate hp

/-! ## Cuts between runs -/

theorem Divides.record {xs : List α} (h : s.Divides runs k p) :
    (s.pushRun xs).Divides (runs ++ [xs]) k p where
  contains := (s.continues_pushRun xs).contains h.contains
  le := by
    rw [List.length_append]
    exact Nat.le_add_right_of_le h.le
  rank := by
    rw [(s.continues_pushRun xs).rank_eq h.contains, h.rank, List.take_append_of_le_length h.le]

theorem Divides.truncate {m : Nat} (h : s.Divides runs k p) (hq : s.Divides runs m q) (hkm : k ≤ m)
    (hle : p ≤ q) : (s.truncate q).Divides (runs.take m) k p where
  contains := contains_truncate hq.contains h.contains hle
  le := by
    rw [List.length_take]
    exact Nat.le_min.2 ⟨hkm, h.le⟩
  rank := by
    have hkept := contains_truncate hq.contains h.contains hle
    rw [← (continues_truncate hq.contains).rank_eq hkept, h.rank, List.take_take,
      Nat.min_eq_left hkm]

theorem Unbroken.divides_endCut (h : s.Unbroken runs) : s.Divides runs runs.length s.endCut where
  contains := s.contains_endCut
  le := Nat.le_refl _
  rank := by
    rw [(Continues.refl s).rank_endCut, length_eq, h.toList, List.take_length]

/-- The cuts where the stream ended between two runs are cuts between these runs still. -/
theorem Recorded.divides [Zero α] {cuts : List (Nat × Cut)} (h : Recorded n s runs cuts) :
    ∀ c ∈ cuts, s.Divides runs c.1 c.2 := by
  induction h with
  | create h =>
    rw [List.forall_mem_singleton]
    exact (Recorded.create h).unbroken.divides_endCut
  | record b hs h ih =>
    have hend := (hs.record b h).unbroken.divides_endCut
    rw [record_eq] at h
    cases h
    rw [List.length_append] at hend
    exact List.forall_mem_cons.2 ⟨hend, fun c hc => (ih c hc).record⟩
  | rewind hs hp h ih =>
    rw [rewindTo, if_pos hp.contains] at h
    cases h
    refine List.forall_mem_cons.2
      ⟨hp.truncate hp (Nat.le_refl _) (Cut.le_refl _), fun c hc => ?_⟩
    obtain ⟨hmem, hkept⟩ := List.mem_filter.1 hc
    obtain ⟨hle, hbefore⟩ := of_decide_eq_true hkept
    exact (ih c hmem).truncate hp hle hbefore

/-! ## Seeking from any cut for a place -/

/-- The search for room forwards ends where the room is, from whichever cut for the same place it
starts. -/
theorem seekForward_eq_of_rank_eq {c : Cut} (hn : n ≠ 0) (hp : s.Contains p)
    (hc : s.Contains ⟨c.chunk, c.offset + n⟩) (h : s.rank p = s.rank c) :
    s.seekForward n (s.chunkCount - p.chunk) p = .ok c := by
  obtain ⟨i, a⟩ := c
  have hcount : i < s.chunkCount := lt_chunkCount_of_contains hc
  have hend : s.rank ⟨i, a + n⟩ = s.rank ⟨i, a⟩ + n := s.rank_add i a n
  have hpc : p ≤ ⟨i, a + n⟩ := le_of_rank_lt hc (by omega)
  rcases Cut.le_iff.1 hpc with hlt | ⟨hchunk, -⟩
  -- Nothing lies between the two, so the room is at the start of its chunk.
  · have hstart : s.rank p ≤ s.rank ⟨i, 0⟩ := rank_mono hp (Cut.le_iff.2 (Or.inl hlt))
    obtain rfl : a = 0 := by
      simp only [Chunked.rank] at hstart h
      omega
    rw [Nat.zero_add] at hc
    exact seekForward_eq_start hp hc hlt (by omega)
  · obtain ⟨i, a'⟩ := p
    obtain rfl : i = _ := hchunk
    obtain rfl : a' = a := by
      simp only [Chunked.rank] at h
      omega
    obtain ⟨c, hchunk, hfit⟩ := contains_iff.1 hc
    obtain ⟨fuel, hfuel⟩ : ∃ fuel, s.chunkCount - i = fuel + 1 := ⟨s.chunkCount - i - 1, by omega⟩
    rw [hfuel]
    exact seekForward_here (p := ⟨i, a'⟩) hchunk hfit fuel

/-- The search backwards ends behind the room, from whichever cut for the same place it starts. -/
theorem seekReverse_eq_of_rank_eq {c : Cut} (hn : n ≠ 0) (hq : s.Contains q) (hc : s.Contains c)
    (hfit : n ≤ c.offset) (h : s.rank q = s.rank c) :
    s.seekReverse n q.chunk q.offset = .ok c := by
  have hle : c.chunk ≤ q.chunk := by
    by_contra hnot
    have hstart := rank_mono hq (q := ⟨c.chunk, 0⟩) (Cut.le_iff.2 (Or.inl (Nat.not_le.1 hnot)))
    simp only [Chunked.rank] at hstart h
    omega
  obtain ⟨m, hm⟩ : ∃ m, q.chunk - c.chunk = m := ⟨_, rfl⟩
  -- The induction is on the number of chunks behind that of `c`, which hold no items before `q`.
  induction m generalizing q with
  | zero =>
    obtain ⟨i, a⟩ := q
    obtain ⟨k, b⟩ := c
    obtain rfl : i = k := by
      simp only at hle hm
      omega
    obtain rfl : a = b := by
      simp only [Chunked.rank] at h
      omega
    exact s.seekReverse_here hfit i
  | succ m ih =>
    obtain ⟨i, a⟩ := q
    simp only at hm
    obtain ⟨i, rfl⟩ : ∃ j, i = j + 1 := ⟨i - 1, by omega⟩
    obtain ⟨chunk, hchunk⟩ := exists_chunk? (Nat.lt_of_succ_lt (lt_chunkCount_of_contains hq))
    have hstart : s.rank c ≤ s.rank ⟨i + 1, 0⟩ :=
      rank_mono hc (Cut.le_iff.2 (Or.inl (show c.chunk < i + 1 by omega)))
    obtain rfl : a = 0 := by
      rw [← h] at hstart
      simp only [Chunked.rank] at hstart
      omega
    rw [seekReverse_previous (Nat.pos_of_ne_zero hn) hchunk]
    refine ih (q := ⟨i, chunk.items.size⟩) (contains_iff.2 ⟨chunk, hchunk, Nat.le_refl _⟩) ?_ ?_ ?_
    · rw [← rank_succ hchunk, h]
    · show c.chunk ≤ i
      omega
    · show i - c.chunk = m
      omega

/-! ## Takes of recorded runs -/

variable {before mid after : List (List α)} {xs : List α}

theorem Unbroken.segment_run (h : s.Unbroken (before ++ xs :: after))
    (hp : s.rank p = before.flatten.length)
    (hq : s.rank q = before.flatten.length + xs.length) : s.segment p q = xs := by
  have hitems : s.toList = before.flatten ++ (xs ++ after.flatten) := by
    rw [h.toList, List.flatten_append, List.flatten_cons]
  rw [segment, hp, hq, hitems, List.take_length_add_append, List.drop_left' rfl,
    List.take_left' rfl]

theorem Unbroken.take_forward (h : s.Unbroken (before ++ xs :: after)) (hp : s.Contains p)
    (hrank : s.rank p = before.flatten.length) :
    ∃ q, s.take .forward p xs.length = .ok (xs, q) ∧ s.Contains q ∧
      s.rank q = before.flatten.length + xs.length := by
  by_cases hxs : xs = []
  · subst hxs
    exact ⟨p, rfl, hp, hrank⟩
  · obtain ⟨c, hcrank, hc⟩ := h.together before xs after rfl hxs
    have hn : xs.length ≠ 0 := fun hzero => hxs (List.length_eq_zero_iff.1 hzero)
    have hseek := seekForward_eq_of_rank_eq hn hp hc (hrank.trans hcrank.symm)
    have hend : s.rank ⟨c.chunk, c.offset + xs.length⟩ = before.flatten.length + xs.length := by
      rw [← hcrank]
      exact s.rank_add _ _ _
    obtain ⟨chunk, hchunk, hfit⟩ := contains_iff.1 hc
    refine ⟨_, ?_, hc, hend⟩
    rw [take_forward_of_seek hn hp hseek hchunk hfit, ← segment_same hchunk hfit,
      h.segment_run hcrank hend]

theorem Unbroken.take_reverse (h : s.Unbroken (before ++ xs :: after)) (hq : s.Contains q)
    (hrank : s.rank q = before.flatten.length + xs.length) :
    ∃ p, s.take .reverse q xs.length = .ok (xs, p) ∧ s.Contains p ∧
      s.rank p = before.flatten.length := by
  by_cases hxs : xs = []
  · subst hxs
    exact ⟨q, rfl, hq, hrank⟩
  · obtain ⟨c, hcrank, hc⟩ := h.together before xs after rfl hxs
    have hn : xs.length ≠ 0 := fun hzero => hxs (List.length_eq_zero_iff.1 hzero)
    have hend : s.rank ⟨c.chunk, c.offset + xs.length⟩ = before.flatten.length + xs.length := by
      rw [← hcrank]
      exact s.rank_add _ _ _
    have hseek := seekReverse_eq_of_rank_eq hn hq hc (Nat.le_add_left _ _) (hrank.trans hend.symm)
    obtain ⟨chunk, hchunk, hfit⟩ := contains_iff.1 hc
    have htake := take_reverse_of_seek hn hseek hchunk (Nat.le_add_left _ _) hfit
    simp only [Nat.add_sub_cancel] at htake
    refine ⟨c, ?_, contains_of_add hc, hcrank⟩
    rw [htake, ← segment_same hchunk hfit, h.segment_run hcrank hend]

theorem Unbroken.takeAll_forward (h : s.Unbroken (before ++ mid ++ after)) (hp : s.Contains p)
    (hrank : s.rank p = before.flatten.length) :
    ∃ q, s.takeAll .forward (mid.map List.length) p = .ok (mid, q) ∧ s.Contains q ∧
      s.rank q = (before ++ mid).flatten.length := by
  induction mid generalizing before p with
  | nil => exact ⟨p, rfl, hp, by rw [List.append_nil, hrank]⟩
  | cons xs mid ih =>
    have hsplit : before ++ xs :: mid = before ++ [xs] ++ mid := by
      rw [List.append_assoc, List.singleton_append]
    have hfirst : s.Unbroken (before ++ xs :: (mid ++ after)) := by
      rwa [List.append_assoc, List.cons_append] at h
    obtain ⟨q, htake, hq, hqrank⟩ := hfirst.take_forward hp hrank
    have hnext : s.rank q = (before ++ [xs]).flatten.length := by
      rw [hqrank, List.flatten_append, List.flatten_singleton, List.length_append]
    obtain ⟨r, hrest, hr, hrrank⟩ := ih (hsplit ▸ h) hq hnext
    exact ⟨r, takeAll_cons_eq_ok_iff.2 ⟨xs, q, mid, htake, hrest, rfl⟩, hr, hsplit ▸ hrrank⟩

theorem Unbroken.takeAll_reverse (h : s.Unbroken (before ++ mid ++ after)) (hq : s.Contains q)
    (hrank : s.rank q = (before ++ mid).flatten.length) :
    ∃ p, s.takeAll .reverse (mid.map List.length).reverse q = .ok (mid.reverse, p) ∧
      s.Contains p ∧ s.rank p = before.flatten.length := by
  induction mid using List.reverseRecOn generalizing after q with
  | nil => exact ⟨q, rfl, hq, by rw [hrank, List.append_nil]⟩
  | append_singleton mid xs ih =>
    have hsplit : before ++ (mid ++ [xs]) ++ after = before ++ mid ++ xs :: after := by
      rw [← List.append_assoc, List.append_assoc, List.singleton_append]
    have hlength : s.rank q = (before ++ mid).flatten.length + xs.length := by
      rw [hrank, ← List.append_assoc, List.flatten_append, List.flatten_singleton,
        List.length_append]
    obtain ⟨p, htake, hp, hprank⟩ := (hsplit ▸ h).take_reverse hq hlength
    obtain ⟨r, hrest, hr, hrrank⟩ := ih (hsplit ▸ h) hp hprank
    refine ⟨r, ?_, hr, hrrank⟩
    rw [List.map_append, List.reverse_append, List.reverse_append]
    exact takeAll_cons_eq_ok_iff.2 ⟨xs, p, mid.reverse, htake, hrest, rfl⟩

/-! ## Main statement -/

/-- A stream was recorded in runs of any lengths, pushed one by one or as zeros that were written
over, and rewound to cuts between them at any time.  Then every cut where it ended between two runs,
and that was not rewound past, still divides them.  Between any two cuts that divide the runs, takes
of their lengths give back exactly these runs, forwards in the order of recording and backwards
against it, and pass the check at the other cut. -/
theorem cursors_recover_runs [Zero α] {cuts : List (Nat × Cut)} (h : Recorded n s runs cuts) :
    (∀ c ∈ cuts, s.Divides runs c.1 c.2) ∧
    ∀ i j p q name, i ≤ j → s.Divides runs i p → s.Divides runs j q →
      (∃ r, s.takeAll .forward (((runs.take j).drop i).map List.length) p =
          .ok ((runs.take j).drop i, r) ∧ s.finish r q name = .ok ()) ∧
      ∃ r, s.takeAll .reverse (((runs.take j).drop i).map List.length).reverse q =
          .ok (((runs.take j).drop i).reverse, r) ∧ s.finish r p name = .ok () := by
  refine ⟨h.divides, fun i j p q name hij hp hq => ?_⟩
  have hbefore : runs.take i ++ (runs.take j).drop i = runs.take j := by
    have hsplit := List.take_append_drop i (runs.take j)
    rwa [List.take_take, Nat.min_eq_left hij] at hsplit
  have hunbroken : s.Unbroken (runs.take i ++ (runs.take j).drop i ++ runs.drop j) := by
    rw [hbefore, List.take_append_drop]
    exact h.unbroken
  have hend := hq.rank
  rw [← hbefore] at hend
  obtain ⟨r, hforward, hr, hrrank⟩ := hunbroken.takeAll_forward hp.contains hp.rank
  obtain ⟨r', hreverse, hr', hrrank'⟩ := hunbroken.takeAll_reverse hq.contains hend
  exact ⟨⟨r, hforward, (finish_eq_ok_iff_rank hr hq.contains name).2 (hrrank.trans hend.symm)⟩,
    r', hreverse, (finish_eq_ok_iff_rank hr' hp.contains name).2 (hrrank'.trans hp.rank.symm)⟩

/-- A run in a chunk of its own is dropped, but its chunk is not, and the next runs are an empty one
and one that does not fit into that chunk. -/
theorem exists_recorded_rewound : ∃ (s : Chunked Nat) (cuts : List (Nat × Cut)),
    Recorded 4 s [[0, 1, 2], [], [1, 2, 3, 4, 5, 6, 7], [8, 9]] cuts ∧
      (1, ⟨0, 3⟩) ∈ cuts ∧ (4, ⟨3, 2⟩) ∈ cuts := by
  have hstart : Recorded 4 (blank 4 : Chunked Nat) [] [(0, ⟨0, 0⟩)] := .create rfl
  have hfirst : Recorded 4 ⟨4, #[], ⟨#[0, 1, 2], 4⟩⟩ [[0, 1, 2]] [(1, ⟨0, 3⟩), (0, ⟨0, 0⟩)] :=
    hstart.record (.pushed [0, 1, 2]) rfl
  have hzeroed := record_eq (⟨4, #[], ⟨#[0, 1, 2], 4⟩⟩ : Chunked Nat) (.zeroed [3, 4, 5] 3)
  have hsecond : Recorded 4 ⟨4, #[⟨#[0, 1, 2], 4⟩], ⟨#[3, 4, 5, 0, 0, 0], 6⟩⟩
      [[0, 1, 2], [3, 4, 5, 0, 0, 0]] [(2, ⟨1, 6⟩), (1, ⟨0, 3⟩), (0, ⟨0, 0⟩)] :=
    hfirst.record (.zeroed [3, 4, 5] 3) hzeroed
  have hdivides : Divides ⟨4, #[⟨#[0, 1, 2], 4⟩], ⟨#[3, 4, 5, 0, 0, 0], 6⟩⟩
      [[0, 1, 2], [3, 4, 5, 0, 0, 0]] 1 ⟨1, 0⟩ := ⟨by decide, by decide, by decide⟩
  have hrewound : Recorded 4 ⟨4, #[⟨#[0, 1, 2], 4⟩], ⟨#[], 6⟩⟩ [[0, 1, 2]]
      [(1, ⟨1, 0⟩), (1, ⟨0, 3⟩), (0, ⟨0, 0⟩)] := hsecond.rewind hdivides rfl
  have hempty : Recorded 4 ⟨4, #[⟨#[0, 1, 2], 4⟩], ⟨#[], 6⟩⟩ [[0, 1, 2], []]
      [(2, ⟨1, 0⟩), (1, ⟨1, 0⟩), (1, ⟨0, 3⟩), (0, ⟨0, 0⟩)] := hrewound.record (.pushed []) rfl
  have hthird : Recorded 4 ⟨4, #[⟨#[0, 1, 2], 4⟩, ⟨#[], 6⟩], ⟨#[1, 2, 3, 4, 5, 6, 7], 7⟩⟩
      [[0, 1, 2], [], [1, 2, 3, 4, 5, 6, 7]]
      [(3, ⟨2, 7⟩), (2, ⟨1, 0⟩), (1, ⟨1, 0⟩), (1, ⟨0, 3⟩), (0, ⟨0, 0⟩)] :=
    hempty.record (.pushed [1, 2, 3, 4, 5, 6, 7]) rfl
  have hlast := hthird.record (.pushed [8, 9]) rfl
  exact ⟨_, _, hlast, by decide, by decide⟩

/-- From the end of the first chunk over an empty chunk to the end of the stream, and back. -/
theorem cursors_recover_runs_of_rewound : ∃ (s : Chunked Nat) (cuts : List (Nat × Cut)),
    Recorded 4 s [[0, 1, 2], [], [1, 2, 3, 4, 5, 6, 7], [8, 9]] cuts ∧
      (1, ⟨0, 3⟩) ∈ cuts ∧ (4, ⟨3, 2⟩) ∈ cuts ∧
      s.Divides [[0, 1, 2], [], [1, 2, 3, 4, 5, 6, 7], [8, 9]] 1 ⟨0, 3⟩ ∧
      s.Divides [[0, 1, 2], [], [1, 2, 3, 4, 5, 6, 7], [8, 9]] 4 ⟨3, 2⟩ ∧
      (∃ r, s.takeAll .forward [0, 7, 2] ⟨0, 3⟩ = .ok ([[], [1, 2, 3, 4, 5, 6, 7], [8, 9]], r) ∧
        s.finish r ⟨3, 2⟩ "partial" = .ok ()) ∧
      ∃ r, s.takeAll .reverse [2, 7, 0] ⟨3, 2⟩ = .ok ([[8, 9], [1, 2, 3, 4, 5, 6, 7], []], r) ∧
        s.finish r ⟨0, 3⟩ "partial" = .ok () := by
  obtain ⟨s, cuts, h, hp, hq⟩ := exists_recorded_rewound
  obtain ⟨hdivides, htakes⟩ := cursors_recover_runs h
  exact ⟨s, cuts, h, hp, hq, hdivides _ hp, hdivides _ hq,
    htakes 1 4 _ _ "partial" (by decide) (hdivides _ hp) (hdivides _ hq)⟩

end Autodiff.Chunked
