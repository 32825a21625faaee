import Autodiff.Proofs.Stream.Lengths

/-!
# Items that takes lose

Takes forwards that pass the check at their end have lost items when their lengths do not add up.
That happens only where the range is `Loose`: it has items before a chunk of which it holds two, so
a take of two can pass over the last item before that chunk.  In every loose range it does happen.
-/

namespace Autodiff.Chunked

variable {α : Type} {s : Chunked α} {p q r : Cut} {n : Nat}

/-- The range from `p` to `q` holds two items of a chunk, and items before that chunk. -/
def Loose (s : Chunked α) (p q : Cut) : Prop :=
  ∃ i, s.Contains ⟨i, 2⟩ ∧ s.rank p < s.rank ⟨i, 0⟩ ∧ s.rank ⟨i, 2⟩ ≤ s.rank q

theorem Seeks.loose {p' : Cut} (h : s.Seeks n p p') (hlt : s.rank p < s.rank p')
    (hq : s.rank p' + n ≤ s.rank q) : s.Loose p q := by
  have hn : 2 ≤ n := by
    by_contra hle
    exact absurd (h.single (by omega)) (Nat.ne_of_gt hlt)
  have hstart : p' = ⟨p'.chunk, 0⟩ := by
    rcases h.start with rfl | hzero
    · exact absurd hlt (Nat.lt_irrefl _)
    · exact congrArg (Cut.mk p'.chunk) hzero
  obtain ⟨c, hc, hfit⟩ := h.fits
  have htwo : s.rank ⟨p'.chunk, 2⟩ = s.rank p' + 2 := by
    rw [hstart]
    exact s.rank_add p'.chunk 0 2
  refine ⟨p'.chunk, contains_iff.2 ⟨c, hc, by simp only; omega⟩, ?_, by omega⟩
  rwa [hstart] at hlt

/-- Takes read all there is between the cuts where they begin and end unless that range is loose. -/
theorem flatten_eq_or_loose {ns : List Nat} {xss : List (List α)} (hp : s.Contains p)
    (h : s.takeAll .forward ns p = .ok (xss, r)) :
    xss.flatten = s.segment p r ∨ s.Loose p r := by
  induction ns generalizing p xss with
  | nil =>
    cases h
    exact Or.inl (s.segment_self _).symm
  | cons n ns ih =>
    obtain ⟨xs, q, xss', htake, hrest, rfl⟩ := takeAll_cons_eq_ok_iff.1 h
    obtain ⟨p', hseeks, hq, hrank, rfl⟩ := exists_seeks_of_take hp htake
    have hpp' := hseeks.rank_le
    have hqr := (takeAll_forward_sublist hq hrest).2.1
    -- A take that passes over items makes the range loose, whatever the others do.
    rcases ih hq hrest with heq | ⟨i, hi, hlt, hle⟩
    · by_cases hskip : s.rank p < s.rank p'
      · exact Or.inr (hseeks.loose hskip (by omega))
      · left
        have hsame : s.segment p q = s.segment p' q := by
          unfold segment
          rw [show s.rank p = s.rank p' by omega]
        have hwhole : s.segment p r = s.segment p q ++ s.segment q r :=
          segment_append hq (by omega) hqr
        rw [List.flatten_cons, heq, hwhole, hsame]
    · exact Or.inr ⟨i, hi, by omega, hle⟩

/-! ## Takes that lose an item -/

theorem exists_seekForward_single (hp : s.Contains p) (h : s.rank p < s.toList.length) :
    ∃ p', s.seekForward 1 (s.chunkCount - p.chunk) p = .ok p' := by
  obtain ⟨fuel, hfuel⟩ : ∃ fuel, s.chunkCount - p.chunk = fuel := ⟨_, rfl⟩
  rw [hfuel]
  induction fuel generalizing p with
  | zero =>
    have hlt := lt_chunkCount_of_contains hp
    omega
  | succ fuel ih =>
    obtain ⟨c, hc, hoffset⟩ := contains_iff.1 hp
    by_cases hfit : p.offset + 1 ≤ c.items.size
    · exact ⟨p, seekForward_here hc hfit fuel⟩
    -- Without room for one item the cut is at the end of its chunk, and the search goes on from a
    -- cut for the same place.
    · have hfull : p.offset = c.items.size := by omega
      have hnext := rank_lt_length hp h hc hfull
      have hrank : s.rank ⟨p.chunk + 1, 0⟩ = s.rank p := by
        rw [rank_succ hc, ← hfull]
      rw [seekForward_next hc (by omega) hnext]
      exact ih (contains_start hnext) (by rwa [hrank]) (by simp only; omega)

theorem exists_takeAll_singles (n : Nat) (hp : s.Contains p)
    (h : s.rank p + n ≤ s.toList.length) :
    ∃ xss q, s.takeAll .forward (List.replicate n 1) p = .ok (xss, q) ∧ s.Contains q ∧
      s.rank q = s.rank p + n := by
  induction n generalizing p with
  | zero => exact ⟨[], p, rfl, hp, rfl⟩
  | succ n ih =>
    obtain ⟨p', hseek⟩ := exists_seekForward_single hp (by omega)
    have hseeks := seeks_of_seekForward hp hseek
    obtain ⟨c, hc, hfit⟩ := hseeks.fits
    have htake := take_forward_of_seek Nat.one_ne_zero hp hseek hc hfit
    have hrank : s.rank ⟨p'.chunk, p'.offset + 1⟩ = s.rank p + 1 := by
      rw [rank_add, ← hseeks.single (Nat.le_refl 1)]
    obtain ⟨xss, q, hrest, hq, hqrank⟩ :=
      ih (p := ⟨p'.chunk, p'.offset + 1⟩) (contains_iff.2 ⟨c, hc, hfit⟩) (by omega)
    exact ⟨_, q, takeAll_cons_eq_ok_iff.2 ⟨_, _, xss, htake, hrest, rfl⟩, hq, by omega⟩

/-- A run that is longer than what is left before the chunk `i` is sought in that chunk. -/
theorem seekForward_eq_start {i : Nat} (hp : s.Contains p) (hi : s.Contains ⟨i, n⟩)
    (hlt : p.chunk < i) (hshort : s.rank ⟨i, 0⟩ < s.rank p + n) :
    s.seekForward n (s.chunkCount - p.chunk) p = .ok ⟨i, 0⟩ := by
  have hcount : i < s.chunkCount := lt_chunkCount_of_contains hi
  obtain ⟨k, hk⟩ : ∃ k, i - p.chunk = k := ⟨_, rfl⟩
  -- The induction is on the number of chunks from that of `p` to the chunk `i`.
  induction k generalizing p with
  | zero => omega
  | succ k ih =>
    obtain ⟨c, hc, hoffset⟩ := contains_iff.1 hp
    have hend : s.rank ⟨p.chunk, c.items.size⟩ ≤ s.rank ⟨i, 0⟩ := rank_le_of_chunk_lt hc hlt hcount
    have hnofit : c.items.size < p.offset + n := by
      simp only [rank] at hend hshort
      omega
    have hnext : p.chunk + 1 < s.chunkCount := by omega
    obtain ⟨fuel, hfuel⟩ : ∃ fuel, s.chunkCount - p.chunk = fuel + 1 :=
      ⟨s.chunkCount - p.chunk - 1, by omega⟩
    have hrest : fuel = s.chunkCount - (p.chunk + 1) := by omega
    rw [hfuel, seekForward_next hc hnofit hnext]
    by_cases hnow : p.chunk + 1 = i
    · obtain ⟨c', hc', hfit⟩ := contains_iff.1 hi
      obtain ⟨fuel', rfl⟩ : ∃ fuel', fuel = fuel' + 1 := ⟨fuel - 1, by omega⟩
      have hfit' : 0 + n ≤ c'.items.size := by
        rw [Nat.zero_add]
        exact hfit
      rw [hnow]
      exact seekForward_here (p := ⟨i, 0⟩) hc' hfit' fuel'
    · have hrank : s.rank p ≤ s.rank ⟨p.chunk + 1, 0⟩ := by
        rw [rank_succ hc]
        simp only [rank]
        omega
      rw [hrest]
      exact ih (contains_start hnext) (by simp only; omega) (by omega) (by simp only; omega)

theorem takeAll_append {d : Direction} {ns ms : List Nat} {xss yss : List (List α)}
    (h : s.takeAll d ns p = .ok (xss, q)) (h' : s.takeAll d ms q = .ok (yss, r)) :
    s.takeAll d (ns ++ ms) p = .ok (xss ++ yss, r) := by
  induction ns generalizing p xss with
  | nil =>
    cases h
    exact h'
  | cons n ns ih =>
    obtain ⟨xs, p', xss', htake, hrest, rfl⟩ := takeAll_cons_eq_ok_iff.1 h
    exact takeAll_cons_eq_ok_iff.2 ⟨xs, p', _, htake, ih hrest, rfl⟩

/-- In a loose range all items but the last before some chunk can be read one by one, and the first
two of that chunk together. -/
theorem Loose.exists_takeAll (hp : s.Contains p) (hq : s.Contains q) (h : s.Loose p q) :
    ∃ ns xss r, s.takeAll .forward ns p = .ok (xss, r) ∧ s.Contains r ∧ s.rank r = s.rank q ∧
      s.rank p + ns.sum + 1 = s.rank q := by
  obtain ⟨i, hi, hlt, hle⟩ := h
  obtain ⟨m, hm⟩ : ∃ m, s.rank ⟨i, 0⟩ = s.rank p + m + 1 := ⟨s.rank ⟨i, 0⟩ - s.rank p - 1, by omega⟩
  have htwo : s.rank ⟨i, 2⟩ = s.rank ⟨i, 0⟩ + 2 := s.rank_add i 0 2
  have hlength := rank_le_length hq
  have hcount : i < s.chunkCount := lt_chunkCount_of_contains hi
  obtain ⟨xss, p', hbefore, hp', hp'rank⟩ := exists_takeAll_singles m hp (by omega)
  -- One item is left before the chunk `i`, so two do not fit.
  have hchunk : p'.chunk < i := by
    by_contra hge
    have hstart : (⟨i, 0⟩ : Cut) ≤ p' := by
      rw [Cut.le_iff]
      show i < p'.chunk ∨ i = p'.chunk ∧ 0 ≤ p'.offset
      omega
    have hmono := rank_mono (contains_start hcount) hstart
    omega
  have hseek := seekForward_eq_start hp' hi hchunk (by omega)
  obtain ⟨c, hc, hfit⟩ := contains_iff.1 hi
  have hskip : s.take .forward p' 2 = .ok ((c.items.extract 0 2).toList, ⟨i, 2⟩) :=
    take_forward_of_seek (by omega) hp' hseek hc hfit
  obtain ⟨yss, r, hbehind, hr, hrrank⟩ :=
    exists_takeAll_singles (s.rank q - s.rank ⟨i, 2⟩) hi (by omega)
  have hrest := takeAll_cons_eq_ok_iff.2 ⟨_, _, yss, hskip, hbehind, rfl⟩
  refine ⟨_, _, r, takeAll_append hbefore hrest, hr, by omega, ?_⟩
  rw [List.sum_append, List.sum_cons, List.sum_replicate_nat, List.sum_replicate_nat]
  omega

/-! ## Takes that pass the check -/

/-- Takes of the given lengths read `xss`, and lead from one end of the range from `p` to `q` to
where the check at the end of a walk finds them at the other. -/
def Passes (s : Chunked α) (d : Direction) (p q : Cut) (ns : List Nat) (xss : List (List α)) :
    Prop :=
  ∃ r name, s.takeAll d ns (d.start p q) = .ok (xss, r) ∧ s.finish r (d.stop p q) name = .ok ()

section Passes

variable {d : Direction} {ns : List Nat} {xss : List (List α)}

theorem Passes.map_length (h : s.Passes d p q ns xss) : xss.map List.length = ns := by
  obtain ⟨r, name, htake, -⟩ := h
  exact map_length_takeAll htake

theorem Passes.sublist (hp : s.Contains p) (hq : s.Contains q) (h : s.Passes d p q ns xss) :
    (d.order xss).flatten.Sublist (s.segment p q) := by
  obtain ⟨r, name, htake, hfinish⟩ := h
  exact sublist_of_finish hp hq htake hfinish

theorem length_segment (hq : s.Contains q) : (s.segment p q).length = s.rank q - s.rank p := by
  rw [segment, List.length_drop, List.length_take, Nat.min_eq_left (rank_le_length hq)]

/-- The check sees every miscount of a range that is not loose, and of no other range. -/
theorem forall_passes_iff_not_loose (hp : s.Contains p) (hq : s.Contains q) :
    (∀ ns xss, s.Passes .forward p q ns xss → xss.flatten = s.segment p q) ↔ ¬s.Loose p q := by
  constructor
  · intro hall hloose
    obtain ⟨ns, xss, r, htake, hr, hrank, hsum⟩ := hloose.exists_takeAll hp hq
    have hfinish := (finish_eq_ok_iff_rank hr hq "").2 hrank
    have hlength := congrArg List.length (hall ns xss ⟨r, "", htake, hfinish⟩)
    rw [length_flatten_takeAll htake, length_segment hq] at hlength
    omega
  · rintro htight ns xss ⟨r, name, htake, hfinish⟩
    obtain ⟨hr, -, -⟩ := takeAll_forward_sublist hp htake
    have hrank := (finish_eq_ok_iff_rank hr hq name).1 hfinish
    rcases flatten_eq_or_loose hp htake with heq | hloose
    · rw [heq, segment, segment, hrank]
    · exact absurd (by rwa [Loose, hrank] at hloose) htight

end Passes

end Autodiff.Chunked
