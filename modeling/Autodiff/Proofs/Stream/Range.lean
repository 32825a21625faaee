import Autodiff.Proofs.Stream.Growth
import Autodiff.Stream.Sweep

/-!
# Ranges of a stream

A sweep between two cuts hands every item between them to its visitor once, chunk by chunk, in
recording order or against it.  `rank` counts the items before a cut, so the items between two cuts
are a segment of the plain list.
-/

namespace Autodiff.Chunked

variable {α σ : Type}

/-! ## The number of items before a cut -/

def rank (s : Chunked α) (p : Cut) : Nat := Chunk.total (s.chunks.take p.chunk) + p.offset

theorem toList_split {s : Chunked α} {i : Nat} {c : Chunk α} (h : s.chunk? i = some c) :
    s.toList = (s.chunks.take i).flatMap (fun c => c.items.toList) ++
      (c.items.toList ++ (s.chunks.drop (i + 1)).flatMap fun c => c.items.toList) := by
  rw [chunk?_eq] at h
  obtain ⟨hi, hc⟩ := List.getElem?_eq_some_iff.1 h
  have hsplit : s.chunks = s.chunks.take i ++ c :: s.chunks.drop (i + 1) := by
    rw [← hc, List.getElem_cons_drop, List.take_append_drop]
  have hitems := congrArg (List.flatMap fun c : Chunk α => c.items.toList) hsplit
  rw [List.flatMap_append, List.flatMap_cons] at hitems
  exact hitems

theorem rank_succ {s : Chunked α} {i : Nat} {c : Chunk α} (h : s.chunk? i = some c) :
    s.rank ⟨i + 1, 0⟩ = s.rank ⟨i, c.items.size⟩ := by
  rw [chunk?_eq] at h
  have htake : s.chunks.take (i + 1) = s.chunks.take i ++ [c] := by
    rw [List.take_add_one, h]
    rfl
  simp only [rank, htake, Chunk.total_eq]
  simp

theorem rank_le_length {s : Chunked α} {p : Cut} (h : s.Contains p) :
    s.rank p ≤ s.toList.length := by
  obtain ⟨c, hc, hle⟩ := contains_iff.1 h
  have hlength := congrArg List.length (toList_split hc)
  have hitems : c.items.toList.length = c.items.size := Array.length_toList
  rw [List.length_append, List.length_append] at hlength
  rw [rank, Chunk.total_eq]
  omega

theorem Continues.rank_endCut {s s' : Chunked α} (h : Continues s s') :
    s'.rank s.endCut = s.length := by
  have hchunks : s'.chunks.take s.endCut.chunk = s.closed.toList := by
    have hle := h.closed_size_le
    have htake : (s'.closed.take s.closed.size).toList = s.closed.toList := by rw [h.take_closed]
    rw [chunks, List.take_append_of_le_length (by simpa [endCut] using hle), ← htake]
    simp [endCut]
  rw [rank, hchunks, length, chunks, Chunk.total_eq, Chunk.total_eq, List.flatMap_append]
  simp [endCut]

/-! ## Items between two cuts -/

def segment (s : Chunked α) (p q : Cut) : List α := (s.toList.take (s.rank q)).drop (s.rank p)

theorem segment_same {s : Chunked α} {i a b : Nat} {c : Chunk α} (h : s.chunk? i = some c)
    (hb : b ≤ c.items.size) :
    s.segment ⟨i, a⟩ ⟨i, b⟩ = (c.items.extract a b).toList := by
  have hrank (n : Nat) : s.rank ⟨i, n⟩ =
      ((s.chunks.take i).flatMap fun c => c.items.toList).length + n := by
    rw [rank, Chunk.total_eq]
  have hsize : b ≤ c.items.toList.length := by simpa using hb
  rw [segment, hrank, hrank, toList_split h, List.take_length_add_append,
    List.drop_length_add_append, List.take_append_of_le_length hsize]
  simp [List.drop_take]

theorem segment_append {s : Chunked α} {p q r : Cut} (hq : s.Contains q)
    (hpq : s.rank p ≤ s.rank q) (hqr : s.rank q ≤ s.rank r) :
    s.segment p r = s.segment p q ++ s.segment q r := by
  have hle := rank_le_length hq
  have htake : s.toList.take (s.rank r) =
      s.toList.take (s.rank q) ++ (s.toList.take (s.rank r)).drop (s.rank q) := by
    have hsplit := (List.take_append_drop (s.rank q) (s.toList.take (s.rank r))).symm
    rw [List.take_take, Nat.min_eq_left hqr] at hsplit
    exact hsplit
  have hlength : s.rank p ≤ (s.toList.take (s.rank q)).length := by
    rw [List.length_take]
    omega
  rw [segment, htake, List.drop_append_of_le_length hlength]
  rfl

/-! ## Chunk by chunk -/

/-- What lies in chunk `i` of the items between two cuts. -/
def portion (s : Chunked α) (p q : Cut) (i : Nat) : List α :=
  match s.chunk? i with
  | some c => (c.items.extract (if i = p.chunk then p.offset else 0)
      (if i = q.chunk then q.offset else c.items.size)).toList
  | none => []

/-- The items between two cuts chunk by chunk. -/
def portions (s : Chunked α) (p q : Cut) : List (List α) :=
  (List.range' p.chunk (q.chunk + 1 - p.chunk)).map (s.portion p q)

theorem portion_congr (s : Chunked α) {p p' q : Cut} {i : Nat}
    (h : (if i = p.chunk then p.offset else 0) = if i = p'.chunk then p'.offset else 0) :
    s.portion p q i = s.portion p' q i := by
  unfold portion
  rw [h]

theorem portions_cons {s : Chunked α} {p q : Cut} (h : p.chunk < q.chunk) :
    s.portions p q = s.portion p q p.chunk :: s.portions ⟨p.chunk + 1, 0⟩ q := by
  have hcount : q.chunk + 1 - p.chunk = (q.chunk + 1 - (p.chunk + 1)) + 1 := by omega
  rw [portions, hcount, List.range'_succ, List.map_cons, portions]
  refine congrArg _ (List.map_congr_left fun i hi => s.portion_congr ?_)
  have hle := (List.mem_range'_1.1 hi).1
  rw [if_neg (by omega)]
  split <;> rfl

theorem portion_first {s : Chunked α} {p q : Cut} {c : Chunk α} (hc : s.chunk? p.chunk = some c)
    (h : p.chunk ≠ q.chunk) : s.portion p q p.chunk = s.segment p ⟨p.chunk, c.items.size⟩ := by
  obtain ⟨i, a⟩ := p
  have hne : i ≠ q.chunk := h
  have hchunk : s.chunk? i = some c := hc
  rw [segment_same hc (Nat.le_refl _)]
  simp [portion, hchunk, hne]

theorem rank_mono {s : Chunked α} {p q : Cut} (hp : s.Contains p) (h : p ≤ q) :
    s.rank p ≤ s.rank q := by
  rcases Cut.le_iff.1 h with hlt | ⟨heq, hle⟩
  -- All of the chunk of `p` comes before `q`.
  · obtain ⟨c, hc, hoffset⟩ := contains_iff.1 hp
    have hsucc : s.chunks.take (p.chunk + 1) <+: s.chunks.take q.chunk :=
      List.take_prefix_take_left (by omega)
    obtain ⟨more, hmore⟩ := hsucc
    have hrank := rank_succ hc
    simp only [rank, Chunk.total_eq, ← hmore, List.flatMap_append, List.length_append] at hrank ⊢
    omega
  · rw [rank, rank, heq]
    omega

/-- The portions of a range are its items, each once and in order. -/
theorem flatten_portions {s : Chunked α} {p q : Cut} (hp : s.Contains p) (hq : s.Contains q)
    (h : p ≤ q) : (s.portions p q).flatten = s.segment p q := by
  obtain ⟨n, hn⟩ : ∃ n, q.chunk - p.chunk = n := ⟨_, rfl⟩
  have hchunk : p.chunk ≤ q.chunk := by
    rcases Cut.le_iff.1 h with hlt | ⟨heq, -⟩ <;> omega
  obtain ⟨c, hc, hoffset⟩ := contains_iff.1 hp
  -- The induction is on the number of chunk boundaries between the cuts.
  induction n generalizing p c with
  -- Both cuts lie in one chunk, which is the only portion.
  | zero =>
    have heq : p.chunk = q.chunk := by omega
    obtain ⟨c', hc', hoffset'⟩ := contains_iff.1 hq
    obtain ⟨pc, po⟩ := p
    obtain ⟨qc, qo⟩ := q
    simp only at heq hc hc' hoffset'
    subst heq
    rw [hc] at hc'
    cases hc'
    have hcount : pc + 1 - pc = 1 := by omega
    rw [segment_same hc hoffset']
    simp [portions, hcount, portion, hc]
  -- The rest of the chunk of `p`, and then what follows from the start of the next one.
  | succ n ih =>
    have hlt : p.chunk < q.chunk := by omega
    have hcount := lt_chunkCount_of_contains hq
    obtain ⟨c', hc'⟩ := exists_chunk? (Nat.lt_of_le_of_lt hlt hcount)
    have hnext : s.Contains ⟨p.chunk + 1, 0⟩ := contains_iff.2 ⟨c', hc', Nat.zero_le _⟩
    have hend : s.Contains ⟨p.chunk, c.items.size⟩ := contains_iff.2 ⟨c, hc, Nat.le_refl _⟩
    have hle : (⟨p.chunk + 1, 0⟩ : Cut) ≤ q := by
      rw [Cut.le_iff]
      simp only
      omega
    have hrank : s.rank ⟨p.chunk, c.items.size⟩ ≤ s.rank q := by
      rw [← rank_succ hc]
      exact rank_mono hnext hle
    have hrest := ih hnext hle (by simp only; omega) hlt c' hc' (Nat.zero_le _)
    have hhere : s.portion p q p.chunk = s.segment p ⟨p.chunk, c.items.size⟩ :=
      portion_first hc (Nat.ne_of_lt hlt)
    have hstart : s.rank p ≤ s.rank ⟨p.chunk, c.items.size⟩ :=
      rank_mono hp (Cut.le_iff.2 (Or.inr ⟨rfl, hoffset⟩))
    rw [portions_cons hlt, List.flatten_cons, hrest, hhere, segment_append hend hstart hrank]
    simp only [segment, rank_succ hc]

/-! ## Distance -/

theorem total_append (cs ds : List (Chunk α)) :
    Chunk.total (cs ++ ds) = Chunk.total cs + Chunk.total ds := by
  rw [Chunk.total_eq, Chunk.total_eq, Chunk.total_eq, List.flatMap_append, List.length_append]

/-- The distance to a later cut is the number of items in between. -/
theorem distance_eq {s : Chunked α} {p q : Cut} (hp : s.Contains p) (hq : s.Contains q)
    (h : p ≤ q) : s.distance p q = .ok (s.rank q - s.rank p) := by
  obtain ⟨c, hc, hoffset⟩ := contains_iff.1 hp
  have hcount := lt_chunkCount_of_contains hq
  by_cases hqp : q ≤ p
  · rw [distance, if_pos hqp, Nat.sub_eq_zero_of_le (rank_mono hq hqp)]
  · by_cases hchunk : p.chunk = q.chunk
    · rw [distance, if_neg hqp, if_pos hchunk, rank, rank, hchunk, Nat.add_sub_add_left]
    · have hlt : p.chunk < q.chunk := by
        rw [Cut.le_iff] at h
        omega
      have hbetween : s.rank q = s.rank p + (c.items.size - p.offset +
          Chunk.total ((s.chunks.take q.chunk).drop (p.chunk + 1)) + q.offset) := by
        -- The chunks before that of `q` are those up to the one of `p`, and those in between.
        have hsplit := List.take_append_drop (p.chunk + 1) (s.chunks.take q.chunk)
        rw [List.take_take, Nat.min_eq_left hlt] at hsplit
        have htotal := total_append (s.chunks.take (p.chunk + 1))
          ((s.chunks.take q.chunk).drop (p.chunk + 1))
        have hsucc : Chunk.total (s.chunks.take (p.chunk + 1)) + 0 =
            Chunk.total (s.chunks.take p.chunk) + c.items.size := rank_succ hc
        rw [hsplit] at htotal
        rw [rank, rank, htotal]
        omega
      have hfits : ¬c.items.size < p.offset := by omega
      have hknown : ¬s.chunkCount < q.chunk := by omega
      have hinside (n : Nat) : ¬(sizeLimit ≤ n ∧ ¬s.Contains q) := fun hn => hn.2 hq
      rw [hbetween, Nat.add_sub_cancel_left]
      simp only [distance, if_neg hqp, if_neg hchunk, chunk_eq_ok_iff.2 hc, bind, Except.bind,
        if_neg hfits, if_neg hknown, if_neg (hinside _)]
      rfl

end Autodiff.Chunked
