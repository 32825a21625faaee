import Autodiff.Proofs.Stream.Calls
import Mathlib.Algebra.GroupWithZero.Nat

/-!
# Emptiness

A stream is called empty when it ends where it began.  It then has no items, but it may have none
and end somewhere else: a reservation for more items than the first chunk has room for moves the
end before anything is pushed.  No chunk is opened that would have fitted into the one before it,
so only a reservation beyond the common size can do that, and as long as there is none a stream is
called empty exactly when it has no items.
-/

namespace Autodiff.Chunked

open Run

variable {α : Type} {s s' : Chunked α} {p : Cut} {m n : Nat}

/-! ## Streams that end where they began -/

theorem size_current_le_length (s : Chunked α) : s.current.items.size ≤ s.length := by
  rw [length, chunks, total_append]
  exact Nat.le_add_left _ _

/-- A stream ends at its first cut exactly if it has neither an item nor a second chunk. -/
theorem isEmpty_iff : s.isEmpty = true ↔ s.length = 0 ∧ s.chunkCount = 1 := by
  have hend : s.isEmpty = true ↔ s.closed.size = 0 ∧ s.current.items.size = 0 := by
    rw [isEmpty, decide_eq_true_iff, endCut, Cut.zero, Cut.mk.injEq]
  rw [hend, chunkCount]
  constructor
  · rintro ⟨hclosed, hitems⟩
    have hnone : s.closed.toList = [] := by
      rw [← List.length_eq_zero_iff, Array.length_toList, hclosed]
    refine ⟨?_, by omega⟩
    rw [length, chunks, hnone, List.nil_append]
    exact hitems
  · rintro ⟨hlength, hcount⟩
    have hle := s.size_current_le_length
    exact ⟨by omega, by omega⟩

theorem chunk?_of_length_eq_zero (h : s.length = 0) {i : Nat} {c : Chunk α}
    (hc : s.chunk? i = some c) : c.items.size = 0 := by
  have hitems : s.toList.length = _ := congrArg List.length (toList_split hc)
  have hsize : c.items.toList.length = c.items.size := Array.length_toList
  rw [← length_eq, h, List.length_append, List.length_append] at hitems
  omega

/-! ## No chunk fits into the one before it -/

/-- Each chunk is larger than the room that is left in the chunk before it. -/
def Outgrown (s : Chunked α) : Prop :=
  ∀ i c c', s.chunk? i = some c → s.chunk? (i + 1) = some c' → c.room < c'.limit

theorem outgrown_blank (n : Nat) : (blank n : Chunked α).Outgrown := by
  intro i c c' _ hc'
  have hlt : i + 1 < 0 + 1 := lt_chunkCount_of_chunk? hc'
  omega

/-- Two chunks that follow each other in a stream do so in each continuation of it, and only the
second one may have grown. -/
theorem Outgrown.of_continues (hs : Continues s s') (h : s'.Outgrown) : s.Outgrown := by
  intro i c c' hc hc'
  have hlt : i + 1 < s.closed.size + 1 := lt_chunkCount_of_chunk? hc'
  obtain ⟨xs, hxs⟩ := hs.grown hc'
  exact h i c ⟨c'.items ++ xs, c'.limit⟩ ((hs.closed i (by omega)).trans hc) hxs

theorem Outgrown.truncate (h : s.Outgrown) (hp : s.Contains p) : (s.truncate p).Outgrown :=
  h.of_continues (continues_truncate hp)

theorem Outgrown.extend (h : s.Outgrown) (xs : List α) : (s.extend xs).Outgrown := by
  have hgrown := continues_extend s xs
  intro i c c' hc hc'
  have hlt : i + 1 < (s.extend xs).closed.size + 1 := lt_chunkCount_of_chunk? hc'
  change i + 1 < s.closed.size + 1 at hlt
  obtain ⟨k, hk⟩ : ∃ k, s.chunk? (i + 1) = some k := exists_chunk? hlt
  rw [hgrown.limit_eq hk hc']
  exact h i c k ((hgrown.closed i (by omega)).symm.trans hc) hk

theorem Outgrown.reserve (h : s.Outgrown) (n : Nat) : (s.reserve n).Outgrown := by
  by_cases hroom : s.current.room < n
  · intro i c c' hc hc'
    have hlt := lt_chunkCount_of_chunk? hc'
    change i + 1 < (s.reserve n).closed.size + 1 at hlt
    rw [size_closed_reserve hroom] at hlt
    by_cases hnew : i = s.closed.size
    -- The second of the two is the chunk that the reservation opens.
    · subst hnew
      rw [chunk?_reserve (Nat.lt_succ_self _), chunk?_current] at hc
      rw [← size_closed_reserve hroom, chunk?_current, Chunked.reserve, if_pos hroom] at hc'
      cases hc
      cases hc'
      exact Nat.lt_of_lt_of_le hroom (Nat.le_max_right _ _)
    · have hold : i + 1 < s.closed.size + 1 := by omega
      rw [chunk?_reserve (Nat.lt_of_succ_lt hold)] at hc
      rw [chunk?_reserve hold] at hc'
      exact h i c c' hc hc'
  · rw [Chunked.reserve, if_neg hroom]
    exact h

variable [Zero α] {width : Nat} {c : Call α} {cs : List (Call α)}

theorem Call.outgrown_perform (hs : s.Outgrown) (h : (c.perform width s).Yields s') :
    s'.Outgrown := by
  obtain ⟨xs, -, rfl⟩ | ⟨p, hp, rfl⟩ := cases_of_perform h
  · exact (hs.reserve c.reserves).extend xs
  · exact hs.truncate hp

theorem Call.outgrown_performAll (h : (performAll width n cs).Yields s) : s.Outgrown :=
  performAll_keeps (P := fun _ s => s.Outgrown) (outgrown_blank n)
    (fun _ _ _ _ _ => outgrown_perform) h

/-! ## What moves the end of a stream without items -/

theorem Call.Opened.lt_chunkCount (h : (performAll width n cs).Yields s) {i : Nat}
    (ho : Opened width n cs i m) : i < s.chunkCount := by
  obtain ⟨past, c, rest, u, rfl, -, -, -, -, hsince⟩ := ho
  exact hsince rest s (List.prefix_refl rest) h

/-- A second chunk behind an empty one is there for a reservation beyond the common size. -/
theorem Call.opened_of_length_eq_zero (h : (performAll width n cs).Yields s)
    (hlength : s.length = 0) (hcount : s.chunkCount ≠ 1) :
    ∃ m, n < m ∧ Opened width n cs 1 m := by
  have hsecond : 1 < s.closed.size + 1 := by
    unfold chunkCount at hcount
    omega
  obtain ⟨first, hfirst⟩ := exists_chunk? (Nat.zero_lt_of_lt hsecond)
  obtain ⟨second, hsecond⟩ := exists_chunk? hsecond
  have hroom : first.room < second.limit := outgrown_performAll h 0 first second hfirst hsecond
  have hempty := chunk?_of_length_eq_zero hlength hfirst
  have hlimit := (limit_performAll h 0 first hfirst).1
  have hlarge : n < second.limit := by
    unfold Chunk.room at hroom
    omega
  exact ⟨_, hlarge, (limit_performAll h 1 second hsecond).2 hlarge⟩

theorem Call.not_opened_of_reserves_le (h : ∀ c ∈ cs, c.reserves ≤ n) {i : Nat} (hm : n < m) :
    ¬Opened width n cs i m := by
  rintro ⟨past, c, rest, u, rfl, -, hreserves, -⟩
  have hle := h c (List.mem_append_right _ List.mem_cons_self)
  omega

/-! ## Main statement -/

/-- Calls in which no chunk is opened that there is no memory for, no push lacks room, and no cut is
rewound to that the stream does not contain, do not fail.  After them the stream is called empty
exactly if it has no items and its second chunk, if there is one, was not opened by a reservation
beyond the common size.  So if no call ever reserves more than the common size, being empty and
having no items are the same. -/
theorem emptiness_is_lost_to_large_reservations_only {width n : Nat} {cs : List (Call α)}
    (hn : 0 < n) (hsize : n * width ≤ memoryLimit) (hcs : Call.Lawful width (blank n) cs) :
    ∃ s : Chunked α, (Call.performAll width n cs).Yields s ∧
      (s.isEmpty = true ↔ s.length = 0 ∧ ¬∃ m, n < m ∧ Call.Opened width n cs 1 m) ∧
      ((∀ c ∈ cs, c.reserves ≤ n) → (s.isEmpty = true ↔ s.length = 0)) := by
  obtain ⟨s, hs⟩ := hcs.exists_performAll hn hsize
  have hexact : s.isEmpty = true ↔
      s.length = 0 ∧ ¬∃ m, n < m ∧ Call.Opened width n cs 1 m := by
    rw [isEmpty_iff]
    refine and_congr_right fun hlength => ⟨?_, fun hnone => ?_⟩
    · rintro hcount ⟨m, -, hopened⟩
      have hlt := hopened.lt_chunkCount hs
      omega
    · by_contra hcount
      exact hnone (Call.opened_of_length_eq_zero hs hlength hcount)
  refine ⟨s, hs, hexact, fun hsmall => hexact.trans (and_iff_left ?_)⟩
  rintro ⟨m, hm, hopened⟩
  exact Call.not_opened_of_reserves_le hsmall hm hopened

/-- A chunk that was opened behind an item is dropped with it again, and the stream is empty.  After
more than four items were reserved it has none either, but it no longer ends where it began. -/
theorem emptiness_is_lost_to_large_reservations_only_of_dropped :
    ∃ (cs more : List (Call Nat)) (s s' : Chunked Nat),
      cs = [.reserve 3, .push 7, .reserve 4, .rewind .zero] ∧
      more = [.reserve 5, .push 7, .rewind ⟨1, 0⟩] ∧
      Call.Lawful 8 (blank 4) cs ∧ (Call.performAll 8 4 cs).Yields s ∧
      s.length = 0 ∧ s.isEmpty = true ∧
      Call.Lawful 8 (blank 4) (cs ++ more) ∧ (Call.performAll 8 4 (cs ++ more)).Yields s' ∧
      s'.length = 0 ∧ s'.isEmpty = false ∧ ∃ m, 4 < m ∧ Call.Opened 8 4 (cs ++ more) 1 m := by
  obtain ⟨cs, hcs⟩ : ∃ cs : List (Call Nat),
      cs = [.reserve 3, .push 7, .reserve 4, .rewind .zero] := ⟨_, rfl⟩
  obtain ⟨more, hmore⟩ : ∃ more : List (Call Nat),
      more = [.reserve 5, .push 7, .rewind ⟨1, 0⟩] := ⟨_, rfl⟩
  have hlawful : Call.Lawful 8 (blank 4) cs := by
    subst hcs
    exact .cons (by decide) (fun _ => rfl) <| .cons (by decide) (fun _ => rfl) <|
      .cons (by decide) (fun _ => rfl) <| .cons (by decide) (fun _ => rfl) trivial
  have hlawful' : Call.Lawful 8 (blank 4) (cs ++ more) := by
    subst hcs hmore
    exact .cons (by decide) (fun _ => rfl) <| .cons (by decide) (fun _ => rfl) <|
      .cons (by decide) (fun _ => rfl) <| .cons (by decide) (fun _ => rfl) <|
      .cons (by decide) (fun _ => rfl) <| .cons (by decide) (fun _ => rfl) <|
      .cons (by decide) (fun _ => rfl) trivial
  have hsize : 4 * 8 ≤ memoryLimit := by decide
  obtain ⟨s, hs, -, hsame⟩ :=
    emptiness_is_lost_to_large_reservations_only (by decide) hsize hlawful
  obtain ⟨s', hs', hexact, -⟩ :=
    emptiness_is_lost_to_large_reservations_only (by decide) hsize hlawful'
  have hlength : s.length = 0 := by
    subst hcs
    cases hs {}
    rfl
  have hlength' : s'.length = 0 ∧ s'.isEmpty = false := by
    subst hcs hmore
    cases hs' {}
    exact ⟨rfl, rfl⟩
  have hreserves : ∀ c ∈ cs, c.reserves ≤ 4 := by
    subst hcs
    simp only [List.forall_mem_cons, Call.reserves]
    exact ⟨by decide, by decide, by decide, by decide, fun c hc => absurd hc List.not_mem_nil⟩
  have hempty : s.isEmpty = true := (hsame hreserves).2 hlength
  have hopened : ∃ m, 4 < m ∧ Call.Opened 8 4 (cs ++ more) 1 m := by
    by_contra hnone
    rw [hexact.2 ⟨hlength'.1, hnone⟩] at hlength'
    exact Bool.noConfusion hlength'.2
  exact ⟨cs, more, s, s', hcs, hmore, hlawful, hs, hlength, hempty, hlawful', hs', hlength'.1,
    hlength'.2, hopened⟩

/-- A stream that was asked for more room than its first chunk has is not called empty, although
nothing was ever pushed. -/
theorem itemless_stream_is_not_empty_of_reserved :
    ∃ (cs : List (Call Nat)) (s : Chunked Nat), cs = [.reserve 5] ∧
      Call.Lawful 8 (blank 4) cs ∧ (Call.performAll 8 4 cs).Yields s ∧ s.length = 0 ∧
      s.isEmpty = false ∧ ¬(s.isEmpty = true ↔ s.length = 0) :=
  ⟨_, _, rfl, .cons (by decide) (fun _ => rfl) trivial, fun _ => rfl, rfl, rfl,
    fun h => Bool.noConfusion (h.2 rfl)⟩

end Autodiff.Chunked
