import Autodiff.Proofs.Stream.Lengths
import Autodiff.Stream.Sweep

/-!
# The visits of a sweep

A sweep makes one visit to every chunk of its range, and what it comes to is the fold of its visitor
over these visits, each followed by a check of where the visitor stopped.  A sweep against the order
of recording makes the same visits from the last to the first, with cursor and bound exchanged.
-/

namespace Autodiff

/-- The number of the chunk that comes after chunk `i` in a sweep. -/
def Direction.next : Direction → Nat → Nat
  | forward, i => i + 1
  | reverse, i => i - 1

variable {α σ : Type} {m : Type → Type} [Monad m]

theorem foldlM_congr_of_mem {β : Type} {step step' : σ → β → m σ} {xs : List β}
    (h : ∀ acc, ∀ x ∈ xs, step acc x = step' acc x) (acc : σ) :
    xs.foldlM step acc = xs.foldlM step' acc := by
  induction xs generalizing acc with
  | nil => rfl
  | cons x xs ih =>
    rw [List.foldlM_cons, List.foldlM_cons, h acc x (List.mem_cons_self ..)]
    exact congrArg _ (funext fun acc =>
      ih (fun acc x hx => h acc x (List.mem_cons_of_mem _ hx)) acc)

variable [MonadExceptOf Fault m]

/-! ## One visit -/

namespace Visit

/-- The items that a visit hands out, in recording order. -/
def handed (v : Visit α) : List α :=
  (v.chunk.items.extract (min v.cursor v.bound) (max v.cursor v.bound)).toList

/-- What a visit in recording order is for a sweep in the given direction. -/
def turn : Direction → Visit α → Visit α
  | .forward, v => v
  | .reverse, v => { v with cursor := v.bound, bound := v.cursor }

/-- Let a visitor have a visit, and check where it stopped. -/
def attend (d : Direction) (visitor : σ → Visit α → m (σ × Nat)) (acc : σ) (v : Visit α) :
    m σ := do
  let (acc, stopped) ← visitor acc v
  unless stopped = v.bound do
    throw (Fault.strayCursor d stopped v.bound v.index)
  return acc

@[simp] theorem index_turn (d : Direction) (v : Visit α) : (turn d v).index = v.index := by
  cases d <;> rfl

@[simp] theorem chunk_turn (d : Direction) (v : Visit α) : (turn d v).chunk = v.chunk := by
  cases d <;> rfl

@[simp] theorem handed_turn (d : Direction) (v : Visit α) : (turn d v).handed = v.handed := by
  cases d with
  | forward => rfl
  | reverse => rw [handed, handed, Nat.min_comm, Nat.max_comm]; rfl

theorem handed_of_le {v : Visit α} (h : v.cursor ≤ v.bound) :
    v.handed = (v.chunk.items.extract v.cursor v.bound).toList := by
  rw [handed, Nat.min_eq_left h, Nat.max_eq_right h]

theorem handed_of_ge {v : Visit α} (h : v.bound ≤ v.cursor) :
    v.handed = (v.chunk.items.extract v.bound v.cursor).toList := by
  rw [handed, Nat.min_eq_right h, Nat.max_eq_left h]

theorem attend_of_consumed [LawfulMonad m] {d : Direction} {visitor : σ → Visit α → m (σ × Nat)}
    {acc : σ} {v : Visit α} {next : m σ}
    (h : visitor acc v = do let acc ← next; return (acc, v.bound)) :
    attend d visitor acc v = next := by
  simp only [attend, h, bind_assoc, pure_bind, ↓reduceIte]
  exact bind_pure next

theorem attend_of_stray {d : Direction} {visitor : σ → Visit α → Except Fault (σ × Nat)}
    {acc acc' : σ} {v : Visit α} {stopped : Nat} (h : visitor acc v = .ok (acc', stopped))
    (hstray : stopped ≠ v.bound) :
    attend d visitor acc v = .error (.strayCursor d stopped v.bound v.index) := by
  simp only [attend, h, bind, Except.bind, if_neg hstray]
  rfl

end Visit

/-! ## All visits -/

namespace Chunked

open Visit

variable {s : Chunked α} {p q : Cut}

/-- The visit of chunk `i` in a sweep in recording order over the range from `p` to `q`. -/
def visitAt (s : Chunked α) (p q : Cut) (i : Nat) : Visit α :=
  let c := (s.chunk? i).getD (.empty 0)
  ⟨i, c, if i = p.chunk then p.offset else 0, if i = q.chunk then q.offset else c.items.size⟩

/-- The visits of a sweep over the range from `p` to `q`, in the order in which it makes them. -/
def visits (s : Chunked α) (d : Direction) (p q : Cut) : List (Visit α) :=
  d.order ((List.range' p.chunk (q.chunk + 1 - p.chunk)).map fun i => turn d (s.visitAt p q i))

theorem visit_eq_turn (d : Direction) (p q : Cut) {i : Nat} (hi : i < s.chunkCount) :
    s.visit d (d.start p q) (d.stop p q) i = .ok (turn d (s.visitAt p q i)) := by
  obtain ⟨c, hc⟩ := exists_chunk? hi
  cases d <;> simp only [visit, visitAt, chunk_eq_ok_iff.2 hc, hc, bind, Except.bind] <;> rfl

theorem sweepAux_succ [LawfulMonad m] (d : Direction) (visitor : σ → Visit α → m (σ × Nat))
    (n : Nat) {i : Nat} (hi : i < s.chunkCount) (acc : σ) :
    s.sweepAux d (d.start p q) (d.stop p q) visitor (n + 1) i acc =
      attend d visitor acc (turn d (s.visitAt p q i)) >>=
        s.sweepAux d (d.start p q) (d.stop p q) visitor n (d.next i) := by
  have hvisit : (MonadExcept.ofExcept (s.visit d (d.start p q) (d.stop p q) i) : m (Visit α)) =
      pure (turn d (s.visitAt p q i)) := by
    rw [visit_eq_turn d p q hi]
    rfl
  have hindex : (turn d (s.visitAt p q i)).index = i := index_turn d _
  simp only [sweepAux, hvisit, pure_bind, attend, bind_assoc, hindex]
  refine congrArg _ (funext fun answer => ?_)
  by_cases hbound : answer.2 = (turn d (s.visitAt p q i)).bound
  · simp only [if_pos hbound, pure_bind]
    cases d <;> rfl
  · simp only [if_neg hbound, bind_assoc, pure_bind]
    cases d <;> rfl

theorem sweepAux_forward [LawfulMonad m] (visitor : σ → Visit α → m (σ × Nat)) (n i : Nat)
    (acc : σ) (hi : i + n ≤ s.chunkCount) :
    s.sweepAux .forward p q visitor n i acc =
      ((List.range' i n).map (s.visitAt p q)).foldlM (attend .forward visitor) acc := by
  induction n generalizing i acc with
  | zero => rfl
  | succ n ih =>
    rw [List.range'_succ, List.map_cons, List.foldlM_cons]
    refine (sweepAux_succ .forward visitor n (by omega) acc).trans ?_
    exact congrArg _ (funext fun acc => ih (i + 1) acc (by omega))

theorem sweepAux_reverse [LawfulMonad m] (visitor : σ → Visit α → m (σ × Nat)) (n i : Nat)
    (acc : σ) (hn : n ≤ i + 1) (hi : i < s.chunkCount) :
    s.sweepAux .reverse q p visitor n i acc =
      ((List.range' (i + 1 - n) n).map fun i => turn .reverse (s.visitAt p q i)).reverse.foldlM
        (attend .reverse visitor) acc := by
  induction n generalizing i acc with
  | zero => rfl
  | succ n ih =>
    have hrange : List.range' (i + 1 - (n + 1)) (n + 1) =
        List.range' (i + 1 - (n + 1)) n ++ [i] := by
      have hlast : i + 1 - (n + 1) + n = i := by omega
      rw [List.range'_1_concat, hlast]
    rw [hrange, List.map_append, List.reverse_append, List.map_singleton, List.reverse_singleton,
      List.singleton_append, List.foldlM_cons]
    refine (sweepAux_succ .reverse visitor n hi acc).trans ?_
    refine congrArg _ (funext fun acc => ?_)
    -- The chunk before the first has no number, so the last step is taken by itself.
    rcases n with - | n
    · rfl
    · have hstart : i - 1 + 1 - (n + 1) = i + 1 - (n + 1 + 1) := by omega
      rw [← hstart]
      exact ih (i - 1) acc (by omega) (by omega)

theorem chunk_le_chunk (h : p ≤ q) : p.chunk ≤ q.chunk := by
  rw [Cut.le_iff] at h
  omega

/-- What a sweep comes to, whatever its visitor does. -/
theorem sweep_eq_foldlM_visits [LawfulMonad m] (hq : s.Contains q) (h : p ≤ q) (d : Direction)
    (visitor : σ → Visit α → m (σ × Nat)) (acc : σ) :
    s.sweep d (d.start p q) (d.stop p q) visitor acc =
      (s.visits d p q).foldlM (attend d visitor) acc := by
  have hcount := lt_chunkCount_of_contains hq
  have hle := chunk_le_chunk h
  have hlength : q.chunk - p.chunk + 1 = q.chunk + 1 - p.chunk := by omega
  cases d with
  | forward =>
    have horder : Direction.forward.Ordered p q := h
    simp only [sweep, Direction.start, Direction.stop, if_pos horder, hlength]
    exact sweepAux_forward visitor _ _ acc (by omega)
  | reverse =>
    have horder : Direction.reverse.Ordered q p := h
    have hstart : q.chunk + 1 - (q.chunk + 1 - p.chunk) = p.chunk := by omega
    simp only [sweep, Direction.start, Direction.stop, if_pos horder, hlength]
    rw [sweepAux_reverse visitor _ _ acc (by omega) hcount, hstart]
    rfl

/-! ## What the visits hand out -/

theorem map_index_visits (s : Chunked α) (d : Direction) (p q : Cut) :
    (s.visits d p q).map Visit.index =
      d.order (List.range' p.chunk (q.chunk + 1 - p.chunk)) := by
  rw [visits, ← Direction.order_map, List.map_map]
  congr 1
  refine (List.map_congr_left fun i _ => ?_).trans (List.map_id _)
  exact index_turn d _

/-- A visit stays within its chunk. -/
theorem visitAt_bounds (hp : s.Contains p) (hq : s.Contains q) (h : p ≤ q) {i : Nat}
    (hiq : i ≤ q.chunk) :
    s.chunk? i = some (s.visitAt p q i).chunk ∧
      (s.visitAt p q i).cursor ≤ (s.visitAt p q i).bound ∧
      (s.visitAt p q i).bound ≤ (s.visitAt p q i).chunk.items.size := by
  obtain ⟨cp, hcp, hpo⟩ := contains_iff.1 hp
  obtain ⟨cq, hcq, hqo⟩ := contains_iff.1 hq
  obtain ⟨c, hc⟩ := exists_chunk? (Nat.lt_of_le_of_lt hiq (lt_chunkCount_of_contains hq))
  have horder := Cut.le_iff.1 h
  simp only [visitAt, hc, Option.getD_some, true_and]
  -- Only in the first chunk does a visit begin behind the start, and only in the last does it end
  -- before the end; the two meet when both cuts lie in one chunk.
  constructor
  · by_cases hip : i = p.chunk
    · subst hip
      rw [hc] at hcp
      cases hcp
      by_cases hpq : p.chunk = q.chunk
      · simp only [if_pos hpq, ↓reduceIte]
        omega
      · simp only [if_neg hpq, ↓reduceIte]
        exact hpo
    · simp only [if_neg hip]
      exact Nat.zero_le _
  · by_cases hi : i = q.chunk
    · subst hi
      rw [hc] at hcq
      cases hcq
      simpa using hqo
    · simp [hi]

theorem handed_visitAt (hp : s.Contains p) (hq : s.Contains q) (h : p ≤ q) {i : Nat}
    (hiq : i ≤ q.chunk) : (s.visitAt p q i).handed = s.portion p q i := by
  obtain ⟨hc, hle, -⟩ := visitAt_bounds hp hq h hiq
  rw [handed_of_le hle]
  simp only [portion, hc]
  rfl

theorem map_handed_visits (hp : s.Contains p) (hq : s.Contains q) (h : p ≤ q) (d : Direction) :
    (s.visits d p q).map Visit.handed = d.order (s.portions p q) := by
  rw [visits, ← Direction.order_map, portions, List.map_map]
  congr 1
  refine List.map_congr_left fun i hi => ?_
  have hrange := List.mem_range'_1.1 hi
  exact (handed_turn d _).trans (handed_visitAt hp hq h (by omega))

/-- Read in its direction, a sweep meets every item of its range once, in order or against it. -/
theorem flatMap_handed_visits (hp : s.Contains p) (hq : s.Contains q) (h : p ≤ q)
    (d : Direction) :
    (s.visits d p q).flatMap (fun v => d.order v.handed) = d.order (s.segment p q) := by
  have hhanded := map_handed_visits hp hq h d
  have hsplit : (s.visits d p q).flatMap (fun v => d.order v.handed) =
      (((s.visits d p q).map Visit.handed).map d.order).flatten := by
    rw [List.map_map, List.flatMap_def]
    rfl
  rw [hsplit, hhanded, ← flatten_portions hp hq h]
  cases d with
  | forward => exact congrArg List.flatten (List.map_id _)
  | reverse =>
    show ((s.portions p q).reverse.map List.reverse).flatten = (s.portions p q).flatten.reverse
    rw [List.reverse_flatten, List.map_reverse]

theorem visits_bounds (hp : s.Contains p) (hq : s.Contains q) (h : p ≤ q) {d : Direction}
    {v : Visit α} (hv : v ∈ s.visits d p q) :
    s.chunk? v.index = some v.chunk ∧ d.Ordered v.cursor v.bound ∧
      v.cursor ≤ v.chunk.items.size ∧ v.bound ≤ v.chunk.items.size := by
  rw [visits, Direction.mem_order, List.mem_map] at hv
  obtain ⟨i, hi, rfl⟩ := hv
  have hrange := List.mem_range'_1.1 hi
  obtain ⟨hc, hle, hfit⟩ := visitAt_bounds hp hq h (show i ≤ q.chunk by omega)
  rw [index_turn, chunk_turn]
  cases d with
  | forward => exact ⟨hc, hle, Nat.le_trans hle hfit, hfit⟩
  | reverse => exact ⟨hc, hle, hfit, Nat.le_trans hle hfit⟩

/-! ## Visitors -/

section Visitors

variable {d : Direction} {visitor : σ → Visit α → Except Fault (σ × Nat)} {vs : List (Visit α)}

theorem foldlM_attend_of_consumed {f : σ → Visit α → σ}
    (hvisitor : ∀ acc, ∀ v ∈ vs, visitor acc v = .ok (f acc v, v.bound)) (acc : σ) :
    vs.foldlM (attend d visitor) acc = .ok (vs.foldl f acc) := by
  have hattend (acc : σ) (v : Visit α) (hv : v ∈ vs) : attend d visitor acc v = pure (f acc v) :=
    attend_of_consumed (hvisitor acc v hv)
  rw [foldlM_congr_of_mem hattend, List.foldlM_pure]
  rfl

/-- No visit is made after one that a visitor left anywhere but at its bound. -/
theorem foldlM_attend_of_stray {past rest : List (Visit α)} {v : Visit α} {acc acc' acc'' : σ}
    {stopped : Nat} (hpast : past.foldlM (attend d visitor) acc = .ok acc')
    (hv : visitor acc' v = .ok (acc'', stopped)) (hstray : stopped ≠ v.bound) :
    (past ++ v :: rest).foldlM (attend d visitor) acc =
      .error (.strayCursor d stopped v.bound v.index) := by
  rw [List.foldlM_append, hpast]
  show (v :: rest).foldlM (attend d visitor) acc' = _
  rw [List.foldlM_cons, attend_of_stray hv hstray]
  rfl

end Visitors

/-- A sweep between two cuts, in either direction, makes one visit to each chunk from that of the
first cut to that of the last, and is the fold of its visitor over these visits.  No visit leaves
its chunk.  Both directions hand out the same items chunk by chunk, and read in the direction of the
sweep they are the items of the range, each once.  A visitor that consumes every visit is never
stopped; one that stands anywhere but at the bound after any visit ends the sweep in a fault. -/
theorem sweeps_visit_every_item_once (hp : s.Contains p) (hq : s.Contains q) (h : p ≤ q)
    (d : Direction) :
    (s.visits d p q).map Visit.index = d.order (List.range' p.chunk (q.chunk + 1 - p.chunk)) ∧
    (∀ v ∈ s.visits d p q, s.chunk? v.index = some v.chunk ∧ d.Ordered v.cursor v.bound ∧
      v.cursor ≤ v.chunk.items.size ∧ v.bound ≤ v.chunk.items.size) ∧
    (s.visits d p q).map Visit.handed = d.order ((s.visits .forward p q).map Visit.handed) ∧
    (s.visits d p q).flatMap (fun v => d.order v.handed) = d.order (s.segment p q) ∧
    (∀ {m : Type → Type} [Monad m] [LawfulMonad m] [MonadExceptOf Fault m] {σ : Type}
      (visitor : σ → Visit α → m (σ × Nat)) (acc : σ),
      s.sweep d (d.start p q) (d.stop p q) visitor acc =
        (s.visits d p q).foldlM (attend d visitor) acc) ∧
    ∀ {σ : Type} (visitor : σ → Visit α → Except Fault (σ × Nat)) (acc : σ),
      (∀ f : σ → Visit α → σ,
        (∀ acc, ∀ v ∈ s.visits d p q, visitor acc v = .ok (f acc v, v.bound)) →
        s.sweep d (d.start p q) (d.stop p q) visitor acc = .ok ((s.visits d p q).foldl f acc)) ∧
      ∀ past v rest acc' acc'' stopped, s.visits d p q = past ++ v :: rest →
        past.foldlM (attend d visitor) acc = .ok acc' → visitor acc' v = .ok (acc'', stopped) →
        stopped ≠ v.bound →
        s.sweep d (d.start p q) (d.stop p q) visitor acc =
          .error (.strayCursor d stopped v.bound v.index) := by
  have hhanded : (s.visits d p q).map Visit.handed =
      d.order ((s.visits .forward p q).map Visit.handed) := by
    rw [map_handed_visits hp hq h, map_handed_visits hp hq h]
    rfl
  refine ⟨s.map_index_visits d p q, fun v hv => visits_bounds hp hq h hv, hhanded,
    flatMap_handed_visits hp hq h d, fun visitor acc => sweep_eq_foldlM_visits hq h d visitor acc,
    fun visitor acc => ⟨fun f hf => ?_, ?_⟩⟩
  · rw [sweep_eq_foldlM_visits hq h]
    exact foldlM_attend_of_consumed hf acc
  · intro past v rest acc' acc'' stopped hvisits hpast hv hstray
    rw [sweep_eq_foldlM_visits hq h, hvisits]
    exact foldlM_attend_of_stray hpast hv hstray

/-- Backwards over an empty chunk: one visitor collects what it is handed, and another one, which
does not move, is stopped at its first visit. -/
theorem sweeps_visit_every_item_once_of_empty_chunk :
    ∃ s : Chunked Nat, s = (((blank 4).pushRun [0, 1, 2]).reserve 5).pushRun [3, 4, 5, 6, 7, 8] ∧
      s.Contains ⟨0, 1⟩ ∧ s.Contains ⟨2, 2⟩ ∧
      (s.visits .reverse ⟨0, 1⟩ ⟨2, 2⟩).map Visit.index = [2, 1, 0] ∧
      (s.visits .reverse ⟨0, 1⟩ ⟨2, 2⟩).flatMap (fun v => v.handed.reverse) = [4, 3, 2, 1] ∧
      s.sweep .reverse ⟨2, 2⟩ ⟨0, 1⟩
        (fun acc v => (.ok (acc ++ [v.handed], v.bound) : Except Fault (List (List Nat) × Nat)))
        [] = .ok [[3, 4], [], [1, 2]] ∧
      s.sweep .reverse ⟨2, 2⟩ ⟨0, 1⟩
        (fun acc v => (.ok (acc, v.cursor) : Except Fault (List (List Nat) × Nat))) [] =
          .error (.strayCursor .reverse 2 0 2) := by
  obtain ⟨s, hs⟩ : ∃ s : Chunked Nat,
      s = (((blank 4).pushRun [0, 1, 2]).reserve 5).pushRun [3, 4, 5, 6, 7, 8] := ⟨_, rfl⟩
  have hp : s.Contains ⟨0, 1⟩ := by subst hs; decide
  have hq : s.Contains ⟨2, 2⟩ := by subst hs; decide
  obtain ⟨hindex, -, -, hhanded, -, hvisitors⟩ :=
    sweeps_visit_every_item_once hp hq (by decide) .reverse
  have hcollect := (hvisitors (fun (acc : List (List Nat)) v => .ok (acc ++ [v.handed], v.bound))
    []).1 (fun acc v => acc ++ [v.handed]) fun _ _ _ => rfl
  have hstray := (hvisitors (fun (acc : List (List Nat)) v => .ok (acc, v.cursor)) []).2
  refine ⟨s, hs, hp, hq, hindex, hhanded.trans ?_, hcollect.trans ?_, ?_⟩
  · subst hs
    decide
  · subst hs
    rfl
  · exact hstray [] _ _ _ _ _ (by subst hs; rfl) rfl rfl (by subst hs; decide)

end Chunked

end Autodiff
