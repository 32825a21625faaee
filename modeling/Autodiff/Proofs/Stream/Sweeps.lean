import Autodiff.Proofs.Stream.Visits

/-!
# Sweeps are folds

A visitor that takes in the items of each visit and stops at its bound turns a sweep into a fold
over the portions of the range.  Consuming items one by one is the fold over the segment itself.
-/

namespace Autodiff

variable {α σ : Type} {m : Type → Type} [Monad m]

theorem foldlM_foldlM_flatten [LawfulMonad m] (step : σ → α → m σ) (xss : List (List α)) (acc : σ) :
    xss.foldlM (fun acc xs => xs.foldlM step acc) acc = xss.flatten.foldlM step acc := by
  induction xss generalizing acc with
  | nil => rfl
  | cons xs xss ih =>
    rw [List.foldlM_cons, List.flatten_cons, List.foldlM_append]
    exact congrArg _ (funext fun acc => ih acc)

variable [MonadExceptOf Fault m]

/-! ## One visit -/

namespace Visit

theorem item_of_lt {v : Visit α} {i : Nat} (h : i < v.chunk.items.size) :
    (v.item i : m α) = pure v.chunk.items[i] := by
  rw [item, Array.getElem?_eq_getElem h]

variable [LawfulMonad m]

theorem ascend_eq (v : Visit α) (step : σ → α → m σ) (n i : Nat) (acc : σ)
    (h : i + n ≤ v.chunk.items.size) :
    v.ascend step n i acc = (v.chunk.items.extract i (i + n)).toList.foldlM step acc := by
  induction n generalizing i acc with
  | zero => simp [ascend]
  | succ n ih =>
    have hlt : i < v.chunk.items.size := by omega
    have hlist : (v.chunk.items.extract i (i + (n + 1))).toList =
        v.chunk.items[i] :: (v.chunk.items.extract (i + 1) (i + 1 + n)).toList := by
      have hcount : i + (n + 1) - i = n + 1 := by omega
      have hcount' : i + 1 + n - (i + 1) = n := by omega
      have hlength : i < v.chunk.items.toList.length := by simpa using hlt
      rw [Array.toList_extract, Array.toList_extract, List.extract_eq_take_drop,
        List.extract_eq_take_drop, hcount, hcount', List.drop_eq_getElem_cons hlength,
        List.take_succ_cons, Array.getElem_toList]
    rw [ascend, item_of_lt hlt, pure_bind, hlist, List.foldlM_cons]
    exact congrArg _ (funext fun acc => ih (i + 1) acc (by omega))

theorem descend_eq (v : Visit α) (step : σ → α → m σ) (n : Nat) (acc : σ)
    (h : v.bound + n ≤ v.chunk.items.size) :
    v.descend step n acc =
      (v.chunk.items.extract v.bound (v.bound + n)).toList.reverse.foldlM step acc := by
  induction n generalizing acc with
  | zero => simp [descend]
  | succ n ih =>
    have hlt : v.bound + n < v.chunk.items.size := by omega
    have hlist : (v.chunk.items.extract v.bound (v.bound + (n + 1))).toList =
        (v.chunk.items.extract v.bound (v.bound + n)).toList ++ [v.chunk.items[v.bound + n]] := by
      have hpush : v.chunk.items.extract v.bound (v.bound + (n + 1)) =
          (v.chunk.items.extract v.bound (v.bound + n)).push v.chunk.items[v.bound + n] := by
        rw [Array.push_extract_getElem hlt, Nat.min_eq_left (Nat.le_add_right _ _)]
        rfl
      rw [hpush, Array.toList_push]
    rw [descend, item_of_lt hlt, pure_bind, hlist, List.reverse_append, List.reverse_singleton,
      List.singleton_append, List.foldlM_cons]
    exact congrArg _ (funext fun acc => ih acc (by omega))

end Visit

namespace Chunked

/-! ## Portion by portion -/

open Visit

variable {s : Chunked α} {p q : Cut}

/-- What a visitor of a forward sweep has to do with each visit. -/
def Reads (visitor : σ → Visit α → m (σ × Nat)) (f : σ → List α → m σ) : Prop :=
  ∀ acc v, v.cursor ≤ v.bound → v.bound ≤ v.chunk.items.size →
    visitor acc v = do
      let acc ← f acc (v.chunk.items.extract v.cursor v.bound).toList
      return (acc, v.bound)

/-- What a visitor of a reverse sweep has to do with each visit. -/
def ReadsBack (visitor : σ → Visit α → m (σ × Nat)) (f : σ → List α → m σ) : Prop :=
  ∀ acc v, v.bound ≤ v.cursor → v.cursor ≤ v.chunk.items.size →
    visitor acc v = do
      let acc ← f acc (v.chunk.items.extract v.bound v.cursor).toList
      return (acc, v.bound)

variable [LawfulMonad m]

theorem sweep_eq_foldlM_portions {d : Direction} {visitor : σ → Visit α → m (σ × Nat)}
    {f : σ → List α → m σ} (hp : s.Contains p) (hq : s.Contains q) (h : p ≤ q)
    (hattend : ∀ acc, ∀ v ∈ s.visits d p q, attend d visitor acc v = f acc v.handed) (acc : σ) :
    s.sweep d (d.start p q) (d.stop p q) visitor acc = (d.order (s.portions p q)).foldlM f acc := by
  rw [sweep_eq_foldlM_visits hq h, foldlM_congr_of_mem hattend, ← map_handed_visits hp hq h,
    List.foldlM_map]

theorem sweep_forward {visitor : σ → Visit α → m (σ × Nat)} {f : σ → List α → m σ}
    (hf : Reads visitor f) (hp : s.Contains p) (hq : s.Contains q) (h : p ≤ q) (acc : σ) :
    s.sweep .forward p q visitor acc = (s.portions p q).foldlM f acc := by
  refine sweep_eq_foldlM_portions (d := .forward) hp hq h (fun acc v hv => ?_) acc
  obtain ⟨-, hle, -, hfit⟩ := visits_bounds hp hq h hv
  rw [handed_of_le hle]
  exact attend_of_consumed (hf acc v hle hfit)

theorem sweep_reverse {visitor : σ → Visit α → m (σ × Nat)} {f : σ → List α → m σ}
    (hf : ReadsBack visitor f) (hp : s.Contains p) (hq : s.Contains q) (h : p ≤ q) (acc : σ) :
    s.sweep .reverse q p visitor acc = (s.portions p q).reverse.foldlM f acc := by
  refine sweep_eq_foldlM_portions (d := .reverse) hp hq h (fun acc v hv => ?_) acc
  obtain ⟨-, hle, hfit, -⟩ := visits_bounds hp hq h hv
  rw [handed_of_ge hle]
  exact attend_of_consumed (hf acc v hle hfit)

/-! ## Item by item -/

theorem fold_forward (hp : s.Contains p) (hq : s.Contains q) (h : p ≤ q) (step : σ → α → m σ)
    (acc : σ) : s.fold .forward p q step acc = (s.segment p q).foldlM step acc := by
  have hreads : Reads (Visit.drain .forward step) fun acc (xs : List α) => xs.foldlM step acc := by
    intro acc v hle hfit
    have hend : v.cursor + (v.bound - v.cursor) = v.bound := by omega
    rw [Visit.drain, v.ascend_eq step _ _ acc (by omega), hend, Nat.max_eq_right hle]
  rw [fold, sweep_forward hreads hp hq h, foldlM_foldlM_flatten, flatten_portions hp hq h]

theorem fold_reverse (hp : s.Contains p) (hq : s.Contains q) (h : p ≤ q) (step : σ → α → m σ)
    (acc : σ) : s.fold .reverse q p step acc = (s.segment p q).reverse.foldlM step acc := by
  have hreads : ReadsBack (Visit.drain .reverse step)
      fun acc (xs : List α) => xs.reverse.foldlM step acc := by
    intro acc v hle hfit
    have hend : v.bound + (v.cursor - v.bound) = v.cursor := by omega
    rw [Visit.drain, v.descend_eq step _ acc (by omega), hend, Nat.min_eq_right hle]
  have hflatten (xss : List (List α)) :
      xss.flatten.reverse = (xss.reverse.map List.reverse).flatten := by
    rw [List.reverse_flatten, List.map_reverse]
  rw [fold, sweep_reverse hreads hp hq h, ← flatten_portions hp hq h, hflatten,
    ← foldlM_foldlM_flatten, List.foldlM_map]

theorem between_eq (hp : s.Contains p) (hq : s.Contains q) (h : p ≤ q) :
    s.between p q = .ok (s.segment p q) := by
  have hreads : Reads
      (fun acc (v : Visit α) => do
        let xs ← v.items .forward
        return (xs.reverseAux acc, v.bound))
      fun acc (xs : List α) => (.ok (xs.reverseAux acc) : Except Fault (List α)) := by
    intro acc v hle hfit
    simp only [Visit.items, Chunk.slice, if_pos (And.intro hle hfit)]
    rfl
  -- Each chunk is put in front of what was read, so the whole comes out reversed.
  have hfold (xss : List (List α)) (acc : List α) :
      xss.foldlM (fun acc xs => (.ok (xs.reverseAux acc) : Except Fault (List α))) acc =
        .ok (xss.flatten.reverse ++ acc) := by
    induction xss generalizing acc with
    | nil => rfl
    | cons xs xss ih =>
      rw [List.foldlM_cons]
      show List.foldlM _ (xs.reverseAux acc) xss = _
      rw [ih, List.reverseAux_eq, List.flatten_cons, List.reverse_append, List.append_assoc]
  rw [between, sweep_forward hreads hp hq h, hfold, flatten_portions hp hq h, List.append_nil]
  show Except.ok (s.segment p q).reverse.reverse = _
  rw [List.reverse_reverse]

end Chunked

end Autodiff
