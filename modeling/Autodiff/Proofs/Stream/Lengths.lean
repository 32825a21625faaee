import Autodiff.Proofs.Stream.Places
import Mathlib.Algebra.GroupWithZero.Nat

/-!
# Takes of any lengths

Nothing in a stream says where its runs end, so takes of wrong lengths are not refused as such.  A
take that does not fit into the rest of its chunk passes over that rest, whether it was read or not.
What takes read, one after another, is therefore a sublist of the items between the cuts where they
begin and end, and no more than that is known when `finish` finds them at the right place.
-/

namespace Autodiff

namespace Direction

/-- The elements of a list in recording order as they are met in this direction. -/
def order {β : Type} : Direction → List β → List β
  | forward, xs => xs
  | reverse, xs => xs.reverse

/-- Where a walk in this direction over the range from `p` to `q` begins. -/
def start {β : Type} : Direction → β → β → β
  | forward, p, _ => p
  | reverse, _, q => q

/-- Where a walk in this direction over the range from `p` to `q` ends. -/
def stop {β : Type} : Direction → β → β → β
  | forward, _, q => q
  | reverse, p, _ => p

section Order

variable {β : Type} (d : Direction) (xs : List β)

@[simp] theorem order_forward : forward.order xs = xs := rfl

@[simp] theorem order_reverse : reverse.order xs = xs.reverse := rfl

@[simp] theorem order_order : d.order (d.order xs) = xs := by
  cases d <;> simp

theorem order_map {γ : Type} (f : β → γ) : d.order (xs.map f) = (d.order xs).map f := by
  cases d <;> simp

@[simp] theorem mem_order {x : β} : x ∈ d.order xs ↔ x ∈ xs := by
  cases d <;> simp

end Order

end Direction

namespace Chunk

variable {α : Type}

theorem slice_eq_ok_iff {c : Chunk α} {first last : Nat} {xs : List α} :
    c.slice first last = .ok xs ↔
      (first ≤ last ∧ last ≤ c.items.size) ∧ (c.items.extract first last).toList = xs := by
  unfold slice
  split <;> simp [*]

end Chunk

namespace Chunked

variable {α : Type} {s : Chunked α} {p q r : Cut} {n : Nat} {xs : List α}

/-! ## Seeking -/

/-- Seeking room for a run of `n` items forwards leads from `p` to `q`. -/
structure Seeks (s : Chunked α) (n : Nat) (p q : Cut) : Prop where
  contains : s.Contains q
  rank_le : s.rank p ≤ s.rank q
  fits : ∃ c, s.chunk? q.chunk = some c ∧ q.offset + n ≤ c.items.size
  start : q = p ∨ q.offset = 0
  /-- A single item is never passed over. -/
  single : n ≤ 1 → s.rank q = s.rank p

theorem seeks_here {c : Chunk α} (hc : s.chunk? p.chunk = some c)
    (hfit : p.offset + n ≤ c.items.size) : s.Seeks n p p where
  contains := contains_iff.2 ⟨c, hc, by omega⟩
  rank_le := Nat.le_refl _
  fits := ⟨c, hc, hfit⟩
  start := Or.inl rfl
  single _ := rfl

theorem Seeks.of_next {c : Chunk α} (h : s.Seeks n ⟨p.chunk + 1, 0⟩ q)
    (hc : s.chunk? p.chunk = some c) (hp : p.offset ≤ c.items.size)
    (hshort : c.items.size < p.offset + n) : s.Seeks n p q where
  contains := h.contains
  rank_le := by
    have hle := h.rank_le
    rw [rank_succ hc] at hle
    simp only [rank] at hle ⊢
    omega
  fits := h.fits
  start := Or.inr (h.start.elim (fun heq => by rw [heq]) id)
  single hn := by
    -- What is too short for one item was read up to its end.
    have hend : p = ⟨p.chunk, c.items.size⟩ := congrArg (Cut.mk p.chunk) (by omega)
    rw [h.single hn, rank_succ hc, ← hend]

theorem seeks_of_seekForward {fuel : Nat} (hp : s.Contains p)
    (h : s.seekForward n fuel p = .ok q) : s.Seeks n p q := by
  -- The fuel counts the chunks that are left, and a chunk is left for the start of the next one.
  induction fuel generalizing p with
  | zero => cases h
  | succ fuel ih =>
    obtain ⟨c, hc, hoffset⟩ := contains_iff.1 hp
    by_cases hfit : p.offset + n ≤ c.items.size
    · rw [seekForward_here hc hfit] at h
      cases h
      exact seeks_here hc hfit
    · have hshort : c.items.size < p.offset + n := by omega
      by_cases hnext : p.chunk + 1 < s.chunkCount
      · rw [seekForward_next hc hshort hnext] at h
        exact (ih (contains_start hnext) h).of_next hc hoffset hshort
      · simp only [seekForward, chunk_eq_ok_iff.2 hc, bind, Except.bind, if_neg hfit,
          if_neg hnext] at h
        cases h

/-- What holds of a cut, and of the end of a chunk when it holds of a cut in the next one, holds
where seeking backwards ends. -/
theorem seekReverse_preserves {P : Cut → Prop} {i offset : Nat}
    (hstep : ∀ k a c, P ⟨k + 1, a⟩ → s.chunk? k = some c → P ⟨k, c.items.size⟩)
    (hp : P ⟨i, offset⟩) (h : s.seekReverse n i offset = .ok q) : P q ∧ n ≤ q.offset := by
  induction i generalizing offset with
  | zero =>
    rw [seekReverse] at h
    split at h
    · next hle =>
      cases h
      exact ⟨hp, hle⟩
    · cases h
  | succ i ih =>
    rw [seekReverse] at h
    split at h
    · next hle =>
      cases h
      exact ⟨hp, hle⟩
    · obtain ⟨c, hc, h⟩ := Fault.bind_eq_ok_iff.1 h
      exact ih (hstep i offset c hp (chunk_eq_ok_iff.1 hc)) h

theorem le_offset_of_seekReverse {i offset : Nat} (h : s.seekReverse n i offset = .ok q) :
    n ≤ q.offset :=
  (seekReverse_preserves (P := fun _ => True) (fun _ _ _ _ _ => trivial) trivial h).2

theorem rank_le_of_seekReverse (hp : s.Contains p)
    (h : s.seekReverse n p.chunk p.offset = .ok q) : s.Contains q ∧ s.rank q ≤ s.rank p := by
  refine (seekReverse_preserves (P := fun q => s.Contains q ∧ s.rank q ≤ s.rank p)
    (fun k a c hk hc => ?_) ⟨hp, Nat.le_refl _⟩ h).1
  have hle : s.rank ⟨k, c.items.size⟩ ≤ s.rank ⟨k + 1, a⟩ := by
    rw [← rank_succ hc]
    simp only [rank]
    omega
  exact ⟨contains_iff.2 ⟨c, hc, Nat.le_refl _⟩, Nat.le_trans hle hk.2⟩

/-! ## One take -/

theorem take_forward_eq_ok (hn : n ≠ 0) (h : s.take .forward p n = .ok (xs, q)) :
    ∃ p' c, s.seekForward n (s.chunkCount - p.chunk) p = .ok p' ∧ s.chunk? p'.chunk = some c ∧
      p'.offset + n ≤ c.items.size ∧ xs = (c.items.extract p'.offset (p'.offset + n)).toList ∧
      q = ⟨p'.chunk, p'.offset + n⟩ := by
  simp only [take, if_neg hn, Fault.bind_eq_ok_iff] at h
  obtain ⟨p', hstart, c, hc, ys, hys, h⟩ := h
  cases h
  have hseek : s.seekForward n (s.chunkCount - p.chunk) p = .ok p' := by
    simp only [forwardStart] at hstart
    split at hstart
    · exact hstart
    · cases hstart
  obtain ⟨⟨-, hfit⟩, hitems⟩ := Chunk.slice_eq_ok_iff.1 hys
  exact ⟨p', c, hseek, chunk_eq_ok_iff.1 hc, hfit, hitems.symm, rfl⟩

theorem take_reverse_eq_ok (hn : n ≠ 0) (h : s.take .reverse p n = .ok (xs, q)) :
    ∃ p' c, s.seekReverse n p.chunk p.offset = .ok p' ∧ s.chunk? p'.chunk = some c ∧
      p'.offset ≤ c.items.size ∧ xs = (c.items.extract (p'.offset - n) p'.offset).toList ∧
      q = ⟨p'.chunk, p'.offset - n⟩ := by
  simp only [take, if_neg hn, Fault.bind_eq_ok_iff] at h
  obtain ⟨p', hseek, c, hc, ys, hys, h⟩ := h
  cases h
  obtain ⟨⟨-, hfit⟩, hitems⟩ := Chunk.slice_eq_ok_iff.1 hys
  exact ⟨p', c, hseek, chunk_eq_ok_iff.1 hc, hfit, hitems.symm, rfl⟩

theorem length_take {d : Direction} (h : s.take d p n = .ok (xs, q)) : xs.length = n := by
  by_cases hn : n = 0
  · subst hn
    cases h
    rfl
  · cases d with
    | forward =>
      obtain ⟨p', c, -, -, hfit, rfl, -⟩ := take_forward_eq_ok hn h
      simp only [Array.length_toList, Array.size_extract]
      omega
    | reverse =>
      obtain ⟨p', c, hseek, -, hfit, rfl, -⟩ := take_reverse_eq_ok hn h
      have hle := le_offset_of_seekReverse hseek
      simp only [Array.length_toList, Array.size_extract]
      omega

theorem segment_self (s : Chunked α) (p : Cut) : s.segment p p = [] := by
  rw [segment, List.drop_eq_nil_iff, List.length_take]
  exact Nat.min_le_left _ _

/-- A take forwards passes over the items from `p` to `p'` and reads those from `p'` to `q`. -/
theorem exists_seeks_of_take (hp : s.Contains p) (h : s.take .forward p n = .ok (xs, q)) :
    ∃ p', s.Seeks n p p' ∧ s.Contains q ∧ s.rank q = s.rank p' + n ∧ xs = s.segment p' q := by
  by_cases hn : n = 0
  · subst hn
    cases h
    obtain ⟨c, hc, hoffset⟩ := contains_iff.1 hp
    exact ⟨p, seeks_here hc hoffset, hp, rfl, (s.segment_self p).symm⟩
  · obtain ⟨p', c, hseek, hc, hfit, rfl, rfl⟩ := take_forward_eq_ok hn h
    exact ⟨p', seeks_of_seekForward hp hseek, contains_iff.2 ⟨c, hc, hfit⟩, s.rank_add _ _ _,
      (segment_same hc hfit).symm⟩

/-- A take backwards passes over the items from `p'` to `p` and reads those from `q` to `p'`. -/
theorem exists_rank_le_of_take (hp : s.Contains p) (h : s.take .reverse p n = .ok (xs, q)) :
    ∃ p', s.Contains p' ∧ s.rank p' ≤ s.rank p ∧ s.Contains q ∧ s.rank p' = s.rank q + n ∧
      xs = s.segment q p' := by
  by_cases hn : n = 0
  · subst hn
    cases h
    exact ⟨p, hp, Nat.le_refl _, hp, rfl, (s.segment_self p).symm⟩
  · obtain ⟨p', c, hseek, hc, hfit, rfl, rfl⟩ := take_reverse_eq_ok hn h
    obtain ⟨hp', hle⟩ := rank_le_of_seekReverse hp hseek
    have hsum : p'.offset - n + n = p'.offset := Nat.sub_add_cancel (le_offset_of_seekReverse hseek)
    refine ⟨p', hp', hle, contains_iff.2 ⟨c, hc, by simp only; omega⟩, ?_,
      (segment_same hc hfit).symm⟩
    rw [← rank_add, hsum]

/-! ## All takes -/

/-- Take runs of the given lengths one after another, and say where that leads. -/
def takeAll (s : Chunked α) (d : Direction) : List Nat → Cut → Except Fault (List (List α) × Cut)
  | [], p => .ok ([], p)
  | n :: ns, p => do
    let (xs, p) ← s.take d p n
    let (xss, p) ← takeAll s d ns p
    return (xs :: xss, p)

theorem takeAll_cons_eq_ok_iff {d : Direction} {ns : List Nat} {xss : List (List α)} :
    s.takeAll d (n :: ns) p = .ok (xss, r) ↔
      ∃ xs q xss', s.take d p n = .ok (xs, q) ∧ s.takeAll d ns q = .ok (xss', r) ∧
        xss = xs :: xss' := by
  rw [takeAll, Fault.bind_eq_ok_iff]
  constructor
  · rintro ⟨⟨xs, q⟩, htake, h⟩
    obtain ⟨⟨xss', r'⟩, hrest, h⟩ := Fault.bind_eq_ok_iff.1 h
    cases h
    exact ⟨xs, q, xss', htake, hrest, rfl⟩
  · rintro ⟨xs, q, xss', htake, hrest, rfl⟩
    refine ⟨(xs, q), htake, ?_⟩
    simp only [hrest, bind, Except.bind]
    rfl

theorem map_length_takeAll {d : Direction} {ns : List Nat} {xss : List (List α)}
    (h : s.takeAll d ns p = .ok (xss, q)) : xss.map List.length = ns := by
  induction ns generalizing p xss with
  | nil =>
    cases h
    rfl
  | cons n ns ih =>
    obtain ⟨xs, p', xss', htake, hrest, rfl⟩ := takeAll_cons_eq_ok_iff.1 h
    rw [List.map_cons, length_take htake, ih hrest]

theorem length_flatten_takeAll {d : Direction} {ns : List Nat} {xss : List (List α)}
    (h : s.takeAll d ns p = .ok (xss, q)) : xss.flatten.length = ns.sum := by
  rw [List.length_flatten, map_length_takeAll h]

theorem sublist_segment_append (hq : s.Contains q) (hpq : s.rank p ≤ s.rank q)
    (hqr : s.rank q ≤ s.rank r) {xs ys : List α} (hxs : xs.Sublist (s.segment p q))
    (hys : ys.Sublist (s.segment q r)) : (xs ++ ys).Sublist (s.segment p r) := by
  rw [segment_append hq hpq hqr]
  exact hxs.append hys

theorem takeAll_forward_sublist {ns : List Nat} {xss : List (List α)} (hp : s.Contains p)
    (h : s.takeAll .forward ns p = .ok (xss, r)) :
    s.Contains r ∧ s.rank p ≤ s.rank r ∧ xss.flatten.Sublist (s.segment p r) := by
  induction ns generalizing p xss with
  | nil =>
    cases h
    exact ⟨hp, Nat.le_refl _, List.nil_sublist _⟩
  | cons n ns ih =>
    obtain ⟨xs, q, xss', htake, hrest, rfl⟩ := takeAll_cons_eq_ok_iff.1 h
    obtain ⟨p', hseeks, hq, hrank, rfl⟩ := exists_seeks_of_take hp htake
    obtain ⟨hr, hle, hsublist⟩ := ih hq hrest
    have hpp' := hseeks.rank_le
    have hp'q : s.rank p' ≤ s.rank q := by omega
    -- The items that the first take passed over come before those that it read.
    have hhead : (s.segment p' q).Sublist (s.segment p q) := by
      rw [segment_append hseeks.contains hpp' hp'q]
      exact List.sublist_append_right _ _
    exact ⟨hr, by omega, sublist_segment_append hq (by omega) hle hhead hsublist⟩

theorem takeAll_reverse_sublist {ns : List Nat} {xss : List (List α)} (hp : s.Contains p)
    (h : s.takeAll .reverse ns p = .ok (xss, r)) :
    s.Contains r ∧ s.rank r ≤ s.rank p ∧ xss.reverse.flatten.Sublist (s.segment r p) := by
  induction ns generalizing p xss with
  | nil =>
    cases h
    exact ⟨hp, Nat.le_refl _, List.nil_sublist _⟩
  | cons n ns ih =>
    obtain ⟨xs, q, xss', htake, hrest, rfl⟩ := takeAll_cons_eq_ok_iff.1 h
    obtain ⟨p', hp', hp'p, hq, hrank, rfl⟩ := exists_rank_le_of_take hp htake
    obtain ⟨hr, hle, hsublist⟩ := ih hq hrest
    have hqp' : s.rank q ≤ s.rank p' := by omega
    have hlast : (s.segment q p').Sublist (s.segment q p) := by
      rw [segment_append hp' hqp' hp'p]
      exact List.sublist_append_left _ _
    refine ⟨hr, by omega, ?_⟩
    rw [List.reverse_cons, List.flatten_append, List.flatten_singleton]
    exact sublist_segment_append hq hle (by omega) hsublist hlast

theorem finish_eq_ok_iff_rank (hp : s.Contains p) (hq : s.Contains q) (name : String) :
    s.finish p q name = .ok () ↔ s.rank p = s.rank q := by
  rw [finish_eq_ok_iff (Or.inl (lt_chunkCount_of_contains hp))
    (Or.inl (lt_chunkCount_of_contains hq)), sameCut_iff_rank_eq hp hq]

/-- Takes that end where they should have read a sublist of the items of the range. -/
theorem sublist_of_finish {d : Direction} {ns : List Nat} {xss : List (List α)} {name : String}
    (hp : s.Contains p) (hq : s.Contains q)
    (h : s.takeAll d ns (d.start p q) = .ok (xss, r))
    (hfinish : s.finish r (d.stop p q) name = .ok ()) :
    (d.order xss).flatten.Sublist (s.segment p q) := by
  cases d with
  | forward =>
    obtain ⟨hr, -, hsublist⟩ := takeAll_forward_sublist hp h
    have hrank := (finish_eq_ok_iff_rank hr hq name).1 hfinish
    unfold segment at hsublist ⊢
    rwa [hrank] at hsublist
  | reverse =>
    obtain ⟨hr, -, hsublist⟩ := takeAll_reverse_sublist hq h
    have hrank := (finish_eq_ok_iff_rank hr hp name).1 hfinish
    unfold segment at hsublist ⊢
    rwa [hrank] at hsublist

end Chunked

end Autodiff
