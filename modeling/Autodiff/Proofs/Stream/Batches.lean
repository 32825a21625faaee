import Autodiff.Proofs.Stream.Range
import Autodiff.Proofs.Stream.Runs

/-!
# Streams recorded in batches

A batch is what one reservation is for: items that are pushed one by one, or zeros that are written
over.  Either way the stream has grown by one run.
-/

namespace Autodiff

/-- The items of one reservation. Of `zeroed` items the first are overwritten with `xs`, and `n` are
left as they are. -/
inductive Batch (α : Type) where
  | pushed (xs : List α)
  | zeroed (xs : List α) (n : Nat)

namespace Batch

variable {α : Type} [Zero α]

def items : Batch α → List α
  | pushed xs => xs
  | zeroed xs n => xs ++ List.replicate n 0

def record (s : Chunked α) : Batch α → Except Fault (Chunked α)
  | pushed xs => xs.foldlM Chunked.push (s.reserve xs.length)
  | zeroed xs n => .ok ((s.pushZeroed (xs.length + n)).fillRun (xs.length + n) xs)

end Batch

namespace Chunked

variable {α : Type}

/-! ## One batch -/

theorem le_room_reserve (s : Chunked α) (n : Nat) : n ≤ (s.reserve n).current.room := by
  unfold reserve
  split
  · show n ≤ max s.chunkSize n - 0
    omega
  · next h => exact Nat.le_of_not_lt h

theorem extend_cons (s : Chunked α) (x : α) (xs : List α) :
    s.extend (x :: xs) = (s.extend [x]).extend xs := by
  simp [extend]

theorem foldlM_push {s : Chunked α} {xs : List α} (h : xs.length ≤ s.current.room) :
    xs.foldlM push s = .ok (s.extend xs) := by
  induction xs generalizing s with
  | nil => simp [extend, pure, Except.pure]
  | cons x xs ih =>
    have hroom : s.current.room ≠ 0 := by
      rw [List.length_cons] at h
      omega
    have hrest : xs.length ≤ (s.extend [x]).current.room := by
      rw [List.length_cons] at h
      simp only [extend, Chunk.room, Array.size_append, List.size_toArray, List.length_singleton]
        at h ⊢
      omega
    have hpush : s.push x = .ok (s.extend [x]) := by
      rw [push, if_neg hroom]
    rw [List.foldlM_cons, hpush, s.extend_cons x xs]
    exact ih hrest

variable [Zero α]

/-- Writing over the first items of a run of zeros. -/
theorem fillRun_pushZeroed (s : Chunked α) (xs : List α) (n : Nat) :
    (s.pushZeroed (xs.length + n)).fillRun (xs.length + n) xs =
      s.pushRun (xs ++ List.replicate n 0) := by
  have hlength : (List.replicate (xs.length + n) (0 : α)).length =
      (xs ++ List.replicate n 0).length := by simp
  have hold (as : Array α) (stop : Nat) : as.extract (as.size + xs.length) stop = #[] :=
    Array.extract_eq_empty_of_le (by omega)
  have hrun : (xs ++ List.replicate n (0 : α)).toArray = xs.toArray ++ Array.replicate n 0 := by
    apply Array.toList_inj.1
    simp
  rw [pushZeroed, pushRun, pushRun, hlength]
  simp [fillRun, extend, Array.extract_append, hold, hrun]

theorem record_eq (s : Chunked α) (b : Batch α) : b.record s = .ok (s.pushRun b.items) := by
  cases b with
  | pushed xs => exact foldlM_push (s.le_room_reserve xs.length)
  | zeroed xs n => exact congrArg Except.ok (s.fillRun_pushZeroed xs n)

/-! ## All batches -/

def recordAll (s : Chunked α) (bs : List (Batch α)) : Except Fault (Chunked α) :=
  bs.foldlM Batch.record s

theorem recordAll_eq (s : Chunked α) (bs : List (Batch α)) :
    s.recordAll bs = .ok ((bs.map Batch.items).foldl pushRun s) := by
  induction bs generalizing s with
  | nil => rfl
  | cons b bs ih =>
    rw [recordAll, List.foldlM_cons, record_eq]
    exact ih (s.pushRun b.items)

variable {s s' : Chunked α} {bs more : List (Batch α)}

theorem continues_recordAll (h : s.recordAll bs = .ok s') : Continues s s' := by
  rw [recordAll_eq] at h
  cases h
  exact continues_foldl_pushRun _ s

theorem toList_recordAll (h : s.recordAll bs = .ok s') :
    s'.toList = s.toList ++ bs.flatMap Batch.items := by
  induction bs generalizing s with
  | nil =>
    cases h
    simp
  | cons b bs ih =>
    rw [recordAll, List.foldlM_cons, record_eq] at h
    rw [ih h, toList_pushRun, List.flatMap_cons, List.append_assoc]

/-- The items between the cuts where some batches began and ended are those of the batches. -/
theorem segment_recordAll {r : Chunked α} (h : s.recordAll bs = .ok s')
    (h' : s'.recordAll more = .ok r) :
    r.segment s.endCut s'.endCut = bs.flatMap Batch.items := by
  have hcontinues := continues_recordAll h
  have hcontinues' := continues_recordAll h'
  rw [segment, (hcontinues.trans hcontinues').rank_endCut, hcontinues'.rank_endCut, length_eq,
    length_eq, toList_recordAll h', toList_recordAll h, List.take_left' rfl, List.drop_left' rfl]

end Chunked

end Autodiff
