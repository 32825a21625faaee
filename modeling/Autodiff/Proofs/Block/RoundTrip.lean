import Autodiff.Proofs.Block.Access
import Autodiff.Proofs.Stream.Batches
import Mathlib.Algebra.GroupWithZero.Nat
import Mathlib.Data.UInt

/-!
# Byte views read back

Fields are written to a view one behind the other, without a gap and without a tag.  What a view
holds is therefore the encodings of its fields in a row, and a reader that is told their shapes
finds the fields again.  In the stream a write goes over zeros that were put there when the view was
opened, and no byte but its own changes.
-/

namespace Autodiff

/-! ## Widths -/

namespace Field

/-- How many bytes some fields take together. -/
def totalWidth (fs : List Field) : Nat := (fs.map fun f => f.shape.width).sum

variable {fs : List Field}

@[simp] theorem totalWidth_nil : totalWidth [] = 0 := rfl

@[simp] theorem totalWidth_cons (f : Field) (fs : List Field) :
    totalWidth (f :: fs) = f.shape.width + totalWidth fs :=
  List.sum_cons

theorem totalWidth_append (fs gs : List Field) :
    totalWidth (fs ++ gs) = totalWidth fs + totalWidth gs := by
  rw [totalWidth, List.map_append, List.sum_append, totalWidth, totalWidth]

theorem totalWidth_le {past : List Field} (h : past <+: fs) :
    totalWidth past ≤ totalWidth fs := by
  obtain ⟨rest, rfl⟩ := h
  rw [totalWidth_append]
  exact Nat.le_add_right _ _

@[simp] theorem length_flatMap_encode (fs : List Field) :
    (fs.flatMap encode).length = totalWidth fs := by
  rw [List.length_flatMap, totalWidth]
  simp only [length_encode]

theorem foldl_max_identifiers (f : Field) (n : Nat) :
    f.identifiers.foldl max n = max n f.mentions := by
  cases f with
  | identifier x => rfl
  | uint8 | uint16 | uint32 | uint64 | int8 | int16 | int32 | int64 | float32 | float64 | raw =>
    exact (Nat.max_eq_left (Nat.zero_le n)).symm

end Field

/-! ## Writing -/

namespace Writer

variable {w w' : Writer} {f : Field} {fs : List Field}

/-- The view behind which some more fields stand. -/
def filled (w : Writer) (fs : List Field) : Writer :=
  { w with
    bytes := w.bytes ++ fs.flatMap Field.encode
    largest := (fs.flatMap Field.identifiers).foldl max w.largest }

theorem filled_nil (w : Writer) : w.filled [] = w := by
  simp [filled]

theorem toList_filled (w : Writer) (fs : List Field) :
    (w.filled fs).bytes.toList = w.bytes.toList ++ fs.flatMap Field.encode := by
  simp [filled]

theorem filled_cons (w : Writer) (f : Field) (fs : List Field) :
    w.filled (f :: fs) = (w.filled [f]).filled fs := by
  have hbytes : (w.filled (f :: fs)).bytes = ((w.filled [f]).filled fs).bytes := by
    apply Array.toList_inj.1
    rw [toList_filled, toList_filled, toList_filled, List.flatMap_singleton, List.flatMap_cons,
      List.append_assoc]
  have hlargest : (w.filled (f :: fs)).largest = ((w.filled [f]).filled fs).largest := by
    show ((f :: fs).flatMap _).foldl max _ = (fs.flatMap _).foldl max (([f].flatMap _).foldl max _)
    rw [List.flatMap_singleton, List.flatMap_cons, List.foldl_append]
  exact congrArg₂ (Writer.mk w.capacity) hbytes hlargest

theorem written_filled (w : Writer) (fs : List Field) :
    (w.filled fs).written = w.written + Field.totalWidth fs := by
  rw [written, ← Array.length_toList, toList_filled, List.length_append, Array.length_toList,
    Field.length_flatMap_encode, written]

theorem put_eq_ok_iff (hw : w.written ≤ w.capacity) :
    w.put f = .ok w' ↔ w.written + f.shape.width ≤ w.capacity ∧ w' = w.filled [f] := by
  have hfilled : w.filled [f] =
      { w with bytes := w.bytes ++ f.encode, largest := max w.largest f.mentions } := by
    simp [filled, Field.foldl_max_identifiers]
  have hroom : f.shape.width ≤ w.remaining ↔ w.written + f.shape.width ≤ w.capacity := by
    unfold remaining
    omega
  rw [put, hfilled, ← hroom]
  split
  · next h =>
    constructor
    · intro hput
      cases hput
      exact ⟨h, rfl⟩
    · rintro ⟨-, rfl⟩
      rfl
  · next h => exact ⟨nofun, fun hput => absurd hput.1 h⟩

/-- Some fields can be written exactly if there is room for all of them. -/
theorem putAll_eq_ok_iff (hw : w.written ≤ w.capacity) :
    w.putAll fs = .ok w' ↔
      w.written + Field.totalWidth fs ≤ w.capacity ∧ w' = w.filled fs := by
  induction fs generalizing w with
  | nil =>
    rw [filled_nil]
    constructor
    · intro h
      cases h
      exact ⟨hw, rfl⟩
    · rintro ⟨-, rfl⟩
      rfl
  -- Behind the first field the view is filled no further than it reaches, as it was before.
  | cons f fs ih =>
    have hwritten : (w.filled [f]).written = w.written + f.shape.width := w.written_filled [f]
    rw [putAll, List.foldlM_cons, Fault.bind_eq_ok_iff, Field.totalWidth_cons, filled_cons]
    constructor
    · rintro ⟨w₁, hput, hrest⟩
      obtain ⟨hle, rfl⟩ := (put_eq_ok_iff hw).1 hput
      obtain ⟨hall, rfl⟩ := (ih (hwritten ▸ hle)).1 hrest
      rw [hwritten, Nat.add_assoc] at hall
      exact ⟨hall, rfl⟩
    · rintro ⟨hall, rfl⟩
      have hle : w.written + f.shape.width ≤ w.capacity := by omega
      refine ⟨w.filled [f], (put_eq_ok_iff hw).2 ⟨hle, rfl⟩, (ih (hwritten ▸ hle)).2 ⟨?_, rfl⟩⟩
      rw [hwritten, Nat.add_assoc]
      exact hall

/-- On a view of `n` bytes that is still empty. -/
theorem putAll_empty_eq_ok_iff {n : Nat} :
    putAll { capacity := n } fs = .ok w ↔
      Field.totalWidth fs ≤ n ∧ w = filled { capacity := n } fs := by
  have hempty : written { capacity := n } ≤ n := Nat.zero_le n
  rw [putAll_eq_ok_iff hempty, show written { capacity := n } = 0 from rfl, Nat.zero_add]

/-! ## The run of a view -/

/-- The stream that a view was opened on. What is not written yet is zero. -/
def onto (w : Writer) (s : Chunked UInt8) : Chunked UInt8 :=
  (s.pushZeroed w.capacity).fillRun w.capacity w.bytes.toList

theorem toList_onto (hw : w.written ≤ w.capacity) (s : Chunked UInt8) :
    (w.onto s).toList = s.toList ++ w.bytes.toList ++ List.replicate w.remaining 0 := by
  have hcapacity : w.capacity = w.bytes.toList.length + w.remaining :=
    (Nat.add_sub_cancel' hw).symm
  rw [onto, hcapacity, Chunked.fillRun_pushZeroed, Chunked.toList_pushRun, List.append_assoc]

theorem toList_onto_of_full {n : Nat} (hw : ∃ fs, putAll { capacity := n } fs = .ok w)
    (hfull : w.remaining = 0) (s : Chunked UInt8) :
    (w.onto s).toList = s.toList ++ w.bytes.toList := by
  have hwritten : w.written = n := size_of_full hw hfull
  have hcapacity := capacity_putAll hw
  rw [toList_onto (by omega), hfull]
  exact List.append_nil _

/-- A write puts its bytes behind those that were written, and leaves all others as they are. -/
theorem toList_onto_filled (hw : w.written + f.shape.width ≤ w.capacity) (s : Chunked UInt8) :
    ((w.filled [f]).onto s).toList =
      (w.onto s).toList.take (s.toList.length + w.written) ++ f.encode ++
        (w.onto s).toList.drop (s.toList.length + w.written + f.shape.width) := by
  have hwritten : (w.filled [f]).written = w.written + f.shape.width := w.written_filled [f]
  have hremaining : (w.filled [f]).remaining = w.remaining - f.shape.width := by
    show w.capacity - (w.filled [f]).written = w.capacity - w.written - f.shape.width
    omega
  have hbytes : (w.filled [f]).bytes.toList = w.bytes.toList ++ f.encode := by
    rw [toList_filled, List.flatMap_singleton]
  have hstart : s.toList.length + w.written = (s.toList ++ w.bytes.toList).length :=
    List.length_append.symm
  rw [toList_onto (hwritten ▸ hw), toList_onto (by omega), hremaining, hbytes, hstart,
    List.take_left, ← List.drop_drop, List.drop_left, List.drop_replicate, ← List.append_assoc]

end Writer

/-! ## Reading -/

namespace Reader

/-- Read fields of these shapes, one after the other. -/
def getAll : List Shape → Reader → Except Fault (List Field × Reader)
  | [], r => .ok ([], r)
  | shape :: shapes, r => do
    let (f, r) ← r.get shape
    let (fs, r) ← getAll shapes r
    return (f :: fs, r)

/-- What was not read yet. -/
def rest (r : Reader) : List UInt8 := r.bytes.toList.drop r.consumed

theorem length_rest (r : Reader) : r.rest.length = r.remaining := by
  rw [rest, List.length_drop, Array.length_toList, remaining]

theorem take_eq {r : Reader} {n : Nat} (h : n ≤ r.remaining) :
    r.take n = .ok (r.rest.take n, { r with consumed := r.consumed + n }) := by
  have hbytes : (r.bytes.extract r.consumed (r.consumed + n)).toList = r.rest.take n := by
    rw [Array.toList_extract, List.extract_eq_take_drop, Nat.add_sub_cancel_left, rest]
  rw [take, if_pos h, hbytes]

theorem take_of_rest {r : Reader} {bytes after : List UInt8} (h : r.rest = bytes ++ after) :
    ∃ r', r.take bytes.length = .ok (bytes, r') ∧ r'.rest = after ∧ r'.bytes = r.bytes := by
  have hroom : bytes.length ≤ r.remaining := by
    rw [← length_rest, h, List.length_append]
    exact Nat.le_add_right _ _
  refine ⟨{ r with consumed := r.consumed + bytes.length }, ?_, ?_, rfl⟩
  · rw [take_eq hroom, h, List.take_left]
  · show r.bytes.toList.drop (r.consumed + bytes.length) = after
    rw [← List.drop_drop]
    exact (congrArg (List.drop bytes.length) h).trans List.drop_left

theorem get_of_rest {r : Reader} {f : Field} {after : List UInt8}
    (h : r.rest = f.encode ++ after) :
    ∃ r', r.get f.shape = .ok (f, r') ∧ r'.rest = after ∧ r'.bytes = r.bytes := by
  obtain ⟨r', htake, hrest, hbytes⟩ := take_of_rest h
  refine ⟨r', ?_, hrest, hbytes⟩
  rw [Field.length_encode] at htake
  rw [get, htake]
  exact congrArg (fun g => Except.ok (g, r')) f.decode_encode

theorem getAll_of_rest {r : Reader} {fs : List Field} {after : List UInt8}
    (h : r.rest = fs.flatMap Field.encode ++ after) :
    ∃ r', r.getAll (fs.map Field.shape) = .ok (fs, r') ∧ r'.rest = after ∧
      r'.bytes = r.bytes := by
  induction fs generalizing r with
  | nil => exact ⟨r, rfl, h, rfl⟩
  | cons f fs ih =>
    rw [List.flatMap_cons, List.append_assoc] at h
    obtain ⟨r₁, hget, hrest₁, hbytes₁⟩ := get_of_rest h
    obtain ⟨r₂, hall, hrest₂, hbytes₂⟩ := ih hrest₁
    refine ⟨r₂, ?_, hrest₂, hbytes₂.trans hbytes₁⟩
    rw [List.map_cons, getAll, hget]
    show (getAll (fs.map Field.shape) r₁ >>= fun p => Except.ok (f :: p.1, p.2)) = _
    rw [hall]
    rfl

theorem get_of_remaining_eq_zero {r : Reader} {shape : Shape} (hr : r.remaining = 0)
    (hshape : 0 < shape.width) :
    r.get shape = .error (.readUnderflow shape.width 0 r.bytes.size) := by
  have hroom : ¬shape.width ≤ r.remaining := by omega
  rw [get, take, if_neg hroom, hr]
  rfl

end Reader

/-! ## Writing and reading back -/

theorem foldl_max_eq_getD (ids : List Nat) : ids.foldl max passive = ids.max?.getD passive := by
  cases ids with
  | nil => rfl
  | cons i ids =>
    rw [List.foldl_cons, List.max?_cons', Option.getD_some]
    exact congrArg (ids.foldl max) (Nat.zero_max i)

/-- On a view of `n` bytes a sequence of writes succeeds exactly if each running total of the widths
is at most `n`.  The largest identifier is then that of the fields that are identifiers.  If all `n`
bytes are written, they are what the stream has gained, and reading by the shapes of the fields
gives back the fields and leaves nothing; a further read of anything that is not empty is refused.
No write changes other bytes of the stream than the next ones of its view. -/
theorem byte_view_reads_back_fields (n : Nat) (fs : List Field) :
    ((∃ w, Writer.putAll { capacity := n } fs = .ok w) ↔
      ∀ past, past <+: fs → Field.totalWidth past ≤ n) ∧
    ∀ w, Writer.putAll { capacity := n } fs = .ok w →
      w.largest = (fs.flatMap Field.identifiers).max?.getD passive ∧
      (w.remaining = 0 →
        (∀ s, (w.onto s).toList = s.toList ++ w.bytes.toList) ∧
        ∃ r, (Reader.ofList w.bytes.toList).getAll (fs.map Field.shape) = .ok (fs, r) ∧
          r.remaining = 0 ∧
          ∀ shape, 0 < shape.width → r.get shape = .error (.readUnderflow shape.width 0 n)) ∧
      ∀ past f, past ++ [f] <+: fs → ∃ before after,
        Writer.putAll { capacity := n } past = .ok before ∧ before.put f = .ok after ∧
        ∀ s, (after.onto s).toList =
          (before.onto s).toList.take (s.toList.length + Field.totalWidth past) ++ f.encode ++
          (before.onto s).toList.drop
            (s.toList.length + Field.totalWidth past + f.shape.width) := by
  refine ⟨⟨?_, fun hfits => ?_⟩, fun w hw => ?_⟩
  · rintro ⟨w, hw⟩ past hpast
    exact (Field.totalWidth_le hpast).trans (Writer.putAll_empty_eq_ok_iff.1 hw).1
  · exact ⟨_, Writer.putAll_empty_eq_ok_iff.2 ⟨hfits fs (List.prefix_refl fs), rfl⟩⟩
  obtain ⟨hall, hfilled⟩ := Writer.putAll_empty_eq_ok_iff.1 hw
  have hbytes : w.bytes.toList = fs.flatMap Field.encode :=
    hfilled ▸ Writer.toList_filled { capacity := n } fs
  refine ⟨?_, fun hfull => ⟨Writer.toList_onto_of_full ⟨fs, hw⟩ hfull, ?_⟩, fun past f hpast => ?_⟩
  · rw [hfilled]
    exact foldl_max_eq_getD _
  · have hrest : (Reader.ofList w.bytes.toList).rest = fs.flatMap Field.encode ++ [] :=
      hbytes.trans (List.append_nil _).symm
    obtain ⟨r, hread, hnothing, hsame⟩ := Reader.getAll_of_rest hrest
    have hremaining : r.remaining = 0 := by
      rw [← r.length_rest, hnothing]
      rfl
    have hsize : r.bytes.size = n := by
      rw [hsame]
      exact Writer.size_of_full ⟨fs, hw⟩ hfull
    refine ⟨r, hread, hremaining, fun shape hshape => ?_⟩
    rw [Reader.get_of_remaining_eq_zero hremaining hshape, hsize]
  -- The writes before this one are a sequence of their own that has succeeded.
  · have hfits : Field.totalWidth (past ++ [f]) ≤ n :=
      (Field.totalWidth_le hpast).trans hall
    rw [Field.totalWidth_append, Field.totalWidth_cons, Field.totalWidth_nil] at hfits
    have hwritten : (Writer.filled { capacity := n } past).written = Field.totalWidth past :=
      (Writer.written_filled _ past).trans (Nat.zero_add _)
    have hpastFits := Nat.le_of_add_right_le hfits
    rw [← hwritten] at hfits ⊢
    exact ⟨_, _, Writer.putAll_empty_eq_ok_iff.2 ⟨hpastFits, rfl⟩,
      (Writer.put_eq_ok_iff (Nat.le_of_add_right_le hfits)).2 ⟨hfits, rfl⟩,
      Writer.toList_onto_filled hfits⟩

/-- A number that is no identifier, a negative one and raw bytes between two identifiers. -/
theorem byte_view_reads_back_fields_of_mixed :
    ∃ w r, Writer.putAll { capacity := 17 } [.identifier 9, .uint32 40, .int16 (-2), .raw [1, 2, 3],
        .identifier 3] = .ok w ∧ w.remaining = 0 ∧ w.largest = 9 ∧
      (Reader.ofList w.bytes.toList).getAll [.identifier, .uint32, .int16, .raw 3, .identifier] =
        .ok ([.identifier 9, .uint32 40, .int16 (-2), .raw [1, 2, 3], .identifier 3], r) ∧
      r.get .uint8 = .error (.readUnderflow 1 0 17) := by
  obtain ⟨hfits, hall⟩ := byte_view_reads_back_fields 17 [.identifier 9, .uint32 40, .int16 (-2),
    .raw [1, 2, 3], .identifier 3]
  obtain ⟨w, hw⟩ := hfits.2 fun past hpast =>
    (Field.totalWidth_le hpast).trans (by decide)
  obtain ⟨hlargest, hread, -⟩ := hall w hw
  have hfull : w.remaining = 0 := by
    obtain ⟨-, rfl⟩ := Writer.putAll_empty_eq_ok_iff.1 hw
    rfl
  obtain ⟨-, r, hget, -, hend⟩ := hread hfull
  exact ⟨w, r, hw, hfull, hlargest, hget, hend .uint8 (by decide)⟩

end Autodiff
