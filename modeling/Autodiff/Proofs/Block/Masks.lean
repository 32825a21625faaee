import Autodiff.Block.Mask
import Autodiff.Proofs.Block.RoundTrip

/-!
# Masks that are set bit by bit

A mask that is made for some arguments, and in which only these are ever set, has no bit beyond
them.  Its count is then a count of arguments, and its bits fit into the bytes that its width
allows, so nothing is lost when they are stored.
-/

namespace Autodiff

/-- What a reader finds at the place where a field was written. -/
theorem Writer.rest_filled (w : Writer) (f : Field) (gs : List Field) :
    Reader.rest ⟨((w.filled [f]).filled gs).bytes, w.written⟩ =
      f.encode ++ gs.flatMap Field.encode := by
  show ((w.filled [f]).filled gs).bytes.toList.drop w.bytes.size = _
  rw [toList_filled, toList_filled, List.flatMap_singleton, List.append_assoc,
    ← Array.length_toList, List.drop_left]

namespace Mask

variable {m m' : Mask} {i : Nat} {b : Bool} {changes : List (Nat × Bool)}

/-- No bit beyond the arguments is set. -/
def Tidy (m : Mask) : Prop := ∀ i, m.arguments ≤ i → m.bits.getLsbD i = false

/-! ## One argument -/

theorem create_eq_ok_iff {n : Nat} : create n = .ok m ↔ n ≤ maskBits ∧ m = ⟨0, n⟩ := by
  unfold create
  split
  · next h => exact ⟨nofun, fun hm => absurd hm.1 (Nat.not_le_of_lt h)⟩
  · next h =>
    constructor
    · intro hm
      cases hm
      exact ⟨Nat.le_of_not_lt h, rfl⟩
    · rintro ⟨-, rfl⟩
      rfl

theorem get_of_arguments_le (hi : m.arguments ≤ i) : m.get i = false := by
  rw [get, decide_eq_false (Nat.not_lt_of_le hi), Bool.false_and]

theorem lt_arguments_of_get (h : m.get i = true) : i < m.arguments := by
  by_contra hi
  rw [get_of_arguments_le (Nat.le_of_not_lt hi)] at h
  exact Bool.false_ne_true h

theorem get_blank (n i : Nat) : get ⟨0, n⟩ i = false := by
  simp [get]

theorem tidy_blank (n : Nat) : Tidy ⟨0, n⟩ :=
  fun _ _ => BitVec.getLsbD_zero

theorem exists_set_iff : (∃ m', m.set i b = .ok m') ↔ i < m.arguments := by
  unfold set
  split
  · next h => exact ⟨nofun, fun hi => absurd hi (Nat.not_lt_of_le h)⟩
  · next h => exact ⟨fun _ => Nat.lt_of_not_le h, fun _ => ⟨_, rfl⟩⟩

theorem arguments_set (h : m.set i b = .ok m') : m'.arguments = m.arguments := by
  unfold set at h
  split at h
  · cases h
  · cases h
    rfl

/-- Bits beyond the arguments are out of reach. -/
theorem getLsbD_set (h : m.set i b = .ok m') {k : Nat} (hk : m.arguments ≤ k) :
    m'.bits.getLsbD k = m.bits.getLsbD k := by
  have hi : i < m.arguments := exists_set_iff.1 ⟨m', h⟩
  have hne : i ≠ k := by omega
  have hbit : (1#64 <<< i).getLsbD k = false := by
    rw [← BitVec.twoPow_eq, BitVec.getLsbD_twoPow]
    simp [hne]
  unfold set at h
  rw [if_neg (Nat.not_le_of_lt hi)] at h
  cases h
  cases b with
  | true =>
    show (m.bits ||| 1#64 <<< i).getLsbD k = m.bits.getLsbD k
    rw [BitVec.getLsbD_or, hbit, Bool.or_false]
  | false =>
    show (m.bits &&& ~~~(1#64 <<< i)).getLsbD k = m.bits.getLsbD k
    rw [BitVec.getLsbD_and, BitVec.getLsbD_not, hbit, Bool.not_false, Bool.and_true]
    by_cases hwidth : k < 64
    · rw [decide_eq_true hwidth, Bool.and_true]
    · rw [BitVec.getLsbD_of_ge _ _ (Nat.le_of_not_lt hwidth), Bool.false_and]

/-! ## All arguments -/

/-- Set arguments one after the other. -/
def setAll (m : Mask) (changes : List (Nat × Bool)) : Except Fault Mask :=
  changes.foldlM (fun m c => m.set c.1 c.2) m

/-- What an argument was last set to. -/
def latest (changes : List (Nat × Bool)) (i : Nat) : Option Bool :=
  (changes.reverse.find? fun c => c.1 == i).map Prod.snd

theorem latest_append (past changes : List (Nat × Bool)) (i : Nat) :
    latest (past ++ changes) i = (latest changes i).or (latest past i) := by
  rw [latest, List.reverse_append, List.find?_append, Option.map_or, latest, latest]

theorem latest_singleton (c : Nat × Bool) (i : Nat) :
    latest [c] i = if i = c.1 then some c.2 else none := by
  rw [latest, List.reverse_singleton, List.find?_singleton]
  by_cases h : i = c.1
  · rw [if_pos h, if_pos (beq_iff_eq.2 h.symm)]
    rfl
  · have hne : ¬(c.1 == i) = true := fun heq => h (beq_iff_eq.1 heq).symm
    rw [if_neg h, if_neg hne]
    rfl

theorem setAll_concat (m : Mask) (changes : List (Nat × Bool)) (c : Nat × Bool) :
    m.setAll (changes ++ [c]) = m.setAll changes >>= fun m => m.set c.1 c.2 := by
  simp [setAll]

theorem setAll_concat_eq_ok_iff {c : Nat × Bool} :
    m.setAll (changes ++ [c]) = .ok m' ↔
      ∃ k, m.setAll changes = .ok k ∧ k.set c.1 c.2 = .ok m' := by
  rw [setAll_concat, Fault.bind_eq_ok_iff]

theorem arguments_setAll (h : m.setAll changes = .ok m') : m'.arguments = m.arguments := by
  induction changes using List.reverseRecOn generalizing m' with
  | nil =>
    cases h
    rfl
  | append_singleton changes c ih =>
    obtain ⟨k, hk, hset⟩ := setAll_concat_eq_ok_iff.1 h
    exact (arguments_set hset).trans (ih hk)

theorem getLsbD_setAll (h : m.setAll changes = .ok m') {k : Nat} (hk : m.arguments ≤ k) :
    m'.bits.getLsbD k = m.bits.getLsbD k := by
  induction changes using List.reverseRecOn generalizing m' with
  | nil =>
    cases h
    rfl
  | append_singleton changes c ih =>
    obtain ⟨u, hu, hset⟩ := setAll_concat_eq_ok_iff.1 h
    have harguments := arguments_setAll hu
    rw [getLsbD_set hset (by omega), ih hu]

theorem get_setAll (hm : m.arguments ≤ maskBits) (h : m.setAll changes = .ok m') (i : Nat) :
    m'.get i = (latest changes i).getD (m.get i) := by
  induction changes using List.reverseRecOn generalizing m' with
  | nil =>
    cases h
    rfl
  | append_singleton changes c ih =>
    obtain ⟨u, hu, hset⟩ := setAll_concat_eq_ok_iff.1 h
    have harguments := arguments_setAll hu
    rw [get_set (by omega) hset i, latest_append, latest_singleton, ih hu]
    split <;> rfl

theorem exists_setAll_iff :
    (∃ m', m.setAll changes = .ok m') ↔ ∀ c ∈ changes, c.1 < m.arguments := by
  induction changes using List.reverseRecOn with
  | nil => exact ⟨fun _ c hc => absurd hc List.not_mem_nil, fun _ => ⟨m, rfl⟩⟩
  | append_singleton changes c ih =>
    rw [List.forall_mem_append, List.forall_mem_singleton, ← ih]
    constructor
    · rintro ⟨m', h⟩
      obtain ⟨u, hu, hset⟩ := setAll_concat_eq_ok_iff.1 h
      exact ⟨⟨u, hu⟩, arguments_setAll hu ▸ exists_set_iff.1 ⟨m', hset⟩⟩
    · rintro ⟨⟨u, hu⟩, hc⟩
      obtain ⟨m', hset⟩ := exists_set_iff.2 ((arguments_setAll hu).symm ▸ hc)
      exact ⟨m', setAll_concat_eq_ok_iff.2 ⟨u, hu, hset⟩⟩

theorem Tidy.setAll (hm : m.Tidy) (h : m.setAll changes = .ok m') : m'.Tidy := by
  intro k hk
  rw [arguments_setAll h] at hk
  rw [getLsbD_setAll h hk, hm k hk]

/-! ## How a mask begins -/

/-- What a mask is made from: a number of arguments, none of them active, or their identifiers. -/
inductive Origin where
  | blank (arguments : Nat)
  | identifiers (ids : List Nat)

namespace Origin

variable {o : Origin}

def arguments : Origin → Nat
  | blank n => n
  | identifiers ids => ids.length

/-- Which arguments are active from the start. -/
def active : Origin → Nat → Bool
  | blank _, _ => false
  | identifiers ids, i => ids[i]?.any (· != passive)

/-- Make a mask and set arguments of it, one after the other. -/
def make (o : Origin) (changes : List (Nat × Bool)) : Except Fault Mask := do
  let m ← match o with
    | blank n => create n
    | identifiers ids => ofIdentifiers ids
  m.setAll changes

/-- The changes with which identifiers are marked. -/
def marks : Origin → List (Nat × Bool)
  | blank _ => []
  | identifiers ids => ids.zipIdx.map fun x => (x.2, x.1 != passive)

theorem lt_of_mem_marks {c : Nat × Bool} (hc : c ∈ o.marks) : c.1 < o.arguments := by
  cases o with
  | blank n => exact absurd hc List.not_mem_nil
  | identifiers ids =>
    obtain ⟨x, hx, rfl⟩ := List.mem_map.1 hc
    exact List.snd_lt_of_mem_zipIdx hx

theorem latest_marks (o : Origin) (i : Nat) : (latest o.marks i).getD false = o.active i := by
  cases o with
  | blank n => rfl
  | identifiers ids =>
    induction ids using List.reverseRecOn with
    | nil => rfl
    | append_singleton ids id ih =>
      have hmarks : (identifiers (ids ++ [id])).marks =
          (identifiers ids).marks ++ [(ids.length, id != passive)] := by
        simp [marks, List.zipIdx_append]
      rw [hmarks, latest_append, latest_singleton]
      show _ = (ids ++ [id])[i]?.any (· != passive)
      by_cases hi : i = ids.length
      · rw [if_pos hi, hi, List.getElem?_concat_length]
        rfl
      · rw [if_neg hi, Option.none_or, ih]
        show ids[i]?.any (· != passive) = _
        rw [List.getElem?_append]
        split
        · rfl
        · next hge =>
          rw [List.getElem?_eq_none (by omega), List.getElem?_eq_none (by simp; omega)]

/-- A mask of identifiers is a blank one in which the active ones are set. -/
theorem make_eq_ok_iff : o.make changes = .ok m ↔
    o.arguments ≤ maskBits ∧ Mask.setAll ⟨0, o.arguments⟩ (o.marks ++ changes) = .ok m := by
  have hmake : o.make changes =
      create o.arguments >>= fun m => m.setAll (o.marks ++ changes) := by
    cases o with
    | blank n => rfl
    | identifiers ids =>
      simp [make, ofIdentifiers, marks, arguments, Mask.setAll, List.foldlM_map]
  rw [hmake, Fault.bind_eq_ok_iff]
  constructor
  · rintro ⟨u, hu, hset⟩
    obtain ⟨hle, rfl⟩ := create_eq_ok_iff.1 hu
    exact ⟨hle, hset⟩
  · rintro ⟨hle, hset⟩
    exact ⟨_, create_eq_ok_iff.2 ⟨hle, rfl⟩, hset⟩

theorem exists_make_iff : (∃ m, o.make changes = .ok m) ↔
    o.arguments ≤ maskBits ∧ ∀ c ∈ changes, c.1 < o.arguments := by
  simp only [make_eq_ok_iff, exists_and_left, exists_setAll_iff, List.forall_mem_append]
  exact and_congr_right fun _ => and_iff_right fun _ => lt_of_mem_marks

theorem arguments_make (h : o.make changes = .ok m) :
    m.arguments = o.arguments ∧ o.arguments ≤ maskBits :=
  ⟨arguments_setAll (make_eq_ok_iff.1 h).2, (make_eq_ok_iff.1 h).1⟩

theorem tidy_make (h : o.make changes = .ok m) : m.Tidy :=
  (tidy_blank o.arguments).setAll (make_eq_ok_iff.1 h).2

theorem get_make (h : o.make changes = .ok m) (i : Nat) :
    m.get i = (latest changes i).getD (o.active i) := by
  obtain ⟨hle, hset⟩ := make_eq_ok_iff.1 h
  rw [get_setAll hle hset, latest_append, Option.getD_or, get_blank, latest_marks]

end Origin

/-! ## Counting -/

/-- How many bits are set beyond the arguments. -/
def strays (m : Mask) : Nat :=
  (List.range (64 - m.arguments)).countP fun i => m.bits.getLsbD (m.arguments + i)

theorem strays_eq_zero_iff : m.strays = 0 ↔ m.Tidy := by
  rw [strays, List.countP_eq_zero]
  constructor
  · intro h i hi
    by_cases hwidth : i < 64
    · have hbit := h (i - m.arguments) (List.mem_range.2 (by omega))
      rw [Nat.add_sub_cancel' hi, Bool.not_eq_true] at hbit
      exact hbit
    · exact BitVec.getLsbD_of_ge _ _ (Nat.le_of_not_lt hwidth)
  · intro h i _
    rw [h _ (Nat.le_add_right _ _)]
    exact Bool.false_ne_true

theorem count_eq (hm : m.arguments ≤ maskBits) :
    m.count = (List.range m.arguments).countP m.get + m.strays := by
  have hsplit : List.range 64 =
      List.range m.arguments ++ (List.range (64 - m.arguments)).map (m.arguments + ·) := by
    rw [← List.range_add]
    exact congrArg List.range (Nat.add_sub_cancel' hm).symm
  have hget : (List.range m.arguments).countP (fun i => m.bits.getLsbD i) =
      (List.range m.arguments).countP m.get := by
    apply List.countP_congr
    intro i hi
    rw [get, decide_eq_true (List.mem_range.1 hi), Bool.true_and]
  rw [count, hsplit, List.countP_append, hget, List.countP_map]
  rfl

theorem any_iff : m.any = true ↔ ∃ i, m.bits.getLsbD i = true := by
  rw [any, bne_iff_ne]
  constructor
  · intro h
    by_contra hnone
    apply h
    apply BitVec.eq_of_getLsbD_eq
    intro i _
    have hbit : m.bits.getLsbD i = false := Bool.not_eq_true _ ▸ fun hbit => hnone ⟨i, hbit⟩
    exact hbit.trans BitVec.getLsbD_zero.symm
  · rintro ⟨i, hbit⟩ hzero
    rw [hzero] at hbit
    exact Bool.false_ne_true (BitVec.getLsbD_zero.symm.trans hbit)

theorem any_iff_count_pos : m.any = true ↔ 0 < m.count := by
  rw [any_iff, count, List.countP_pos_iff]
  constructor
  · rintro ⟨i, hbit⟩
    exact ⟨i, List.mem_range.2 (BitVec.lt_of_getLsbD hbit), hbit⟩
  · rintro ⟨i, -, hbit⟩
    exact ⟨i, hbit⟩

/-! ## Storing and restoring -/

theorem width_cases (n : Nat) : width n = 1 ∨ width n = 2 ∨ width n = 4 ∨ width n = 8 := by
  unfold width
  repeat' split
  all_goals simp

theorem le_bits_width {n : Nat} (hn : n ≤ maskBits) : n ≤ 8 * width n := by
  have hmost : maskBits = 64 := rfl
  unfold width
  repeat' split
  all_goals omega

theorem byteRange_eq (width : Nat) : byteRange width = 2 ^ (8 * width) := by
  induction width with
  | zero => rfl
  | succ width ih =>
    rw [byteRange, ih, Nat.mul_succ, Nat.pow_add, Nat.mul_comm]

theorem ofBytes_encode_field (m : Mask) :
    ofBytes m.field.encode = m.bits.toNat % byteRange (width m.arguments) := by
  unfold field
  rcases width_cases m.arguments with h | h | h | h <;> rw [h]
  · exact (ofBytes_toBytes_uInt8 _).trans UInt8.toNat_ofNat'
  · exact (ofBytes_toBytes_uInt16 _).trans UInt16.toNat_ofNat'
  · exact (ofBytes_toBytes_uInt32 _).trans UInt32.toNat_ofNat'
  · exact (ofBytes_toBytes_uInt64 _).trans UInt64.toNat_ofNat'

/-- The bytes of a mask have room for all its arguments, so nothing is cut off when it is stored. -/
theorem Tidy.toNat_lt (hm : m.Tidy) (hle : m.arguments ≤ maskBits) :
    m.bits.toNat < byteRange (width m.arguments) := by
  rw [byteRange_eq]
  apply Nat.lt_pow_two_of_testBit
  intro i hi
  exact hm i (Nat.le_trans (le_bits_width hle) hi)

theorem restore_eq {n : Nat} {r : Reader} (hn : n ≤ maskBits) (hr : width n ≤ r.remaining) :
    restore n r = .ok (⟨BitVec.ofNat 64 (ofBytes (r.rest.take (width n))), n⟩,
      { r with consumed := r.consumed + width n }) := by
  rw [restore, Reader.nat, Reader.take_eq hr]
  show (create n >>= fun m => _) = _
  rw [create_eq_ok_iff.2 ⟨hn, rfl⟩]
  rfl

theorem Tidy.restore_eq (hm : m.Tidy) (hle : m.arguments ≤ maskBits) {r : Reader}
    {after : List UInt8} (h : r.rest = m.field.encode ++ after) :
    restore m.arguments r = .ok (m, { r with consumed := r.consumed + width m.arguments }) := by
  have hlength : m.field.encode.length = width m.arguments := by
    rw [Field.length_encode, width_field]
  have hroom : width m.arguments ≤ r.remaining := by
    rw [← Reader.length_rest, h, List.length_append, hlength]
    exact Nat.le_add_right _ _
  have hbits : BitVec.ofNat 64 (ofBytes m.field.encode) = m.bits := by
    rw [ofBytes_encode_field, Nat.mod_eq_of_lt (hm.toNat_lt hle), BitVec.ofNat_toNat,
      BitVec.setWidth_eq]
  rw [Mask.restore_eq hle hroom, h, List.take_left' hlength, hbits]

/-- Stored between other fields, a mask takes the bytes that its width says and is restored from
them. -/
theorem Tidy.exists_stored (hm : m.Tidy) (hle : m.arguments ≤ maskBits) {n : Nat}
    {fs gs : List Field}
    (hfits : Field.totalWidth fs + width m.arguments + Field.totalWidth gs ≤ n) :
    ∃ before after full,
      Writer.putAll { capacity := n } fs = .ok before ∧ m.store before = .ok after ∧
      after.putAll gs = .ok full ∧
      before.written = Field.totalWidth fs ∧
      after.written = before.written + width m.arguments ∧
      (∀ s, (after.onto s).toList =
        (before.onto s).toList.take (s.toList.length + before.written) ++ m.field.encode ++
        (before.onto s).toList.drop (s.toList.length + after.written)) ∧
      restore m.arguments ⟨full.bytes, before.written⟩ =
        .ok (m, ⟨full.bytes, after.written⟩) := by
  obtain ⟨before, hbefore⟩ : ∃ before, before = Writer.filled { capacity := n } fs := ⟨_, rfl⟩
  have hwritten : before.written = Field.totalWidth fs := by
    rw [hbefore, Writer.written_filled]
    exact Nat.zero_add _
  have hcapacity : before.capacity = n := hbefore ▸ rfl
  have hafter : (before.filled [m.field]).written = before.written + width m.arguments := by
    rw [Writer.written_filled, Field.totalWidth_cons, Field.totalWidth_nil, width_field,
      Nat.add_zero]
  have hroom : before.written + m.field.shape.width ≤ before.capacity := by
    rw [width_field]
    omega
  have hfull : (before.filled [m.field]).written + Field.totalWidth gs ≤ before.capacity := by
    omega
  refine ⟨before, before.filled [m.field], (before.filled [m.field]).filled gs,
    Writer.putAll_empty_eq_ok_iff.2 ⟨by omega, hbefore⟩,
    (Writer.put_eq_ok_iff (Nat.le_of_add_right_le hroom)).2 ⟨hroom, rfl⟩,
    (Writer.putAll_eq_ok_iff (Nat.le_of_add_right_le hfull)).2 ⟨hfull, rfl⟩, hwritten, hafter,
    fun s => ?_, ?_⟩
  · rw [Writer.toList_onto_filled hroom, hafter, width_field, Nat.add_assoc]
  · rw [hafter]
    exact hm.restore_eq hle (before.rest_filled m.field gs)

end Mask

/-! ## Main statement -/

/-- A mask can be made from a number of arguments or from their identifiers, and arguments of it can
be set, if there are not more than it holds and no others are set.  An argument is then active if it
was set to be so when it was last set, or from the start if it never was, and only active arguments
are counted.  Stored behind any fields the mask takes the bytes that its width says and leaves all
others as they are, and whatever is written behind it, the same mask is restored from there, over
the same number of bytes. -/
theorem masks_are_restored_as_stored (o : Mask.Origin) (changes : List (Nat × Bool)) :
    ((∃ m, o.make changes = .ok m) ↔
      o.arguments ≤ maskBits ∧ ∀ c ∈ changes, c.1 < o.arguments) ∧
    ∀ m, o.make changes = .ok m →
      m.arguments = o.arguments ∧
      (∀ i, m.get i = (Mask.latest changes i).getD (o.active i)) ∧
      (∀ i, o.arguments ≤ i → m.get i = false) ∧
      m.count = (List.range o.arguments).countP m.get ∧
      (m.any = true ↔ 0 < m.count) ∧
      ∀ n fs gs,
        Field.totalWidth fs + Mask.width o.arguments + Field.totalWidth gs ≤ n →
        ∃ before after full,
          Writer.putAll { capacity := n } fs = .ok before ∧ m.store before = .ok after ∧
          after.putAll gs = .ok full ∧
          before.written = Field.totalWidth fs ∧
          after.written = before.written + Mask.width o.arguments ∧
          (∀ s, (after.onto s).toList =
            (before.onto s).toList.take (s.toList.length + before.written) ++ m.field.encode ++
            (before.onto s).toList.drop (s.toList.length + after.written)) ∧
          Mask.restore o.arguments ⟨full.bytes, before.written⟩ =
            .ok (m, ⟨full.bytes, after.written⟩) := by
  refine ⟨Mask.Origin.exists_make_iff, fun m hm => ?_⟩
  obtain ⟨harguments, hle⟩ := Mask.Origin.arguments_make hm
  have htidy := Mask.Origin.tidy_make hm
  refine ⟨harguments, Mask.Origin.get_make hm, fun i hi => ?_, ?_, Mask.any_iff_count_pos,
    fun n fs gs hfits => ?_⟩
  · exact Mask.get_of_arguments_le (harguments.symm ▸ hi)
  · rw [Mask.count_eq (harguments.symm ▸ hle), Mask.strays_eq_zero_iff.2 htidy, harguments,
      Nat.add_zero]
  · rw [← harguments] at hfits ⊢
    exact htidy.exists_stored (harguments.symm ▸ hle) hfits

/-- Nine arguments need a second byte.  The last of them is set, the first one is set and taken
back, and the mask stands between an identifier and a byte. -/
theorem masks_are_restored_as_stored_of_two_bytes :
    ∃ m before after full,
      (Mask.Origin.blank 9).make [(0, true), (8, true), (0, false)] = .ok m ∧
      m.get 0 = false ∧ m.get 8 = true ∧ m.any = true ∧
      Writer.putAll { capacity := 7 } [.identifier 5] = .ok before ∧ m.store before = .ok after ∧
      after.putAll [.uint8 255] = .ok full ∧ before.written = 4 ∧ after.written = 6 ∧
      Mask.restore 9 ⟨full.bytes, 4⟩ = .ok (m, ⟨full.bytes, 6⟩) := by
  obtain ⟨hmake, hmasks⟩ :=
    masks_are_restored_as_stored (.blank 9) [(0, true), (8, true), (0, false)]
  have hlt : ∀ c ∈ [(0, true), (8, true), (0, false)], c.1 < 9 := by
    simp only [List.forall_mem_cons]
    exact ⟨by decide, by decide, by decide, fun c hc => absurd hc List.not_mem_nil⟩
  obtain ⟨m, hm⟩ := hmake.2 ⟨by decide, hlt⟩
  obtain ⟨-, hget, -, hcount, hany, hstored⟩ := hmasks m hm
  have hfirst : m.get 0 = false := hget 0
  have hlast : m.get 8 = true := hget 8
  have hpositive : 0 < m.count := by
    rw [hcount, List.countP_pos_iff]
    exact ⟨8, List.mem_range.2 (by decide), hlast⟩
  obtain ⟨before, after, full, hbefore, hafter, hfull, hwritten, hnext, -, hrestore⟩ :=
    hstored 7 [.identifier 5] [.uint8 255] (by decide)
  have hstart : before.written = 4 := hwritten
  have hend : after.written = 6 := by
    rw [hnext, hstart]
    rfl
  rw [hstart, hend] at hrestore
  exact ⟨m, before, after, full, hm, hfirst, hlast, hany.2 hpositive, hbefore, hafter, hfull,
    hstart, hend, hrestore⟩

end Autodiff
