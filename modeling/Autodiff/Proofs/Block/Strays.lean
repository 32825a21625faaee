import Autodiff.Block.Standard
import Autodiff.Proofs.Block.Masks
import Autodiff.Proofs.Exact

/-!
# Masks restored from arbitrary bytes

Restoring keeps all bits of the bytes, also those beyond the arguments.  Such a stray bit is never
seen by a question about one argument, and setting arguments never removes it, but it is counted.
So a count speaks of the arguments only for masks from bytes without stray bits, and those that
were stored have none.
-/

namespace Autodiff

/-! ## Bytes and fields -/

theorem ofBytes_lt (bytes : List UInt8) : ofBytes bytes < byteRange bytes.length := by
  induction bytes with
  | nil => exact Nat.zero_lt_one
  | cons b bytes ih =>
    have hb : b.toNat < 256 := b.toNat_lt
    rw [List.length_cons, byteRange, ofBytes]
    omega

/-- The fields of those that are chosen, when each of them has fields of the same total width. -/
theorem Field.totalWidth_flatMap_ite {chosen : Nat → Bool} {fields : Nat → List Field} {k : Nat}
    {l : List Nat} (h : ∀ i ∈ l, totalWidth (fields i) = k) :
    totalWidth (l.flatMap fun i => if chosen i then fields i else []) = l.countP chosen * k := by
  induction l with
  | nil => exact (Nat.zero_mul k).symm
  | cons i l ih =>
    obtain ⟨hi, hl⟩ := List.forall_mem_cons.1 h
    rw [List.flatMap_cons, totalWidth_append, ih hl]
    by_cases hchosen : chosen i = true
    · rw [if_pos hchosen, hi, List.countP_cons_of_pos hchosen, Nat.succ_mul, Nat.add_comm]
    · rw [if_neg hchosen, totalWidth_nil, List.countP_cons_of_neg hchosen, Nat.zero_add]

namespace Mask

variable {m m' : Mask} {n : Nat} {changes : List (Nat × Bool)}

/-! ## Counting arguments only -/

/-- The mask counts active arguments and nothing else. -/
structure Tallied (m : Mask) : Prop where
  count_eq : m.count = (List.range m.arguments).countP m.get
  count_le : m.count ≤ m.arguments
  any_iff : m.any = true ↔ ∃ i, m.get i = true

theorem tallied_iff_tidy (hm : m.arguments ≤ maskBits) : m.Tallied ↔ m.Tidy := by
  have hcount := m.count_eq hm
  constructor
  · intro h
    have htallied := h.count_eq
    exact strays_eq_zero_iff.1 (by omega)
  · intro h
    have hstrays := strays_eq_zero_iff.2 h
    rw [hstrays, Nat.add_zero] at hcount
    refine ⟨hcount, ?_, ?_⟩
    · rw [hcount]
      exact List.countP_le_length.trans_eq List.length_range
    · rw [any_iff_count_pos, hcount, List.countP_pos_iff]
      constructor
      · rintro ⟨i, -, hi⟩
        exact ⟨i, hi⟩
      · rintro ⟨i, hi⟩
        exact ⟨i, List.mem_range.2 (lt_arguments_of_get hi), hi⟩

/-- Stray bits stay where they are, whatever is set. -/
theorem tidy_setAll_iff (h : m.setAll changes = .ok m') : m'.Tidy ↔ m.Tidy := by
  refine ⟨fun htidy k hk => ?_, fun htidy => htidy.setAll h⟩
  rw [← getLsbD_setAll h hk]
  exact htidy k (arguments_setAll h ▸ hk)

/-! ## Restored masks -/

theorem width_le (n : Nat) : width n ≤ 8 := by
  have h := width_cases n
  omega

theorem tidy_ofNat_iff {bytes : List UInt8} (hn : bytes.length ≤ 8) :
    Tidy ⟨BitVec.ofNat 64 (ofBytes bytes), n⟩ ↔
      ∀ i, n ≤ i → (ofBytes bytes).testBit i = false := by
  have hbits (i : Nat) :
      (BitVec.ofNat 64 (ofBytes bytes)).getLsbD i = (ofBytes bytes).testBit i := by
    rw [BitVec.getLsbD_ofNat]
    by_cases hi : i < 64
    · rw [decide_eq_true hi, Bool.true_and]
    -- Eight bytes make no number with a bit that a mask has no place for.
    · have hrange : ofBytes bytes < 2 ^ (8 * bytes.length) := byteRange_eq _ ▸ ofBytes_lt bytes
      have hlt : ofBytes bytes < 2 ^ i :=
        Nat.lt_of_lt_of_le hrange (Nat.pow_le_pow_right Nat.two_pos (by omega))
      rw [decide_eq_false hi, Bool.false_and, Nat.testBit_lt_two_pow hlt]
  exact forall_congr' fun i => imp_congr_right fun _ => by rw [← hbits i]

/-- The fields of the active arguments, in their order. -/
def selected (m : Mask) (fields : Nat → List Field) : List Field :=
  (List.range m.arguments).flatMap fun i => if m.get i then fields i else []

theorem Tallied.totalWidth_selected (hm : m.Tallied) {fields : Nat → List Field} {k : Nat}
    (h : ∀ i < m.arguments, Field.totalWidth (fields i) = k) :
    Field.totalWidth (m.selected fields) = m.count * k := by
  rw [hm.count_eq]
  exact Field.totalWidth_flatMap_ite fun i hi => h i (List.mem_range.1 hi)

end Mask

/-- A masked sum expects as many terms as the mask in its fixed bytes counts. -/
theorem External.dynamicSize_maskedSum {F : Type} [FixedWidth F] [Zero F] [Add F] [Mul F] {n : Nat}
    {fixed fixed' : Reader} {m : Mask} (h : Mask.restore n fixed = .ok (m, fixed')) (key : Nat)
    (name : String) (asked : Nat) :
    (maskedSum key name n : External F).dynamicSize asked fixed = .ok (m.count * termWidth F) := by
  show ((Mask.restore n fixed >>= fun p => Except.ok (p.1.count, p.2)) >>=
    fun p => Except.ok (p.1 * termWidth F)) = _
  rw [h]
  rfl

/-! ## Main statement -/

/-- Masks that are made from a number of arguments or from identifiers count their arguments only.
A mask that is restored does so exactly if no bit beyond the arguments is set in its bytes, whatever
is set in it afterwards.  As long as a mask does, it is restored as it was stored, and the size that
is computed from its count is that of the fields that were written for one active argument after
another. -/
theorem masks_count_their_arguments {F : Type} [FixedWidth F] [Zero F] [Add F] [Mul F] :
    (∀ o changes m, Mask.Origin.make o changes = .ok m → m.Tallied) ∧
    (∀ n r, n ≤ maskBits → Mask.width n ≤ r.remaining → ∃ m,
      Mask.restore n r = .ok (m, { r with consumed := r.consumed + Mask.width n }) ∧
      ∀ changes m', m.setAll changes = .ok m' →
        (m'.Tallied ↔
          ∀ i, n ≤ i → (ofBytes (r.rest.take (Mask.width n))).testBit i = false)) ∧
    ∀ m : Mask, m.arguments ≤ maskBits → m.Tallied → ∀ n fs,
      Mask.width m.arguments + Field.totalWidth fs ≤ n → ∃ before w,
        m.store { capacity := n } = .ok before ∧ before.putAll fs = .ok w ∧
        Mask.restore m.arguments (Reader.ofList w.bytes.toList) =
          .ok (m, ⟨w.bytes, Mask.width m.arguments⟩) ∧
        ∀ key name asked fields,
          (∀ i < m.arguments, Field.totalWidth (fields i) = External.termWidth F) →
          (External.maskedSum key name m.arguments : External F).dynamicSize asked
            (Reader.ofList w.bytes.toList) = .ok (Field.totalWidth (m.selected fields)) := by
  refine ⟨fun o changes m hm => ?_, fun n r hn hr => ?_, fun m hle hm n fs hfits => ?_⟩
  · obtain ⟨harguments, hle⟩ := Mask.Origin.arguments_make hm
    exact (Mask.tallied_iff_tidy (harguments.symm ▸ hle)).2 (Mask.Origin.tidy_make hm)
  · refine ⟨_, Mask.restore_eq hn hr, fun changes m' hset => ?_⟩
    have harguments : m'.arguments = n := Mask.arguments_setAll hset
    have hlength : (r.rest.take (Mask.width n)).length ≤ 8 :=
      (List.length_take_le _ _).trans (Mask.width_le n)
    rw [Mask.tallied_iff_tidy (harguments.symm ▸ hn), Mask.tidy_setAll_iff hset,
      Mask.tidy_ofNat_iff hlength]
  · have htidy := (Mask.tallied_iff_tidy hle).1 hm
    have hfits' : Field.totalWidth [] + Mask.width m.arguments + Field.totalWidth fs ≤ n := by
      rwa [Field.totalWidth_nil, Nat.zero_add]
    obtain ⟨before, after, full, hbefore, hafter, hfull, hwritten, hnext, -, hrestore⟩ :=
      htidy.exists_stored hle hfits'
    -- Nothing was written in front of the mask.
    cases hbefore
    rw [hnext, hwritten, Field.totalWidth_nil, Nat.zero_add] at hrestore
    refine ⟨after, full, hafter, hfull, hrestore, fun key name asked fields hfields => ?_⟩
    rw [hm.totalWidth_selected hfields]
    exact External.dynamicSize_maskedSum hrestore key name asked

/-- Two of three arguments are active, and the identifier of the sum stands behind the mask.  A mask
of as many arguments that is restored from a byte with other bits counts more than its arguments. -/
theorem masks_count_their_arguments_of_identifiers :
    ∃ (m m' : Mask) (r : Reader) (after w : Writer),
      (Mask.Origin.identifiers [4, passive, 2]).make [] = .ok m ∧ m.Tallied ∧
      m.store { capacity := 5 } = .ok after ∧ after.putAll [.identifier 7] = .ok w ∧
      (External.maskedSum 0 "masked_sum" 3 : External Int).dynamicSize 0
        (Reader.ofList w.bytes.toList) =
        .ok (Field.totalWidth [.uint64 30, .identifier 4, .uint64 50, .identifier 2]) ∧
      Mask.restore 3 (Reader.ofList [0xf8]) = .ok (m', r) ∧ ¬m'.Tallied := by
  obtain ⟨hmade, hrestored, hstored⟩ := masks_count_their_arguments (F := Int)
  have hm : (Mask.Origin.identifiers [4, passive, 2]).make [] = .ok ⟨5, 3⟩ := rfl
  have htallied := hmade _ _ _ hm
  obtain ⟨after, w, hafter, hw, -, hsize⟩ := hstored _ (by decide) htallied 5 [.identifier 7]
    (by decide)
  have hterms := hsize 0 "masked_sum" 0
    (fun i => [.uint64 (UInt64.ofNat (10 * i + 30)), .identifier (UInt32.ofNat (4 - i))])
    fun _ _ => rfl
  obtain ⟨m', hm', htidy⟩ := hrestored 3 (Reader.ofList [0xf8]) (by decide) (by decide)
  have hnot : ¬m'.Tallied := by
    intro h
    have hbit := (htidy [] m' rfl).1 h 3 (Nat.le_refl 3)
    exact Bool.noConfusion hbit
  exact ⟨_, m', _, after, w, hm, htallied, hafter, hw, hterms, hm', hnot⟩

/-- None of three arguments is active, but the five stray bits of the byte are counted. -/
theorem restored_mask_counts_stray_bits :
    ∃ m r, Mask.restore 3 (Reader.ofList [0xf8]) = .ok (m, r) ∧ m.arguments = 3 ∧
      (∀ i, m.get i = false) ∧ m.count = 5 ∧ m.any = true ∧
      ¬(m.count = (List.range 3).countP m.get ∧ m.count ≤ 3 ∧
        (m.any = true ↔ ∃ i, m.get i = true)) := by
  have hcount : Mask.count ⟨0xf8, 3⟩ = 5 := rfl
  refine ⟨⟨0xf8, 3⟩, ⟨#[0xf8], 1⟩, rfl, rfl, fun i => ?_, hcount, rfl, fun h => ?_⟩
  · by_cases hi : i < 3
    · obtain rfl | rfl | rfl : i = 0 ∨ i = 1 ∨ i = 2 := by omega
      all_goals rfl
    · exact Mask.get_of_arguments_le (Nat.le_of_not_lt hi)
  · have hle := h.2.1
    omega

end Autodiff
