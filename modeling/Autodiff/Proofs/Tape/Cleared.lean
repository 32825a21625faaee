import Autodiff.Proofs.Tape.Dummy
import Autodiff.Proofs.Tape.Numbering
import Autodiff.Proofs.Tape.Sizing

/-!
# What clearing a range leaves

Clearing a range is about the identifiers that its inputs and assignments define.  Under the linear
scheme their slots and no others are set to zero, although the statements are not read.  Where
identifiers are reused the statements are read, but not their kinds: the stream holds the passive
identifier for a block, and the sweep takes that for a target as well.  So a block in the range
costs slot zero its value, and no other slot.
-/

namespace Autodiff

/-! ## What a range defines -/

/-- The identifiers that are defined between two places of a history, whichever is the earlier. -/
def History.definedBetween {F : Type} (h : History F) (i k : Nat) : List Nat :=
  (h.between (min i k) (max i k)).flatMap Statement.defined

/-- Some block was recorded between the two places. -/
def History.BlockBetween {F : Type} (h : History F) (i k : Nat) : Prop :=
  ∃ x ∈ h.between (min i k) (max i k), x.kind = .block

/-- No statement defines the passive identifier. -/
theorem Reached.passive_not_mem_defined {F : Type} [Zero F] [One F] [FixedWidth F]
    {lib : Library F} {s : Scheme} {t : Tape F s} {h : History F} (hr : Reached lib t h) :
    ∀ x ∈ h.statements, passive ∉ x.defined := by
  refine hr.forall_statements ?_ ?_ ?_
  · intro s t t' h target identifier arguments j j' hr hc x hx
    rcases Tape.store_cases hc with ⟨hnew, -⟩ | ⟨entries, supply, hnew, -, hclaim, -⟩
    · exact absurd (hnew ▸ hx) List.not_mem_nil
    · rw [hnew] at hx
      rw [List.mem_singleton.1 hx]
      exact fun hmem => Supply.claim_ne_passive hr.sound hclaim (List.mem_singleton.1 hmem).symm
  · intro s t t' h identifier j j' hr hc x hx
    rcases Tape.registerInput_cases hc with ⟨hnew, -⟩ | ⟨supply, hnew, hgenerate, -⟩
    · exact absurd (hnew ▸ hx) List.not_mem_nil
    · rw [hnew] at hx
      rw [List.mem_singleton.1 hx]
      exact fun hmem =>
        (Supply.generate_spec hr.sound hgenerate).1 (List.mem_singleton.1 hmem).symm
  · intro s t t' token fixedSize dynamicSize write views j j' _ _ x hx
    cases views with
    | none => exact absurd hx List.not_mem_nil
    | some views =>
      rw [List.mem_singleton.1 hx]
      exact List.not_mem_nil

theorem Reached.passive_not_mem_definedBetween {F : Type} [Zero F] [One F] [FixedWidth F]
    {lib : Library F} {s : Scheme} {t : Tape F s} {h : History F} (hr : Reached lib t h)
    (i k : Nat) : passive ∉ h.definedBetween i k := by
  intro hmem
  obtain ⟨x, hx, hdefined⟩ := List.mem_flatMap.1 hmem
  exact hr.passive_not_mem_defined x (List.mem_of_mem_take (List.mem_of_mem_drop hx)) hdefined

/-! ## Vectors that were cleared -/

namespace Tape

variable {F : Type} [Zero F] {s : Scheme}

/-- The number of slots of the vector `v` once it was prepared for the tape. -/
def preparedSize (t : Tape F s) (v : Adjoints F) : Management → Nat
  | .automatic => v.ensuredSize t.largestIdentifier
  | .manual => v.size

/-- `w` is the vector `v`, grown with zeros if that is asked for, with zeros in just those slots
that are to be cleared. -/
structure Cleared (t : Tape F s) (management : Management) (v w : Adjoints F)
    (cleared : Nat → Prop) : Prop where
  size : w.size = t.preparedSize v management
  zero : ∀ n, cleared n → w.slot n = 0
  kept : ∀ n, ¬cleared n → w.slot n = v.slot n

omit [Zero F] in
theorem requiredSize_le_preparedSize (t : Tape F s) (v : Adjoints F) :
    t.requiredSize ≤ t.preparedSize v .automatic := by
  show t.largestIdentifier + 1 ≤ v.ensuredSize t.largestIdentifier
  unfold Adjoints.ensuredSize
  split <;> omega

theorem size_prepare (t : Tape F s) (management : Management) :
    (t.prepare management).adjoints.size = t.preparedSize t.adjoints management := by
  cases management with
  | automatic => exact Adjoints.size_ensure t.adjoints t.largestIdentifier
  | manual => rfl

end Tape

section Clear

variable {F : Type} [Zero F] {lib : Library F} {s : Scheme} {t : Tape F s} {h : History F}
  {p q : Position} {i k : Nat}

theorem Aligned.exists_cleared_of_le (ht : Aligned lib t h) (hp : h.Valid p i) (hq : h.Valid q k)
    (hik : i ≤ k) (management : Management) :
    ∃ w, p ≤ q ∧ t.clearBetween q p management = .ok { t with adjoints := w } ∧
      t.Cleared management t.adjoints w (s.Clears p q (h.between i k)) := by
  have hle : p ≤ q := (ht.le_iff hp hq).2 hik
  obtain ⟨w, hw, hsize, hslot⟩ := ht.exists_cleared hp hq hle management
  rw [Tape.size_prepare] at hsize
  rw [Tape.slot_prepare] at hslot
  exact ⟨w, hle, hw, hsize, fun n => (hslot n).1, fun n => (hslot n).2⟩

/-- In whichever order the positions of a range are given, clearing sets to zero what the scheme
clears between the earlier and the later one. -/
theorem Aligned.exists_clearBetween_cleared (ht : Aligned lib t h) (hp : h.Valid p i)
    (hq : h.Valid q k) (management : Management) :
    ∃ early late w, h.Valid early (min i k) ∧ h.Valid late (max i k) ∧ early ≤ late ∧
      t.clearBetween p q management = .ok { t with adjoints := w } ∧
      t.Cleared management t.adjoints w
        (s.Clears early late (h.between (min i k) (max i k))) := by
  rcases Nat.le_total i k with hik | hki
  · rw [Nat.min_eq_left hik, Nat.max_eq_right hik]
    obtain ⟨w, hle, hw, hcleared⟩ := ht.exists_cleared_of_le hp hq hik management
    exact ⟨p, q, w, hp, hq, hle, (t.clearBetween_comm p q management).trans hw, hcleared⟩
  · rw [Nat.min_eq_right hki, Nat.max_eq_left hki]
    obtain ⟨w, hle, hw, hcleared⟩ := ht.exists_cleared_of_le hq hp hki management
    exact ⟨q, p, w, hq, hp, hle, hw, hcleared⟩

end Clear

/-! ## Linear tapes -/

section Linear

variable {F : Type} [Zero F] [One F] [FixedWidth F] {lib : Library F} {h : History F}
  {p q : Position} {i k : Nat}

/-- Clearing a range of a linear tape never asks for a range of slots that is reversed or outside
the vector, whatever vector there is.  It zeroes the slots of what the inputs and assignments
between the two positions define, so far as the vector has them, and leaves every other slot as it
is, slot zero among them.  Under automatic management the vector has grown to hold every identifier
of the tape before that. -/
theorem linear_clearing_is_exact {t : Tape F .linear} (hr : Reached lib t h) (hp : h.Valid p i)
    (hq : h.Valid q k) (v : Adjoints F) (management : Management) :
    ∃ w, Tape.clearBetween { t with adjoints := v } p q management =
        .ok { t with adjoints := w } ∧
      t.Cleared management v w (· ∈ h.definedBetween i k) ∧
      w.slot passive = v.slot passive ∧
      (management = .automatic → t.requiredSize ≤ w.size) := by
  have hr' := hr.setVector v
  obtain ⟨early, late, w, hearly, hlate, hle, hclear, hsize, hzero, hkept⟩ :=
    hr'.aligned.exists_clearBetween_cleared hp hq management
  -- The counters of the positions bound the identifiers that were given out in between.
  have hiff (n : Nat) : Scheme.linear.Clears early late (h.between (min i k) (max i k)) n ↔
      n ∈ h.definedBetween i k := hr'.clears_linear_iff hearly hlate hle
  refine ⟨w, hclear, ⟨hsize, fun n hn => hzero n ((hiff n).2 hn),
    fun n hn => hkept n fun hclears => hn ((hiff n).1 hclears)⟩, ?_, ?_⟩
  · apply hkept
    rw [hiff]
    exact hr.passive_not_mem_definedBetween i k
  · rintro rfl
    rw [hsize]
    exact t.requiredSize_le_preparedSize v

end Linear

/-- The range of two assignments behind a block, later position first, in a vector that does not
reach to the second of them. -/
theorem linear_clearing_is_exact_of_short_vector :
    ∃ (t : Tape Int .linear) (h : History Int) (p q : Position) (w : Adjoints Int),
      Reached .counting t h ∧ h.Valid p 2 ∧ h.Valid q 4 ∧ h.definedBetween 4 2 = [2, 3] ∧
      Tape.clearBetween { t with adjoints := #[5, 6, 7] } q p .manual =
        .ok { t with adjoints := w } ∧
      w.size = 3 ∧ w.slot 0 = 5 ∧ w.slot 1 = 6 ∧ w.slot 2 = 0 := by
  obtain ⟨t, h, p, q, hr, hp, hq, hstatements⟩ := exists_numbered
  have hdefined : h.definedBetween 4 2 = [2, 3] := by
    rw [History.definedBetween, History.between, hstatements]
    rfl
  obtain ⟨w, hclear, ⟨hsize, hzero, hkept⟩, hpassive, -⟩ :=
    linear_clearing_is_exact hr hq hp #[5, 6, 7] .manual
  rw [hdefined] at hzero hkept
  exact ⟨t, h, p, q, w, hr, hp, hq, hdefined, hclear, hsize, hpassive, hkept 1 (by decide),
    hzero 2 (by decide)⟩

/-! ## Tapes that reuse identifiers -/

section Reuse

variable {F : Type} [Zero F] [One F] [FixedWidth F] {lib : Library F} {h : History F}
  {p q : Position} {i k : Nat}

/-- Clearing a range of a tape that reuses identifiers zeroes the slots of what the inputs and
assignments in the range define, and slot zero if there is a block in the range; it leaves every
other slot as it is.  So just what the range defines is cleared exactly if slot zero held nothing or
the range has no block. -/
theorem reuse_clearing_takes_blocks_for_targets {t : Tape F .reuse} (hr : Reached lib t h)
    (hp : h.Valid p i) (hq : h.Valid q k) (v : Adjoints F) (management : Management) :
    ∃ w, Tape.clearBetween { t with adjoints := v } p q management =
        .ok { t with adjoints := w } ∧
      t.Cleared management v w
        (fun n => n ∈ h.definedBetween i k ∨ n = passive ∧ h.BlockBetween i k) ∧
      (management = .automatic → t.requiredSize ≤ w.size) ∧
      (t.Cleared management v w (· ∈ h.definedBetween i k) ↔
        v.slot passive = 0 ∨ ¬h.BlockBetween i k) := by
  obtain ⟨early, late, w, -, -, -, hclear, hsize, hzero, hkept⟩ :=
    (hr.setVector v).aligned.exists_clearBetween_cleared hp hq management
  have hiff (n : Nat) : Scheme.reuse.Clears early late (h.between (min i k) (max i k)) n ↔
      n ∈ h.definedBetween i k ∨ n = passive ∧ h.BlockBetween i k := Scheme.clears_reuse_iff
  simp only [hiff] at hzero hkept
  refine ⟨w, hclear, ⟨hsize, hzero, hkept⟩, ?_, ?_, ?_⟩
  · rintro rfl
    rw [hsize]
    exact t.requiredSize_le_preparedSize v
  -- Slot zero is none of those that are to be cleared, so it would have to be as before.
  · intro hexact
    by_cases hblock : h.BlockBetween i k
    · left
      rw [← hexact.kept passive (hr.passive_not_mem_definedBetween i k)]
      exact hzero passive (Or.inr ⟨rfl, hblock⟩)
    · exact Or.inr hblock
  · intro hcondition
    refine ⟨hsize, fun n hn => hzero n (Or.inl hn), fun n hn => ?_⟩
    by_cases hwiped : n = passive ∧ h.BlockBetween i k
    · obtain ⟨rfl, hblock⟩ := hwiped
      rw [hzero passive (Or.inr ⟨rfl, hblock⟩)]
      exact (hcondition.resolve_right (not_not_intro hblock)).symm
    · exact hkept n (not_or.2 ⟨hn, hwiped⟩)

end Reuse

/-- A tape with an input, a block and an assignment, and the positions around the last two. -/
theorem exists_block_in_range : ∃ (t : Tape Int .reuse) (h : History Int) (p q : Position),
    Reached .counting t h ∧ h.Valid p 1 ∧ h.Valid q 3 ∧
      h.statements = [.input 1, .block 0 0 [1] [9], .normal 2 [(3, 1)]] := by
  have hcreate : Reached (.counting : Library Int) (s := .reuse) _ _ :=
    .create (show Tape.create ⟨2, 1, 1, 1, 0, true⟩ #[] = _ from rfl)
  have hregister := hcreate.step (.register
    (show Tape.register _ ((.counting : Library Int).function 0) = _ from rfl))
  have hinput := hregister.step (.registerInput
    (show (Tape.registerInput _).outcome {} = _ from rfl))
  have hblock := hinput.mark.step (.pushBlock (fills_putAll [.uint8 1] [.uint8 9])
    (show (Tape.pushBlock _ 0 1 1 _).outcome {} = _ from rfl))
  have hstore := hblock.step (.store (show (Tape.store _ 0 [(3, 1)]).outcome {} = _ from rfl))
  exact ⟨_, _, _, _, hstore.mark, (((History.valid_mark _ _).extend _).extend _).mark _,
    History.valid_mark _ _, rfl⟩

/-- With something in slot zero the range is not cleared exactly. -/
theorem reuse_clearing_takes_blocks_for_targets_of_block :
    ∃ (t : Tape Int .reuse) (h : History Int) (p q : Position) (w : Adjoints Int),
      Reached .counting t h ∧ h.Valid p 1 ∧ h.Valid q 3 ∧ h.definedBetween 1 3 = [2] ∧
      Tape.clearBetween { t with adjoints := #[5, 6, 7] } p q .manual =
        .ok { t with adjoints := w } ∧
      w.size = 3 ∧ w.slot 0 = 0 ∧ w.slot 1 = 6 ∧ w.slot 2 = 0 ∧
      ¬t.Cleared .manual #[5, 6, 7] w (· ∈ h.definedBetween 1 3) := by
  obtain ⟨t, h, p, q, hr, hp, hq, hstatements⟩ := exists_block_in_range
  have hbetween : h.between 1 3 = [.block 0 0 [1] [9], .normal 2 [(3, 1)]] := by
    rw [History.between, hstatements]
    rfl
  have hdefined : h.definedBetween 1 3 = [2] := by
    show (h.between 1 3).flatMap Statement.defined = [2]
    rw [hbetween]
    rfl
  have hblock : h.BlockBetween 1 3 := by
    show ∃ x ∈ h.between 1 3, x.kind = .block
    rw [hbetween]
    exact ⟨_, List.mem_cons_self .., rfl⟩
  obtain ⟨w, hclear, ⟨hsize, hzero, hkept⟩, -, hexact⟩ :=
    reuse_clearing_takes_blocks_for_targets hr hp hq #[5, 6, 7] .manual
  refine ⟨t, h, p, q, w, hr, hp, hq, hdefined, hclear, hsize, hzero 0 (Or.inr ⟨rfl, hblock⟩),
    ?_, hzero 2 (Or.inl (hdefined ▸ List.mem_singleton_self 2)), ?_⟩
  · apply hkept
    rintro (hmem | ⟨hone, -⟩)
    · rw [hdefined] at hmem
      exact absurd hmem (by decide)
    · exact absurd hone (by decide)
  · rw [hexact]
    rintro (hfive | hnone)
    · exact absurd hfive (by decide)
    · exact hnone hblock

/-- A single block defines nothing, and yet clearing its range takes from slot zero what was set
there. -/
theorem clearing_wipes_dummy_slot :
    ∃ (t : Tape Int .reuse) (h : History Int) (q : Position),
      Reached .counting t h ∧ h.Valid .zero 0 ∧ h.Valid q 1 ∧
      h.statements = [.block 0 0 [1] [9]] ∧ h.definedBetween 0 1 = [] ∧
      t.setGradient 0 5 .relaxed = .ok (.ok { t with adjoints := #[5] }) ∧
      (Tape.clearBetween { t with adjoints := #[5] } .zero q .manual).map (fun t => t.adjoints) =
        .ok #[0] ∧
      ¬t.Cleared .manual #[5] #[0] (· ∈ h.definedBetween 0 1) := by
  have hcreate : Reached (.counting : Library Int) (s := .reuse) _ _ :=
    .create (show Tape.create {} #[] = _ from rfl)
  have hregister := hcreate.step (.register
    (show Tape.register _ ((.counting : Library Int).function 0) = _ from rfl))
  have hblock := hregister.step (.pushBlock (fills_putAll [.uint8 1] [.uint8 9])
    (show (Tape.pushBlock _ 0 1 1 _).outcome {} = _ from rfl))
  refine ⟨_, _, _, hblock.mark, History.valid_zero _, History.valid_mark _ _, rfl, rfl, rfl,
    by decide +kernel, fun hcleared => ?_⟩
  have hkept := hcleared.kept 0 List.not_mem_nil
  exact absurd hkept (by decide)

end Autodiff
