import Autodiff.Proofs.Block.Access
import Autodiff.Proofs.Tape.Clearing
import Autodiff.Proofs.Tape.Plain

/-!
# Sizing by the tape

A tape knows a bound for every identifier that its recording mentions, in statements, among their
arguments and in the bytes of blocks, wherever those were recorded first.  A vector that was sized
by that bound is large enough for every sweep over a range of the tape.
-/

namespace Autodiff

open Recording

/-! ## Blocks and what was written to them -/

namespace Tape

variable {F : Type} {s : Scheme} {t t' : Tape F s}

theorem kind_newAssignment {identifier : Nat} {arguments : List (F × Nat)} {x : Statement F}
    (hx : x ∈ t.newAssignment identifier arguments) : x.kind ≠ .block := by
  simp only [newAssignment] at hx
  split at hx
  · exact absurd hx List.not_mem_nil
  · rw [List.mem_singleton.1 hx]
    rintro ⟨⟩

theorem kind_newInput {identifier : Nat} {x : Statement F} (hx : x ∈ t.newInput identifier) :
    x.kind ≠ .block := by
  unfold newInput at hx
  split at hx
  · rw [List.mem_singleton.1 hx]
    rintro ⟨⟩
  · exact absurd hx List.not_mem_nil

/-- What the writing of a block left of the fields that it was given. -/
theorem pushBlock_written {token fixedSize dynamicSize : Nat}
    {write : Writer → Writer → Except Fault (Writer × Writer)} {fixed dynamic : Writer}
    {j j' : Journal} (hwrite : Fills write)
    (h : (t.pushBlock token fixedSize dynamicSize write).outcome j =
      (.ok (some (fixed, dynamic), t'), j')) :
    (∃ fs, Writer.putAll { capacity := fixedSize } fs = .ok fixed) ∧
      ∃ gs, Writer.putAll { capacity := dynamicSize } gs = .ok dynamic := by
  unfold pushBlock at h
  simp only [Run.outcome_check_eq_ok_iff, Run.outcome_bind_eq_ok_iff,
    Run.outcome_liftM_eq_ok_iff] at h
  obtain ⟨f, k, -, -, h⟩ := h
  split at h
  · simp only [Run.outcome_bind_eq_ok_iff, Run.outcome_pure_eq_ok_iff,
      Run.outcome_liftM_eq_ok_iff, Prod.mk.injEq, Option.some.injEq] at h
    obtain ⟨_, _, _, ⟨fixed', dynamic'⟩, _, ⟨hviews, -⟩, _, _, -, _, _, -, ⟨⟨rfl, rfl⟩, -⟩, -⟩ := h
    exact hwrite hviews
  · rw [Run.outcome_pure_eq_ok_iff, Prod.mk.injEq] at h
    exact absurd h.1.1 nofun

end Tape

section Reached

variable {F : Type} [Zero F] [One F] [FixedWidth F] {lib : Library F} {s : Scheme} {t : Tape F s}
  {h : History F}

/-- Every block of a tape was written somewhere, on this tape or on one that it was taken from. -/
theorem Reached.written (hr : Reached lib t h) :
    ∀ x ∈ h.statements, x.kind = .block → ∃ fs gs, x.Written fs gs := by
  refine hr.forall_statements (fun _ _ x hx hkind => absurd hkind (Tape.kind_newAssignment hx))
    (fun _ _ x hx hkind => absurd hkind (Tape.kind_newInput hx)) ?_
  intro s t t' token fixedSize dynamicSize write views j j' hwrite hc x hx hkind
  cases views with
  | none => exact absurd hx List.not_mem_nil
  | some views =>
    obtain ⟨⟨fs, hfs⟩, gs, hgs⟩ := Tape.pushBlock_written hwrite hc
    rw [List.mem_singleton.1 hx]
    exact ⟨fs, gs, token, _, _, _, _, hfs, hgs, rfl⟩

end Reached

/-! ## The bound -/

/-- A block names the passive identifier. -/
theorem Statement.target_le {F : Type} (x : Statement F) : x.target ≤ x.largest := by
  cases x with
  | input t => exact Nat.le_refl t
  | normal t entries => exact target_le_largest
  | block token largest fixed dynamic => exact Nat.zero_le largest

theorem Statement.entry_le {F : Type} {x : Statement F} {e : F × Nat} (he : e ∈ x.entries) :
    e.2 ≤ x.largest := by
  cases x with
  | normal t entries => exact entry_le_largest he
  | input | block => exact absurd he List.not_mem_nil

/-- The number of slots that every sweep over the tape can do with. -/
def Tape.requiredSize {F : Type} {s : Scheme} (t : Tape F s) : Nat := t.largestIdentifier + 1

section Aligned

variable {F : Type} {lib : Library F} {s : Scheme} {t : Tape F s} {h : History F}

theorem Aligned.lt_requiredSize (ht : Aligned lib t h) {x : Statement F} (hx : x ∈ h.statements)
    {n : Nat} (hn : n ≤ x.largest) : n < t.requiredSize := by
  have hlargest := ht.spells.largest x hx
  exact Nat.lt_succ_of_le (Nat.le_trans hn (Nat.le_trans hlargest (Nat.le_max_right _ _)))

theorem Aligned.target_lt (ht : Aligned lib t h) {item : Nat × Kind}
    (hitem : item ∈ t.recording.statements.toList) : item.1 < t.requiredSize := by
  rw [ht.spells.holds.statements] at hitem
  obtain ⟨x, hx, rfl⟩ := List.mem_map.1 hitem
  exact ht.lt_requiredSize hx x.target_le

theorem Aligned.argument_lt (ht : Aligned lib t h) {e : F × Nat}
    (he : e ∈ t.recording.partials.toList) : e.2 < t.requiredSize := by
  rw [ht.spells.holds.partials] at he
  obtain ⟨x, hx, he⟩ := List.mem_flatMap.1 he
  exact ht.lt_requiredSize hx (Statement.entry_le he)

variable [Zero F]

theorem Tape.requiredSize_le_ensure (t : Tape F s) (v : Adjoints F) :
    t.requiredSize ≤ (v.ensure t.largestIdentifier).size :=
  Adjoints.lt_size_ensure v t.largestIdentifier

variable [Add F] [Mul F] [BEq F] {p q : Position} {i k : Nat}

/-- In either direction a sweep over a range is one over a part of the history. -/
theorem Aligned.evaluateWith_ordered (ht : Aligned lib t h) (hp : h.Valid p i) (hq : h.Valid q k)
    {d : Direction} (hd : d.Ordered p q) (v : Adjoints F) :
    ∃ m n, Run.Agree (t.evaluateWith d p q v) (carryAll t.registry d (h.between m n) v) := by
  cases d with
  | forward => exact ⟨i, k, (ht.evaluateWith_agree hp hq hd v).1⟩
  | reverse => exact ⟨k, i, (ht.evaluateWith_agree hq hp hd v).2⟩

/-- Sweeps never leave a vector of the required size as long as the functions of the blocks keep to
what was written for them. -/
theorem Aligned.evaluateWith_ne_indexOutside (ht : Aligned lib t h)
    (hconfined : ∀ x ∈ h.statements, x.Confined t.registry) (hp : h.Valid p i) (hq : h.Valid q k)
    (d : Direction) {v : Adjoints F} (hv : t.requiredSize ≤ v.size) (j : Journal) (size n : Nat) :
    ((t.evaluateWith d p q v).outcome j).1 ≠ .error (.indexOutside size n) := by
  by_cases hd : d.Ordered p q
  · obtain ⟨m, l, hagree⟩ := ht.evaluateWith_ordered hp hq hd v
    have hmem {x : Statement F} (hx : x ∈ h.between m l) : x ∈ h.statements :=
      List.mem_of_mem_take (List.mem_of_mem_drop hx)
    have hlt : ∀ x ∈ h.between m l, x.largest < v.size := fun x hx =>
      Nat.lt_of_lt_of_le (ht.lt_requiredSize (hmem hx) (Nat.le_refl _)) hv
    intro herror
    rw [(hagree j j rfl).1] at herror
    -- On such a vector only an external function can fault, and none of them for lack of a slot.
    obtain ⟨token, largest, fixed, dynamic, f, w, hx, hf, hsize, hfault⟩ :=
      ht.fault_of_carryAll hlt herror
    have hw : largest < w.size := hsize.symm ▸ hlt _ hx
    exact (hconfined _ (hmem hx)).along_ne_indexOutside hf hw d size n hfault
  · intro herror
    simp only [Tape.evaluateWith, if_neg hd] at herror
    cases herror

theorem Aligned.evaluate_ne_indexOutside (ht : Aligned lib t h)
    (hconfined : ∀ x ∈ h.statements, x.Confined t.registry) (hp : h.Valid p i) (hq : h.Valid q k)
    (d : Direction) (j : Journal) (size n : Nat) :
    ((t.evaluate d p q .automatic).outcome j).1 ≠ .error (.indexOutside size n) := by
  have hsweep : ((t.evaluateWith d p q (t.prepare .automatic).adjoints).outcome j).1 ≠
      .error (.indexOutside size n) :=
    ht.evaluateWith_ne_indexOutside hconfined hp hq d (t.requiredSize_le_ensure t.adjoints) j size n
  rw [t.evaluate_eq, Run.outcome_bind]
  revert hsweep
  obtain ⟨x, j'⟩ := (t.evaluateWith d p q (t.prepare .automatic).adjoints).outcome j
  intro hsweep
  cases x with
  | error e => exact fun herror => hsweep (congrArg Except.error (Except.error.inj herror))
  | ok w => exact nofun

end Aligned

/-- Whatever a tape has been through, every identifier that its recording mentions has a slot in a
vector that the tape sizes: targets, arguments and what was written to blocks as an identifier.
Clearing a range of it comes to its end, and so far as the functions of the blocks go to the slots
that were written for them, no sweep ever leaves the vector. -/
theorem automatic_sizing_suffices {F : Type} [Zero F] [One F] [Add F] [Mul F] [BEq F]
    [FixedWidth F] {lib : Library F} {s : Scheme} {t : Tape F s} {h : History F}
    (hr : Reached lib t h) :
    (∀ item ∈ t.recording.statements.toList, item.1 < t.requiredSize) ∧
    (∀ e ∈ t.recording.partials.toList, e.2 < t.requiredSize) ∧
    (∀ x ∈ h.statements, x.kind = .block → (∃ fs gs, x.Written fs gs) ∧
      ∀ fs gs, x.Written fs gs →
        ∀ n ∈ (fs ++ gs).flatMap Field.identifiers, n < t.requiredSize) ∧
    ∀ {p q : Position} {i k : Nat}, h.Valid p i → h.Valid q k → ∀ v : Adjoints F,
      (∃ t', Tape.clearBetween { t with adjoints := v } p q .automatic = .ok t') ∧
      ((∀ x ∈ h.statements, x.Confined t.registry) → ∀ d j size n,
        ((Tape.evaluate { t with adjoints := v } d p q .automatic).outcome j).1 ≠
          .error (.indexOutside size n)) := by
  have ht := hr.aligned
  refine ⟨fun item => ht.target_lt, fun e => ht.argument_lt, fun x hx hkind => ?_,
    fun hp hq v => ?_⟩
  · exact ⟨hr.written x hx hkind,
      fun fs gs hwritten n hn => ht.lt_requiredSize hx (hwritten.le_largest n hn)⟩
  -- The size that the vector had before makes no difference, so any other vector will do.
  · have ht' := (hr.setVector v).aligned
    exact ⟨ht'.exists_clearBetween hp hq .automatic,
      fun hconfined d j size n => ht'.evaluate_ne_indexOutside hconfined hp hq d j size n⟩

/-- A tape with an input and a block that moves its slot to that of the identifier 7, which no tape
has issued. -/
theorem exists_transfer : ∃ (t : Tape Int .reuse) (h : History Int) (p q : Position),
    Reached External.transferring t h ∧ h.Valid p 1 ∧ h.Valid q 2 ∧
      h.statements = [.input 1, .block 0 7 [1, 0, 0, 0, 7, 0, 0, 0] []] ∧
      t.registry.get? 0 = some (External.transfer 0 "transfer" 0) := by
  have hcreate : Reached (External.transferring : Library Int) (s := .reuse) _ _ :=
    .create (show Tape.create ⟨2, 1, 1, 1, 3, true⟩ #[] = _ from rfl)
  have hregister := hcreate.step (.register
    (show Tape.register _ ((External.transferring : Library Int).function 0) = _ from rfl))
  have hinput := hregister.step (.registerInput
    (show (Tape.registerInput _).outcome {} = _ from rfl))
  have hblock := hinput.mark.step (.pushBlock (fills_putAll [.identifier 1, .identifier 7] [])
    (show (Tape.pushBlock _ 0 8 0 _).outcome {} = _ from rfl))
  exact ⟨_, _, _, _, hblock.mark, ((History.valid_mark _ _).extend _).mark _,
    History.valid_mark _ _, rfl, rfl⟩

/-- On that tape, for a vector without any slot. -/
theorem automatic_sizing_suffices_of_transfer :
    ∃ (t : Tape Int .reuse) (h : History Int) (p q : Position),
      Reached External.transferring t h ∧ h.Valid p 1 ∧ h.Valid q 2 ∧
      h.statements = [.input 1, .block 0 7 [1, 0, 0, 0, 7, 0, 0, 0] []] ∧
      (∀ x ∈ h.statements, x.Confined t.registry) ∧ 7 < t.requiredSize ∧
      (∃ t', Tape.clearBetween { t with adjoints := #[] } p q .automatic = .ok t') ∧
      ∀ d j size n, ((Tape.evaluate { t with adjoints := #[] } d p q .automatic).outcome j).1 ≠
        .error (.indexOutside size n) := by
  obtain ⟨t, h, p, q, hr, hp, hq, hstatements, hregistry⟩ := exists_transfer
  have hwritten : (Statement.block 0 7 [1, 0, 0, 0, 7, 0, 0, 0] [] : Statement Int).Written
      [.identifier 1, .identifier 7] [] :=
    ⟨0, 8, 0, _, _, rfl, rfl, rfl⟩
  have hconfined : ∀ x ∈ h.statements, x.Confined t.registry := by
    rw [hstatements, List.forall_mem_cons, List.forall_mem_singleton]
    have hends : External.endpoints (.ofList [1, 0, 0, 0, 7, 0, 0, 0]) = .ok (1, 7) := rfl
    exact ⟨fun item hitem => absurd hitem List.not_mem_nil,
      External.confined_transfer hregistry hwritten hends (by decide) (by decide)⟩
  obtain ⟨-, -, hblocks, hranges⟩ := automatic_sizing_suffices hr
  obtain ⟨hclear, hsweep⟩ := hranges hp hq #[]
  have hseven := (hblocks _ (hstatements ▸ List.mem_of_mem_getLast? rfl) rfl).2 _ _ hwritten 7
    (by decide)
  exact ⟨t, h, p, q, hr, hp, hq, hstatements, hconfined, hseven, hclear, hsweep hconfined⟩

end Autodiff
