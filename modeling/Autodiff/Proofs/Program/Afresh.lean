import Autodiff.Proofs.Program.Grounded
import Autodiff.Proofs.Program.Reuse

/-!
# Starting afresh

Once the slots of the whole tape were cleared, seeding a variable and sweeping in reverse gives what
it gives on a vector of zeros, to the last bit, whatever seeds and sweeps had left in the vector.
Slots that no statement gives a value may still hold anything: nothing on the tape reads them.
-/

namespace Autodiff

open Statement

/-! ## Seeding and sweeping -/

section Differentiate

variable {F : Type} [Zero F] {s : Scheme}

/-- Seed a variable and sweep the whole tape in reverse. -/
def Tape.differentiate [Add F] [Mul F] [BEq F] (t : Tape F s) (a : Variable F) (x : F) :
    Run (Tape F s) := do
  let t ← t.seedOf a x
  t.evaluateAll .reverse

variable [One F] [FixedWidth F] {m : Machine F s} {ss : List (Statement F)}

theorem Machine.Records.exists_differentiated [Add F] [Mul F] [BEq F] (h : m.Records ss)
    (v : Adjoints F) {out : Nat} (hout : m.identifier out ≠ passive) (x : F) :
    ∃ w, (Tape.differentiate { m.tape with adjoints := v } (m.variableOf out) x).Yields
        { m.tape with adjoints := w } ∧ m.tape.largestIdentifier < w.size ∧
      w.slot = effects .reverse ss (Function.update v.slot (m.identifier out) x) := by
  obtain ⟨v₁, hseed, hslot⟩ :=
    Tape.exists_seed (t := { m.tape with adjoints := v }) hout x
  obtain ⟨w, hsweep, hsize, hw⟩ := h.exists_evaluateAll v₁ .reverse
  rw [hslot] at hw
  exact ⟨w, (Run.yields_liftM hseed).bind hsweep, hsize, hw⟩

/-- Clearing the whole tape reaches the slots of all statements, also those that the vector did not
have before. -/
theorem Machine.Records.exists_cleared (h : m.Records ss) (v : Adjoints F) :
    ∃ w, Tape.clearBetween { m.tape with adjoints := v } m.tape.position .zero .automatic =
        .ok { m.tape with adjoints := w } ∧ ∀ i ∈ ss.flatMap defined, w.slot i = 0 := by
  have hreached := (h.reached.setVector v).mark
  have hzero := (History.valid_zero { statements := ss }).mark m.tape.position
  have hend := History.valid_mark { statements := ss } m.tape.position
  have hle := (hreached.aligned.le_iff hzero hend).2 (Nat.zero_le _)
  obtain ⟨w, hclear, -, hslot⟩ := hreached.aligned.exists_cleared hzero hend hle .automatic
  refine ⟨w, hclear, fun i hi => (hslot i).1 ?_⟩
  apply hreached.clears_of_mem_defined hzero hend hle
  rwa [History.between_mark, List.drop_zero]

end Differentiate

/-! ## Programs -/

section Program

variable {F : Type} [Zero F] [One F] [Add F] [Sub F] [Mul F] [Div F] [Neg F] [IntCast F]
  [Elementary F] [FixedWidth F] [BEq F] {s : Scheme} {cs : List (Command F)}

/-- A program for which the identifiers last comes to its end on a new tape.  Whatever the vector
holds then and however long it is, clearing it between the two ends of the tape, in either order,
and differentiating an active variable leaves in all slots that the recording names what
differentiating leaves there that starts from zeros. -/
theorem clearing_restores_a_fresh_sweep {c : Settings} {u : Adjoints F} {t : Tape F s}
    (ht : Tape.create c u = .ok t) (hcs : ∀ c ∈ cs, c.Fits)
    (hids : (Machine.start t).Affords cs) :
    ∃ m : Machine F s, (runAll cs (.start t)).Yields m ∧
      ∀ (v : Adjoints F) (n out : Nat) (x : F), m.identifier out ≠ passive →
        ∃ (t₁ : Tape F s) (w w' : Adjoints F),
          Tape.clearBetween { m.tape with adjoints := v } .zero m.tape.position .automatic =
            .ok t₁ ∧
          Tape.clearBetween { m.tape with adjoints := v } m.tape.position .zero .automatic =
            .ok t₁ ∧
          (t₁.differentiate (m.variableOf out) x).Yields { m.tape with adjoints := w } ∧
          (Tape.differentiate { m.tape with adjoints := .ofSize n } (m.variableOf out) x).Yields
            { m.tape with adjoints := w' } ∧
          ∀ i, m.tape.recording.Names i → ∃ y, w[i]? = some y ∧ w'[i]? = some y := by
  have hstart := Machine.records_start ht
  obtain ⟨ss, m, hpath⟩ := hids.exists_path hcs hstart.owned
  have hrecords := hpath.records hstart
  have hgrounded := (hpath.grounded (Machine.known_start t)).1
  rw [List.nil_append] at hrecords
  -- Every name is that of a target, so clearing reaches the slots of all of them.
  have hnames {x : Statement F} (hx : x ∈ ss) {i : Nat} (hi : x.Names i) :
      i ∈ ss.flatMap defined := hgrounded.mem_of_names hx hi
  refine ⟨m, hpath.yields, fun v n out x hout => ?_⟩
  obtain ⟨v₁, hclear, hzero⟩ := hrecords.exists_cleared v
  obtain ⟨w, hsweep, hsize, hw⟩ := hrecords.exists_differentiated v₁ hout x
  obtain ⟨w', hsweep', hsize', hw'⟩ := hrecords.exists_differentiated (.ofSize n) hout x
  refine ⟨_, w, w', (Tape.clearBetween_comm _ _ _ _).trans hclear, hclear, hsweep, hsweep',
    fun i hi => ?_⟩
  obtain ⟨y, hy, hyi⟩ := hrecords.holds.exists_names hi
  have hmem := hnames hy hyi
  have hseeded := update_congr (N := fun i => i ∈ ss.flatMap defined)
    (fun i hi => (hzero i hi).trans (Adjoints.slot_ofSize n i).symm) (m.identifier out) x
  have hsame : w.slot i = w'.slot i := by
    rw [hw, hw']
    exact effects_congr (fun y hy i hi => hnames hy (Or.inl hi)) .reverse hseeded i hmem
  have hle : i ≤ m.tape.largestIdentifier := hrecords.name_le hy hyi
  refine ⟨w.slot i, Adjoints.getElem?_eq_slot (Nat.lt_of_le_of_lt hle hsize), ?_⟩
  rw [hsame]
  exact Adjoints.getElem?_eq_slot (Nat.lt_of_le_of_lt hle hsize')

end Program

/-- The product on a new tape that uses identifiers again, differentiated from zeros: the slot of
the first factor. -/
theorem exists_tape_afresh : ∃ t : Tape Int .reuse,
    Tape.create ⟨2, 1, 1, 1, 3, true⟩ #[] = .ok t ∧
    ((runAll product (.start t)).outcome {}).1.map (fun m =>
      (m.identifier 3, decide (m.tape.recording.Names 1))) = .ok (3, true) ∧
    ((runAll product (.start t) >>= fun m =>
      Tape.differentiate { m.tape with adjoints := .ofSize 0 } (m.variableOf 3) 1).outcome {}).1.map
        (fun t => t.adjoints[1]?) = .ok (some 7) :=
  ⟨_, rfl, by decide +kernel, by decide +kernel⟩

/-- The same from a vector in which something was left in every slot. -/
theorem clearing_restores_a_fresh_sweep_of_product :
    ∃ (t t₁ : Tape Int .reuse) (m : Machine Int .reuse) (w : Adjoints Int),
      Tape.create ⟨2, 1, 1, 1, 3, true⟩ #[] = .ok t ∧ (∀ c ∈ product, c.Fits) ∧
      (runAll product (.start t)).Yields m ∧ m.identifier 3 ≠ passive ∧
      m.tape.recording.Names 1 ∧
      Tape.clearBetween { m.tape with adjoints := #[9, 8, 7, 6, 5] } .zero m.tape.position
        .automatic = .ok t₁ ∧
      (t₁.differentiate (m.variableOf 3) 1).Yields { m.tape with adjoints := w } ∧
      w[1]? = some 7 := by
  obtain ⟨t, hcreate, hrun, hzeros⟩ := exists_tape_afresh
  have hfits : ∀ c ∈ product, c.Fits := by
    simp [product, Command.Fits, Operation.isBinary]
  obtain ⟨m, hm, hall⟩ := clearing_restores_a_fresh_sweep hcreate hfits
    (Machine.affords_of_create hcreate hfits (by decide))
  rw [hm {}] at hrun
  have hvalues := Except.ok.inj hrun
  have hactive : m.identifier 3 ≠ passive := by
    rw [show m.identifier 3 = 3 from congrArg Prod.fst hvalues]
    decide
  have hnames : m.tape.recording.Names 1 := of_decide_eq_true (congrArg Prod.snd hvalues)
  obtain ⟨t₁, w, w', hclear, -, hsweep, hsweep', hsame⟩ := hall #[9, 8, 7, 6, 5] 0 3 1 hactive
  obtain ⟨y, hy, hy'⟩ := hsame 1 hnames
  -- The sweep from zeros was run above, and it has one answer only.
  rw [hm.bind hsweep' {}] at hzeros
  have hseven : y = 7 := by
    have hslot : w'[1]? = some 7 := Except.ok.inj hzeros
    rw [hy'] at hslot
    exact Option.some.inj hslot
  exact ⟨t, t₁, m, w, hcreate, hfits, hm, hactive, hnames, hclear, hsweep, hseven ▸ hy⟩

end Autodiff
