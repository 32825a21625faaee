import Autodiff.Proofs.Program.Stale

/-!
# Settled vectors

A forward sweep over a linear tape leaves a vector that a second one leaves as it is.  No identifier
is given out twice, so no slot is written twice, and the arguments of an assignment have all been
given their values before it.  When the sweep is over, the slot of a target therefore still holds
the sum that was taken for it, and the slots that went into the sum have not changed since.
-/

namespace Autodiff

open Statement

/-! ## Statements -/

namespace Statement

variable {F : Type} [Zero F] [Add F] [Mul F] {ss : List (Statement F)} {u : Nat → F}

/-- The slot of every target holds the sum that a forward sweep takes for it from the slots of the
arguments. -/
def Settled (u : Nat → F) (ss : List (Statement F)) : Prop :=
  ∀ t entries, normal t entries ∈ ss → u t = gathered u entries 0

variable [BEq F]

theorem effect_forward_of_not_defined {x : Statement F} {i : Nat} (hi : i ∉ x.defined) :
    x.effect .forward u i = u i := by
  cases x with
  | input t => rfl
  | block token largest fixed dynamic => rfl
  | normal t entries => exact Function.update_of_ne (fun heq => hi (List.mem_singleton.2 heq)) _ u

/-- A forward sweep writes to targets only. -/
theorem effects_forward_of_not_defined {i : Nat} (hi : i ∉ ss.flatMap defined) :
    effects .forward ss u i = u i := by
  induction ss generalizing u with
  | nil => rfl
  | cons x ss ih =>
    rw [List.flatMap_cons, List.mem_append, not_or] at hi
    rw [effects_forward_cons, ih hi.2, effect_forward_of_not_defined hi.1]

/-- When no identifier is given out twice, a sweep leaves the slots settled. -/
theorem Grounded.settled {known : List Nat} (h : Grounded known ss)
    (hnodup : (known ++ ss.flatMap defined).Nodup) : Settled (effects .forward ss u) ss := by
  induction ss generalizing known u with
  | nil => exact fun t entries hx => absurd hx List.not_mem_nil
  | cons x ss ih =>
    rw [List.flatMap_cons, ← List.append_assoc] at hnodup
    intro t entries hx
    rw [effects_forward_cons]
    rcases List.mem_cons.1 hx with rfl | hx
    -- Neither the target nor an argument is given out again behind the statement.
    · have hlater : ∀ i ∈ known ++ [t], i ∉ ss.flatMap defined := fun i hi hmem =>
        List.disjoint_of_nodup_append hnodup hi hmem
      have hne : ∀ e ∈ entries, e.2 ≠ t := fun e he heq =>
        List.disjoint_of_nodup_append hnodup.of_append_left (h.1 e he)
          (heq ▸ List.mem_singleton_self t)
      have hkept : ∀ e ∈ entries,
          effects .forward ss ((normal t entries).effect .forward u) e.2 = u e.2 := by
        intro e he
        rw [effects_forward_of_not_defined (hlater e.2 (List.mem_append_left _ (h.1 e he)))]
        exact Function.update_of_ne (hne e he) _ u
      have htarget := effects_forward_of_not_defined (u := (normal t entries).effect .forward u)
        (hlater t (List.mem_append_right _ (List.mem_singleton_self t)))
      rw [htarget, gathered_congr hkept]
      exact Function.update_self t _ u
    · exact ih h.2 hnodup t entries hx

theorem Settled.effects_eq (h : Settled u ss) : effects .forward ss u = u := by
  induction ss with
  | nil => rfl
  | cons x ss ih =>
    have hx : x.effect .forward u = u := by
      cases x with
      | input t => rfl
      | block token largest fixed dynamic => rfl
      | normal t entries =>
        show Function.update u t (gathered u entries 0) = u
        rw [← h t entries (List.mem_cons_self ..), Function.update_eq_self]
    rw [effects_forward_cons, hx]
    exact ih fun t entries hmem => h t entries (List.mem_cons_of_mem _ hmem)

end Statement

theorem Scheme.Numbered.nodup {F : Type} {ss : List (Statement F)} (h : linear.Numbered ss) :
    (ss.flatMap defined).Nodup := by
  have hnumbered : ss.flatMap defined = List.range' 1 (linear.counterAfter ss) := h
  rw [hnumbered]
  exact List.nodup_range'

/-! ## Vectors -/

theorem Adjoints.eq_of_slot {F : Type} [Zero F] {v w : Adjoints F} (hsize : v.size = w.size)
    (hslot : v.slot = w.slot) : v = w := by
  apply Array.ext hsize
  intro i hi hi'
  rw [← slot_of_lt hi, ← slot_of_lt hi', hslot]

theorem Adjoints.ensure_of_lt {F : Type} [Zero F] {v : Adjoints F} {i : Nat} (h : i < v.size) :
    v.ensure i = v :=
  if_pos h

section Sweeps

variable {F : Type} [Zero F] [One F] [Add F] [Mul F] [BEq F] [FixedWidth F] {s : Scheme}
  {m : Machine F s} {ss : List (Statement F)} {w : Adjoints F}

/-- A vector that is long enough and settled stays as it is, to the last bit. -/
theorem Machine.Records.evaluateAll_settled (h : m.Records ss)
    (hsize : m.tape.largestIdentifier < w.size) (hsettled : Settled w.slot ss) :
    (Tape.evaluateAll { m.tape with adjoints := w } .forward).Yields
      { m.tape with adjoints := w } := by
  have hprepare : (Tape.prepare { m.tape with adjoints := w } .automatic).adjoints = w :=
    Adjoints.ensure_of_lt hsize
  obtain ⟨w', hyields, hsize', hslot⟩ := Tape.exists_evaluate (h.reached.setVector w).aligned
    h.plain .forward .automatic fun x hx => by
      rw [hprepare]
      exact Nat.lt_of_le_of_lt (h.largest_le hx) hsize
  rw [hprepare] at hsize'
  obtain rfl : w' = w := Adjoints.eq_of_slot hsize' (hslot.trans hsettled.effects_eq)
  exact hyields

end Sweeps

/-! ## Programs -/

section Program

variable {F : Type} [Zero F] [One F] [Add F] [Sub F] [Mul F] [Div F] [Neg F] [IntCast F]
  [Elementary F] [FixedWidth F] [BEq F] {cs : List (Command F)}

/-- A program for which the identifiers last comes to its end on a new linear tape.  Whatever the
vector holds then, a forward sweep over the whole tape comes to its end, and behind it the slot of
every target is the sum, from zero and from left to right, of the partial derivatives times the
slots of the arguments in that same vector.  A second sweep leaves the vector as it is. -/
theorem forward_sweeps_settle_linear_tapes {c : Settings} {u : Adjoints F} {t : Tape F .linear}
    (ht : Tape.create c u = .ok t) (hcs : ∀ c ∈ cs, c.Fits)
    (hids : (Machine.start t).Affords cs) :
    ∃ (m : Machine F .linear) (ss : List (Statement F)), (runAll cs (.start t)).Yields m ∧
      m.tape.recording.Holds ss ∧
      ∀ v : Adjoints F, ∃ w,
        (Tape.evaluateAll { m.tape with adjoints := v } .forward).Yields
          { m.tape with adjoints := w } ∧
        (Tape.evaluateAll { m.tape with adjoints := w } .forward).Yields
          { m.tape with adjoints := w } ∧
        ∀ target entries, .normal target entries ∈ ss →
          ∃ y, w[target]? = some y ∧ Statement.gather w entries 0 = .ok y := by
  obtain ⟨ss, m, hyields, hrecords, hgrounded, -, -⟩ := exists_recorded ht hcs hids
  have hnodup : (ss.flatMap defined).Nodup := hrecords.reached.numbered.nodup
  refine ⟨m, ss, hyields, hrecords.holds, fun v => ?_⟩
  obtain ⟨w, hsweep, hsize, hslot⟩ := hrecords.exists_evaluateAll v .forward
  have hsettled : Settled w.slot ss := hslot ▸ hgrounded.settled hnodup
  refine ⟨w, hsweep, hrecords.evaluateAll_settled hsize hsettled, fun target entries hx => ?_⟩
  have hlargest := Nat.lt_of_le_of_lt (hrecords.largest_le hx) hsize
  have htarget : target < w.size := Nat.lt_of_le_of_lt target_le_largest hlargest
  refine ⟨w.slot target, Adjoints.getElem?_eq_slot htarget, ?_⟩
  rw [hsettled target entries hx]
  exact gather_eq_ok (fun e he => Nat.lt_of_le_of_lt (entry_le_largest he) hlargest) 0

/-- The first factor is overwritten by the product, and the product by its negation. -/
def inPlace : List (Command Int) :=
  [.input 0 5, .input 1 7, .applyWith 0 .mul 1, .apply 0 .neg]

/-- What one sweep over that makes of a vector that is too short. -/
theorem exists_tape_in_place : ∃ t : Tape Int .linear,
    Tape.create ⟨2, 1, 1, 1, 3, true⟩ #[] = .ok t ∧
    ((runAll inPlace (.start t) >>= fun m =>
      Tape.evaluateAll { m.tape with adjoints := #[9, 1, 2, 8] } .forward).outcome {}).1.map
        (fun t => t.adjoints) = .ok #[9, 1, 2, 17, -17, 0, 0, 0] :=
  ⟨_, rfl, by decide +kernel⟩

/-- A second sweep over that. -/
theorem forward_sweeps_settle_linear_tapes_of_in_place :
    ∃ (t : Tape Int .linear) (m : Machine Int .linear) (ss : List (Statement Int)),
      Tape.create ⟨2, 1, 1, 1, 3, true⟩ #[] = .ok t ∧ (∀ c ∈ inPlace, c.Fits) ∧
      (runAll inPlace (.start t)).Yields m ∧ m.tape.recording.Holds ss ∧
      (Tape.evaluateAll { m.tape with adjoints := #[9, 1, 2, 8] } .forward).Yields
        { m.tape with adjoints := #[9, 1, 2, 17, -17, 0, 0, 0] } ∧
      (Tape.evaluateAll { m.tape with adjoints := #[9, 1, 2, 17, -17, 0, 0, 0] } .forward).Yields
        { m.tape with adjoints := #[9, 1, 2, 17, -17, 0, 0, 0] } ∧
      ∀ target entries, .normal target entries ∈ ss →
        ∃ y, (#[9, 1, 2, 17, -17, 0, 0, 0] : Adjoints Int)[target]? = some y ∧
          Statement.gather #[9, 1, 2, 17, -17, 0, 0, 0] entries 0 = .ok y := by
  obtain ⟨t, hcreate, hswept⟩ := exists_tape_in_place
  have hfits : ∀ c ∈ inPlace, c.Fits := by
    simp [inPlace, Command.Fits, Operation.isBinary]
  obtain ⟨m, ss, hm, hholds, hall⟩ := forward_sweeps_settle_linear_tapes hcreate hfits
    (Machine.affords_of_create hcreate hfits (by decide))
  obtain ⟨w, hsweep, hagain, hsums⟩ := hall #[9, 1, 2, 8]
  rw [hm.bind hsweep {}] at hswept
  obtain rfl : w = #[9, 1, 2, 17, -17, 0, 0, 0] := Except.ok.inj hswept
  exact ⟨t, m, ss, hcreate, hfits, hm, hholds, hsweep, hagain, hsums⟩

end Program

end Autodiff
