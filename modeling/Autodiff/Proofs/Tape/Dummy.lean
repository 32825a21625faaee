import Autodiff.Proofs.Block.Access
import Autodiff.Proofs.Program.Stock
import Autodiff.Proofs.Tape.Clearing
import Autodiff.Proofs.Tape.Plain
import Autodiff.Proofs.Tape.Scratch
import Autodiff.Proofs.Tape.Splitting
import Autodiff.Tape.Gradients

/-!
# The dummy slot

Identifier zero stands for every passive variable, and slot zero answers relaxed reads outside the
vector.  The answer is zero because nothing writes to the slot: a supply never issues identifier
zero, so that no assignment has it for a target, passive arguments are left out of what is recorded,
and the zero that the stream of the statements holds for a block is not a target.  What remains are
external functions and the program itself, which can leave the slot alone.
-/

namespace Autodiff

open Run

/-! ## Statements that leave a slot alone -/

namespace Statement

variable {F : Type} [Zero F] {g : Registry F} {i : Nat}

/-- The function of a block leaves the slot as it finds it. -/
def Spares (g : Registry F) (i : Nat) : Statement F → Prop
  | block token _ fixed dynamic => ∀ f d v w, g.get? token = some f →
      f.along d (.ofList fixed) (.ofList dynamic) v = .ok w → w.slot i = v.slot i
  | _ => True

theorem slot_propagate_of_spares [Add F] [Mul F] [BEq F] {x : Statement F} (hassigns : ¬x.Assigns i)
    (hspares : x.Spares g i) {d : Direction} {v w : Adjoints F} (h : x.propagate g d v = .ok w) :
    w.slot i = v.slot i := by
  by_cases hx : x.kind = .block
  -- What a block does is up to its function alone.
  · cases x with
    | input t => cases hx
    | normal t entries => cases hx
    | block token largest fixed dynamic =>
      rw [propagate, Fault.bind_eq_ok_iff] at h
      obtain ⟨f, hexpect, h⟩ := h
      have halong : f.along d (.ofList fixed) (.ofList dynamic) v = .ok w := by
        cases d <;> exact h
      exact hspares f d v w (Registry.expect_eq_ok_iff.1 hexpect) halong
  · rw [slot_propagate hx h]
    exact effect_of_not_assigns hassigns d v.slot

end Statement

/-- A slot that is neither end of the move is spared. -/
theorem External.spares_transfer {F : Type} [Zero F] [Add F] [IntCast F] {g : Registry F}
    {token key largest a b i : Nat} {fixed dynamic : List UInt8}
    (hg : g.get? token = some (transfer key "transfer" 0))
    (hends : endpoints (.ofList fixed) = .ok (a, b)) (ha : i ≠ a) (hb : i ≠ b) :
    (Statement.block token largest fixed dynamic).Spares g i := by
  intro f d v w hf hrun
  cases hg.symm.trans hf
  rw [along_transfer] at hrun
  have hwithin : (moving d (.ofList fixed) : Access F).Within [a, b] :=
    within_moving hends (List.mem_cons_self ..) (List.mem_cons_of_mem _ (List.mem_cons_self ..)) d
  apply Access.slot_run hwithin _ hrun
  simp [ha, hb]

/-! ## What is never recorded -/

theorem Supply.claim_ne_passive {s : Scheme} {supply supply' : Supply s} {old i : Nat}
    (h : supply.Sound) (hc : supply.claim old = .ok (i, supply')) : i ≠ passive := by
  rcases claim_cases hc with hgenerate | ⟨-, hne, rfl, -⟩
  · exact (generate_spec h hgenerate).1
  · exact hne

theorem Tape.not_assigns_newAssignment {F : Type} {s : Scheme} {t t' : Tape F s}
    (hsound : t.supply.Sound) {target identifier : Nat} {arguments : List (F × Nat)}
    {j j' : Journal} (hc : (t.store target arguments).outcome j = (.ok (identifier, t'), j')) :
    ∀ x ∈ t.newAssignment identifier arguments, ¬x.Assigns passive := by
  intro x hx
  rcases store_cases hc with ⟨hnew, -⟩ | ⟨_, _, -, -, hclaim, -⟩
  · rw [hnew] at hx
    exact absurd hx List.not_mem_nil
  · simp only [newAssignment] at hx
    split at hx
    · exact absurd hx List.not_mem_nil
    · rw [List.mem_singleton.1 hx]
      rintro (htarget | ⟨e, he, hpassive⟩)
      · exact Supply.claim_ne_passive hsound hclaim htarget
      -- A passive argument does not pass the filter.
      · have hactive := (List.mem_filter.1 he).2
        rw [hpassive] at hactive
        cases hactive

/-- Identifier zero is neither a target nor an argument of what a tape holds. -/
theorem Reached.not_assigns_passive {F : Type} [Zero F] [One F] [FixedWidth F] {lib : Library F}
    {s : Scheme} {t : Tape F s} {h : History F} (hr : Reached lib t h) :
    ∀ x ∈ h.statements, ¬x.Assigns passive := by
  refine hr.forall_statements ?_ ?_ ?_
  · intro s t t' h target identifier arguments j j' hr hc
    exact Tape.not_assigns_newAssignment hr.sound hc
  · intro s t t' h identifier j j' _ _ x hx
    unfold Tape.newInput at hx
    split at hx
    · rw [List.mem_singleton.1 hx]
      exact id
    · exact absurd hx List.not_mem_nil
  · intro s t t' token fixedSize dynamicSize write views j j' _ _ x hx
    cases views with
    | none => exact absurd hx List.not_mem_nil
    | some views =>
      rw [List.mem_singleton.1 hx]
      exact id

/-! ## Steps with the vector -/

section Vector

variable {F : Type} [Zero F] [Add F] [Mul F] [BEq F] {lib : Library F} {s : Scheme}
  {t t' : Tape F s} {h : History F} {p q : Position} {i k n : Nat}

theorem Aligned.slot_evaluate (ht : Aligned lib t h) (hp : h.Valid p i) (hq : h.Valid q k)
    (hassigns : ∀ x ∈ h.statements, ¬x.Assigns n)
    (hspares : ∀ x ∈ h.statements, x.Spares t.registry n) {d : Direction} {management : Management}
    {j j' : Journal} (hc : (t.evaluate d p q management).outcome j = (.ok t', j')) :
    ∃ v, t' = { t with adjoints := v } ∧ v.slot n = t.adjoints.slot n := by
  rw [Tape.evaluate_eq, outcome_bind_eq_ok_iff] at hc
  obtain ⟨v, k, hsweep, hc⟩ := hc
  cases (outcome_pure_eq_ok_iff.1 hc).1
  -- Positions in the wrong order would have been refused.
  have hordered : d.Ordered p q := by
    simp only [Tape.evaluateWith, outcome_check_eq_ok_iff] at hsweep
    exact hsweep.1
  refine ⟨v, rfl, ?_⟩
  rw [← Tape.slot_prepare t management]
  refine ht.evaluateWith_keeps (P := fun u => u.slot n = (t.prepare management).adjoints.slot n)
    hp hq hordered (fun x hx u u' hu hstep => ?_) rfl hsweep
  exact (Statement.slot_propagate_of_spares (hassigns x hx) (hspares x hx) hstep).trans hu

theorem Aligned.slot_evaluateAll (ht : Aligned lib t h)
    (hassigns : ∀ x ∈ h.statements, ¬x.Assigns n)
    (hspares : ∀ x ∈ h.statements, x.Spares t.registry n) {d : Direction} {j j' : Journal}
    (hc : (t.evaluateAll d).outcome j = (.ok t', j')) :
    ∃ v, t' = { t with adjoints := v } ∧ v.slot n = t.adjoints.slot n := by
  rw [Tape.evaluateAll_eq] at hc
  -- The end of the tape is a position like any that was kept.
  have hstart := History.valid_zero (h.mark t.position)
  have hend := h.valid_mark t.position
  cases d with
  | forward => exact ht.mark.slot_evaluate hstart hend hassigns hspares hc
  | reverse => exact ht.mark.slot_evaluate hend hstart hassigns hspares hc

omit [Add F] [Mul F] [BEq F] in
/-- Clearing changes a slot to zero or not at all. -/
theorem Aligned.slot_clearBetween (ht : Aligned lib t h) (hp : h.Valid p i) (hq : h.Valid q k)
    {management : Management} (hc : t.clearBetween p q management = .ok t') :
    ∃ v, t' = { t with adjoints := v } ∧ (v.slot n = 0 ∨ v.slot n = t.adjoints.slot n) := by
  have hordered {p q : Position} {i k : Nat} (hp : h.Valid p i) (hq : h.Valid q k) (hle : p ≤ q)
      (hc : t.clearBetween q p management = .ok t') :
      ∃ v, t' = { t with adjoints := v } ∧ (v.slot n = 0 ∨ v.slot n = t.adjoints.slot n) := by
    obtain ⟨v, hclear, -, hslot⟩ := ht.exists_cleared hp hq hle management
    cases hclear.symm.trans hc
    refine ⟨v, rfl, ?_⟩
    by_cases hn : s.Clears p q (h.between i k) n
    · exact Or.inl ((hslot n).1 hn)
    · right
      rw [(hslot n).2 hn, Tape.slot_prepare]
  rcases Position.le_total p q with hle | hle
  · rw [Tape.clearBetween_comm] at hc
    exact hordered hp hq hle hc
  · exact hordered hq hp hle hc

omit [Add F] [Mul F] [BEq F] in
theorem Tape.modifyGradient_cases {identifier : Nat} {checking : Checking} {f : F → F} {y : F}
    (hc : t.modifyGradient identifier checking f = .ok (.ok (y, t'))) :
    ∃ v, t' = { t with adjoints := v } ∧ y = f (t.adjoints.slot identifier) ∧
      v.slot = Function.update t.adjoints.slot identifier y := by
  -- What happens to the vector `u` in which the slot is looked for.
  have hwritten {u : Adjoints F} (hu : u.slot = t.adjoints.slot) {outside : Prop}
      [Decidable outside] {refusal : Refusal}
      (hc : (if outside then return .error refusal else do
          let x ← u.fetch identifier
          let v ← u.put identifier (f x)
          return .ok (f x, { t with adjoints := v })) =
        (.ok (.ok (y, t')) : Except Fault (Except Refusal (F × Tape F s)))) :
      ∃ v, t' = { t with adjoints := v } ∧ y = f (t.adjoints.slot identifier) ∧
        v.slot = Function.update t.adjoints.slot identifier y := by
    split at hc
    · cases hc
    · simp only [Fault.bind_eq_ok_iff] at hc
      obtain ⟨x, hfetch, v, hput, hc⟩ := hc
      cases hc
      refine ⟨v, rfl, ?_, ?_⟩
      · rw [Adjoints.eq_slot_of_fetch hfetch, hu]
      · rw [Adjoints.slot_put hput, hu]
  unfold modifyGradient at hc
  cases checking with
  | relaxed => exact hwritten (Adjoints.slot_ensure _ _) hc
  | strict | off => exact hwritten rfl hc

omit [Add F] [Mul F] [BEq F] in
/-- A slot is changed through a reference to it only. -/
theorem Tape.slot_modifyGradient {identifier : Nat} {checking : Checking} {f : F → F} {y : F}
    (hsame : identifier = n → ∀ x, f x = x)
    (hc : t.modifyGradient identifier checking f = .ok (.ok (y, t'))) :
    ∃ v, t' = { t with adjoints := v } ∧ v.slot n = t.adjoints.slot n := by
  obtain ⟨v, rfl, hy, hslot⟩ := modifyGradient_cases hc
  refine ⟨v, rfl, ?_⟩
  rw [hslot]
  by_cases hn : identifier = n
  · rw [hn, Function.update_self, hy, hsame hn, hn]
  · apply Function.update_of_ne
    exact Ne.symm hn

omit [Add F] [Mul F] [BEq F] in
theorem Tape.exists_modifyGradient_of_setGradient {identifier : Nat} {checking : Checking} {x : F}
    (hc : t.setGradient identifier x checking = .ok (.ok t')) :
    ∃ y, t.modifyGradient identifier checking (fun _ => x) = .ok (.ok (y, t')) := by
  rw [setGradient, Fault.bind_eq_ok_iff] at hc
  obtain ⟨answer, hmodify, hc⟩ := hc
  cases answer with
  | error refusal => cases hc
  | ok answer =>
    cases hc
    exact ⟨answer.1, hmodify⟩

/-- A step of a session that has to do with the vector and writes nothing to slot zero, through a
reference or by an external function.  Reads are not among the steps, since they give no tape, and
neither are sweeps with a vector of the caller's. -/
inductive VectorStep [FixedWidth F] (h : History F) : Tape F s → Tape F s → Prop
  | evaluate {t t' : Tape F s} {d : Direction} {p q : Position} {i k : Nat}
      {management : Management} {j j' : Journal} :
    (∀ x ∈ h.statements, x.Spares t.registry passive) → h.Valid p i → h.Valid q k →
      (t.evaluate d p q management).outcome j = (.ok t', j') → VectorStep h t t'
  | evaluateAll {t t' : Tape F s} {d : Direction} {j j' : Journal} :
    (∀ x ∈ h.statements, x.Spares t.registry passive) →
      (t.evaluateAll d).outcome j = (.ok t', j') → VectorStep h t t'
  | clearBetween {t t' : Tape F s} {p q : Position} {i k : Nat} {management : Management} :
    h.Valid p i → h.Valid q k → t.clearBetween p q management = .ok t' → VectorStep h t t'
  | clearAll {t : Tape F s} : VectorStep h t t.clearAllAdjoints
  | resize {t t' : Tape F s} {n : Nat} : t.resizeAdjoints n = .ok t' → VectorStep h t t'
  | ensure {t t' : Tape F s} {i : Nat} : t.ensureAdjoint i = .ok t' → VectorStep h t t'
  | seed {t t' : Tape F s} {identifier : Nat} {x : F} :
    t.seed identifier x = .ok t' → VectorStep h t t'
  | setGradient {t t' : Tape F s} {identifier : Nat} {x : F} {checking : Checking} :
    identifier ≠ passive → t.setGradient identifier x checking = .ok (.ok t') → VectorStep h t t'
  /-- A reference to slot zero may be taken if nothing is changed through it. -/
  | modifyGradient {t t' : Tape F s} {identifier : Nat} {checking : Checking} {f : F → F} {y : F} :
    (identifier = passive → ∀ x, f x = x) →
      t.modifyGradient identifier checking f = .ok (.ok (y, t')) → VectorStep h t t'

theorem VectorStep.exists_vector [FixedWidth F] (ht : Aligned lib t h)
    (hassigns : ∀ x ∈ h.statements, ¬x.Assigns passive) (hstep : VectorStep h t t')
    (hzero : t.adjoints.slot passive = 0) :
    ∃ v, t' = { t with adjoints := v } ∧ v.slot passive = 0 := by
  cases hstep with
  | evaluate hspares hp hq hc =>
    obtain ⟨v, rfl, hslot⟩ := ht.slot_evaluate hp hq hassigns hspares hc
    exact ⟨v, rfl, hslot.trans hzero⟩
  | evaluateAll hspares hc =>
    obtain ⟨v, rfl, hslot⟩ := ht.slot_evaluateAll hassigns hspares hc
    exact ⟨v, rfl, hslot.trans hzero⟩
  | clearBetween hp hq hc =>
    obtain ⟨v, rfl, hslot⟩ := ht.slot_clearBetween (n := passive) hp hq hc
    exact ⟨v, rfl, hslot.elim id fun hsame => hsame.trans hzero⟩
  | clearAll => exact ⟨_, rfl, Adjoints.slot_clear _ _⟩
  | resize hc =>
    rw [Tape.resizeAdjoints, Fault.bind_eq_ok_iff] at hc
    obtain ⟨v, hresize, hc⟩ := hc
    cases hc
    refine ⟨v, rfl, ?_⟩
    rw [Adjoints.eq_resize_of_resizeTo hresize, Adjoints.slot_resize_apply, hzero, ite_self]
  | ensure hc =>
    rw [Tape.ensureAdjoint, Fault.bind_eq_ok_iff] at hc
    obtain ⟨v, hreach, hc⟩ := hc
    cases hc
    refine ⟨v, rfl, ?_⟩
    rw [Adjoints.eq_ensure_of_reach hreach, Adjoints.slot_ensure, hzero]
  | @seed _ identifier x hc =>
    -- A seed for identifier zero is dropped.
    by_cases hidentifier : identifier = passive
    · rw [Tape.seed, if_pos hidentifier] at hc
      cases hc
      exact ⟨_, rfl, hzero⟩
    · obtain ⟨v, hseed, hslot⟩ := Tape.exists_seed (t := t) hidentifier x
      cases hseed.symm.trans hc
      refine ⟨v, rfl, ?_⟩
      rw [hslot, Function.update_of_ne (Ne.symm hidentifier), hzero]
  | setGradient hidentifier hc =>
    obtain ⟨y, hmodify⟩ := Tape.exists_modifyGradient_of_setGradient hc
    obtain ⟨v, rfl, hslot⟩ :=
      Tape.slot_modifyGradient (fun hpassive => absurd hpassive hidentifier) hmodify
    exact ⟨v, rfl, hslot.trans hzero⟩
  | modifyGradient hsame hc =>
    obtain ⟨v, rfl, hslot⟩ := Tape.slot_modifyGradient hsame hc
    exact ⟨v, rfl, hslot.trans hzero⟩

end Vector

/-! ## Steps with the recording -/

section Recording

variable {F : Type} [Zero F] [One F] [FixedWidth F] {lib : Library F}

variable {s : Scheme} {t t' : Tape F s} {h h' : History F}

omit [Zero F] [One F] [FixedWidth F] in
theorem Tape.adjoints_release {identifier : Nat} (hc : t.release identifier = .ok t') :
    t'.adjoints = t.adjoints := by
  obtain ⟨supply, -, rfl⟩ := release_eq_ok_iff.1 hc
  rfl

omit [Zero F] [One F] [FixedWidth F] in
theorem Tape.adjoints_store {target identifier : Nat} {arguments : List (F × Nat)} {j j' : Journal}
    (hc : (t.store target arguments).outcome j = (.ok (identifier, t'), j')) :
    t'.adjoints = t.adjoints := by
  rcases store_cases hc with ⟨-, -, hrelease⟩ | ⟨_, _, -, -, -, rfl⟩
  · exact adjoints_release hrelease
  · rfl

/-- All that recording can do to a vector is to clear it, with a reset. -/
theorem RecordingStep.adjoints (hstep : RecordingStep lib (Reached lib) t h t' h')
    (hr : Reached lib t h) :
    t'.adjoints = t.adjoints ∨ t'.adjoints = t.adjoints.clear := by
  cases hstep with
  | setActive | mark => exact Or.inl rfl
  | register hc =>
    rw [(Tape.register_cases hc).2]
    exact Or.inl rfl
  | release hc => exact Or.inl (Tape.adjoints_release hc)
  | store hc => exact Or.inl (Tape.adjoints_store hc)
  | registerInput hc =>
    rcases Tape.registerInput_cases hc with ⟨-, -, rfl⟩ | ⟨_, -, -, rfl⟩
    · exact Or.inl rfl
    · exact Or.inl rfl
  | registerOutput hc =>
    rcases Tape.registerOutput_cases hc with ⟨-, rfl⟩ | ⟨t₁, k, hstore, -, hrelease⟩
    · exact Or.inl rfl
    · exact Or.inl ((Tape.adjoints_release hrelease).trans (Tape.adjoints_store hstore))
  | pushBlock hwrite hc =>
    rcases Tape.pushBlock_cases hwrite hc with ⟨-, rfl⟩ | ⟨_, _, _, _, -, -, -, -, rfl⟩
    · exact Or.inl rfl
    · exact Or.inl rfl
  | reset hc =>
    simp only [Tape.reset, outcome_bind_eq_ok_iff, outcome_pure_eq_ok_iff] at hc
    obtain ⟨_, _, -, rfl, -⟩ := hc
    show (if t.settings.clearOnReset then t.adjoints.clear else t.adjoints) = _ ∨ _ = _
    split
    · exact Or.inr rfl
    · exact Or.inl rfl
  | resetTo hp hc =>
    obtain ⟨supply, -, -, rfl⟩ := Tape.resetTo_cases hc
    exact Or.inl rfl
  | append hsource hp hq hc =>
    obtain ⟨-, -, rfl⟩ := Tape.append_cases hsource.aligned hp hq hc
    exact Or.inl rfl
  | erase hp hq hc =>
    rcases Tape.erase_cases hr.aligned hp hq hc with ⟨refusal, -, rfl⟩ | ⟨-, rfl⟩
    · exact Or.inl rfl
    · exact Or.inl rfl
  | eraseWith hscratch hp hq hc =>
    rcases Tape.eraseWith_cases hr.aligned hscratch.aligned hp hq hc with
      ⟨refusal, -, rfl⟩ | ⟨-, rfl⟩
    · exact Or.inl rfl
    · exact Or.inl rfl

end Recording

/-! ## Sessions -/

section Guarded

variable {F : Type} [Zero F] [One F] [Add F] [Mul F] [BEq F] [FixedWidth F] {lib : Library F}
  {s : Scheme} {t : Tape F s} {h : History F}

/-- The tapes at which a session can arrive that starts with a vector without anything in slot zero
and never writes there. -/
inductive Guarded (lib : Library F) : {s : Scheme} → Tape F s → History F → Prop
  | create {s : Scheme} {settings : Settings} {v : Adjoints F} {t : Tape F s} :
    v.slot passive = 0 → Tape.create settings v = .ok t → Guarded lib t {}
  | record {s : Scheme} {t t' : Tape F s} {h h' : History F} :
    Guarded lib t h → RecordingStep lib (Reached lib) t h t' h' → Guarded lib t' h'
  /-- Serve as the scratch tape of another one. -/
  | lend {t t' other other' : Tape F .reuse} {h h' : History F} {p q : Position} {i k : Nat}
      {result : Except Refusal Unit} {j j' : Journal} :
    Guarded lib t h → Reached lib other h' → h'.Valid p i → h'.Valid q k →
      (other.eraseWith t p q).outcome j = (.ok (result, other', t'), j') →
      Guarded lib t' (h.mark t.position)
  | handle {s : Scheme} {t t' : Tape F s} {h : History F} :
    Guarded lib t h → VectorStep h t t' → Guarded lib t' h

theorem Guarded.reached_and_slot_eq_zero (hg : Guarded lib t h) :
    Reached lib t h ∧ t.adjoints.slot passive = 0 := by
  -- What a sweep must not assign to is known of every reachable tape, so both go together.
  induction hg with
  | create hv hc =>
    refine ⟨.create hc, ?_⟩
    rw [Tape.slot_create hc, hv]
  | record _ hstep ih =>
    obtain ⟨hr, hzero⟩ := ih
    refine ⟨hr.step hstep, ?_⟩
    rcases hstep.adjoints hr with hsame | hclear
    · rw [hsame, hzero]
    · rw [hclear, Adjoints.slot_clear]
  | lend _ hother hp hq hc ih =>
    obtain ⟨hr, hzero⟩ := ih
    obtain ⟨hsame, hlent⟩ := hother.lend hr hp hq hc
    exact ⟨hlent, by rw [hsame, hzero]⟩
  | handle _ hstep ih =>
    obtain ⟨hr, hzero⟩ := ih
    obtain ⟨v, rfl, hv⟩ := hstep.exists_vector hr.aligned hr.not_assigns_passive hzero
    exact ⟨hr.setVector v, hv⟩

omit [One F] [Add F] [Mul F] [BEq F] [FixedWidth F] in
/-- A read outside the vector is answered from slot zero, and announced. -/
theorem Tape.outcome_gradient_outside {identifier : Nat} (hout : t.adjoints.size ≤ identifier)
    (j : Journal) :
    (t.gradient identifier).outcome j =
      (.ok (t.adjoints.slot passive), j.note [.readOutside identifier t.adjoints.size]) ∧
    (t.getGradient identifier .relaxed).outcome j =
      (.ok (.ok (t.adjoints.slot passive)),
        j.note [.readOutside identifier t.adjoints.size]) := by
  have hnone : t.adjoints[identifier]? = none := Array.getElem?_eq_none hout
  rw [gradient, getGradient, hnone]
  exact ⟨rfl, rfl⟩

/-- Slot zero of a tape with a vector of its own is zero, if it exists, however the session went on
from a vector that was empty or zero: with recording and editing, sweeps and clearing over valid
ranges, other sizes of the vector, resets, seeds for any identifier, and gradients set for other
identifiers than zero.  So a relaxed read outside the vector gives zero, and leaves no trace but an
announcement. -/
theorem dummy_slot_stays_zero (hg : Guarded lib t h) :
    (∀ x, t.adjoints[0]? = some x → x = 0) ∧
    ∀ identifier j, t.adjoints.size ≤ identifier →
      (t.gradient identifier).outcome j =
        (.ok 0, j.note [.readOutside identifier t.adjoints.size]) ∧
      (t.getGradient identifier .relaxed).outcome j =
        (.ok (.ok 0), j.note [.readOutside identifier t.adjoints.size]) := by
  have hzero := hg.reached_and_slot_eq_zero.2
  constructor
  · intro x hx
    rw [← hzero, Adjoints.slot, Array.getD_eq_getD_getElem?, passive, hx]
    rfl
  · intro identifier j hout
    rw [← hzero]
    exact Tape.outcome_gradient_outside hout j

end Guarded

/-- A session with an argument that is left out and a block that moves a slot.  What a sweep makes
of the vector after seeds for two identifiers, one of them zero, can be computed. -/
theorem exists_guarded : ∃ (t : Tape Int .reuse) (h : History Int),
    Guarded External.transferring t h ∧
      h.statements = [.input 1, .normal 2 [(3, 1)], .block 0 7 [2, 0, 0, 0, 7, 0, 0, 0] []] ∧
      t.registry.get? 0 = some (External.transfer 0 "transfer" 0) ∧
      (Run.outcome (do
        let t ← (t.seed 7 5 : Except Fault (Tape Int .reuse))
        let t ← (t.seed 0 9 : Except Fault (Tape Int .reuse))
        t.evaluateAll .reverse) {}).1.map (fun t => t.adjoints) =
        .ok #[0, 15, 0, 0, 0, 0, 0, 8] := by
  have hcreate : Guarded (External.transferring : Library Int) (s := .reuse) _ _ :=
    .create (show Adjoints.slot #[] passive = 0 from rfl)
      (show Tape.create ⟨2, 1, 1, 1, 3, true⟩ #[] = _ from rfl)
  have hregister := hcreate.record
    (.register (show Tape.register _ ((External.transferring : Library Int).function 0) = _
      from rfl))
  have hinput := hregister.record
    (.registerInput (show (Tape.registerInput _).outcome {} = _ from rfl))
  have hstore := hinput.record
    (.store (show (Tape.store _ 0 [(3, 1), (4, 0)]).outcome {} = _ from rfl))
  have hblock := hstore.record
    (.pushBlock (fills_putAll [.identifier 2, .identifier 7] [])
      (show (Tape.pushBlock _ 0 8 0 _).outcome {} = _ from rfl))
  exact ⟨_, _, hblock, rfl, rfl, by decide +kernel⟩

/-- After those seeds and that sweep. -/
theorem dummy_slot_stays_zero_of_transfer :
    ∃ (t : Tape Int .reuse) (h : History Int), Guarded External.transferring t h ∧
      h.statements = [.input 1, .normal 2 [(3, 1)], .block 0 7 [2, 0, 0, 0, 7, 0, 0, 0] []] ∧
      t.adjoints = #[0, 15, 0, 0, 0, 0, 0, 8] ∧ t.adjoints[0]? = some 0 ∧
      (t.gradient 8).outcome {} = (.ok 0, Journal.note {} [.readOutside 8 8]) ∧
      (t.getGradient 8 .relaxed).outcome {} =
        (.ok (.ok 0), Journal.note {} [.readOutside 8 8]) := by
  obtain ⟨t, h, hg, hstatements, hregistry, hswept⟩ := exists_guarded
  obtain ⟨v, hseed, -⟩ := Tape.exists_seed (t := t) (show 7 ≠ passive by decide) 5
  have hignored : Tape.seed { t with adjoints := v } 0 9 = .ok { t with adjoints := v } := rfl
  have hseeded := (hg.handle (.seed hseed)).handle (.seed hignored)
  have hspares : ∀ x ∈ h.statements, x.Spares t.registry passive := by
    rw [hstatements, List.forall_mem_cons, List.forall_mem_cons, List.forall_mem_singleton]
    have hends : External.endpoints (.ofList [2, 0, 0, 0, 7, 0, 0, 0]) = .ok (2, 7) := rfl
    exact ⟨trivial, trivial, External.spares_transfer hregistry hends (by decide) (by decide)⟩
  rw [hseed, liftM_ok, pure_bind, hignored, liftM_ok, pure_bind] at hswept
  cases hrun : (Tape.evaluateAll { t with adjoints := v } .reverse).outcome {} with
  | mk answer j =>
    rw [hrun] at hswept
    cases answer with
    | error e => cases hswept
    | ok t' =>
      have hvector : t'.adjoints = #[0, 15, 0, 0, 0, 0, 0, 8] := Except.ok.inj hswept
      have hsweep := hseeded.handle (.evaluateAll hspares hrun)
      have hsize : t'.adjoints.size = 8 := by
        rw [hvector]
        rfl
      have hfirst : t'.adjoints[0]? = some 0 := by
        rw [hvector]
        rfl
      obtain ⟨-, hreads⟩ := dummy_slot_stays_zero hsweep
      obtain ⟨hread, hrelaxed⟩ := hreads 8 {} (Nat.le_of_eq hsize)
      rw [hsize] at hread hrelaxed
      exact ⟨t', h, hsweep, hstatements, hvector, hfirst, hread, hrelaxed⟩

end Autodiff
