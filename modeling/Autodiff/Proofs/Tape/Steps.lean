import Autodiff.Proofs.Recording.Walk
import Autodiff.Proofs.Tape.History

/-!
# What one step does

One statement for each way to record, to release and to reset: the tape that is left when the step
comes to an end, and what must have held before.
-/

namespace Autodiff

/-! ## The counter of a supply -/

namespace Supply

variable {s : Scheme}

theorem mark_release {supply supply' : Supply s} {identifier : Nat}
    (h : supply.release identifier = .ok supply') : supply'.mark = supply.mark := by
  rcases release_cases h with ⟨rfl, -⟩ | ⟨rfl, -⟩
  · rfl
  · cases supply
    cases supply'
    rfl

/-- How far the counter of positions moves with an identifier that is given out. -/
def stride : Scheme → Nat
  | .linear => 1
  | .reuse => 0

theorem mark_generate {supply supply' : Supply s} {i : Nat}
    (h : supply.generate = .ok (i, supply')) : supply'.mark = supply.mark + stride s := by
  cases supply with
  | linear count =>
    obtain ⟨n, hn, h⟩ := Fault.bind_eq_ok_iff.1 h
    obtain ⟨-, rfl⟩ := increment_eq_ok_iff.1 hn
    cases h
    rfl
  | reuse largest unused =>
    cases supply'
    rfl

theorem mark_claim {supply supply' : Supply s} {old i : Nat}
    (h : supply.claim old = .ok (i, supply')) : supply'.mark = supply.mark + stride s := by
  rcases claim_cases h with h | ⟨rfl, -, -, rfl⟩
  · exact mark_generate h
  · rfl

theorem mark_rewindTo {supply supply' : Supply s} {counter : Nat}
    (h : supply.rewindTo counter = .ok supply') :
    supply'.mark = counter * stride s := by
  cases supply with
  | linear count =>
    simp only [rewindTo] at h
    split at h
    · cases h
      exact (Nat.mul_one counter).symm
    · cases h
  | reuse largest unused =>
    cases h
    rfl

theorem mark_restart (supply : Supply s) : supply.restart.mark = 0 := by
  cases supply <;> rfl

theorem mark_fresh (s : Scheme) : (fresh s).mark = 0 := by
  cases s <;> rfl

end Supply

/-! ## The views of a block -/

namespace Writer

theorem put_cases {w w' : Writer} {f : Field} (h : w.put f = .ok w') :
    w'.capacity = w.capacity ∧ (w.written ≤ w.capacity → w'.written ≤ w.capacity) := by
  have hlength := congrArg List.length (toList_put h)
  rw [List.length_append, Array.length_toList, Array.length_toList, Field.length_encode] at hlength
  unfold put at h
  split at h
  · next hroom =>
    have hcapacity : w'.capacity = w.capacity := by
      cases h
      rfl
    refine ⟨hcapacity, fun hle => ?_⟩
    unfold remaining at hroom
    unfold written at hle hroom ⊢
    omega
  · cases h

theorem putAll_cases {w w' : Writer} {fs : List Field} (h : w.putAll fs = .ok w') :
    w'.capacity = w.capacity ∧ (w.written ≤ w.capacity → w'.written ≤ w.capacity) := by
  induction fs generalizing w with
  | nil =>
    cases h
    exact ⟨rfl, id⟩
  | cons f fs ih =>
    unfold putAll at h
    rw [List.foldlM_cons, Fault.bind_eq_ok_iff] at h
    obtain ⟨w₁, hput, hrest⟩ := h
    obtain ⟨hcapacity, hwritten⟩ := put_cases hput
    obtain ⟨hcapacity', hwritten'⟩ := ih hrest
    rw [hcapacity] at hcapacity' hwritten'
    exact ⟨hcapacity', fun hle => hwritten' (hwritten hle)⟩

theorem capacity_putAll {n : Nat} {w : Writer}
    (h : ∃ fs, Writer.putAll { capacity := n } fs = .ok w) : w.capacity = n := by
  obtain ⟨fs, hfs⟩ := h
  exact (putAll_cases hfs).1

theorem size_of_full {n : Nat} {w : Writer}
    (h : ∃ fs, Writer.putAll { capacity := n } fs = .ok w) (hfull : w.remaining = 0) :
    w.bytes.size = n := by
  obtain ⟨fs, hfs⟩ := h
  obtain ⟨hcapacity, hwritten⟩ := putAll_cases hfs
  have hle : w.written ≤ n := hwritten (Nat.zero_le _)
  unfold remaining at hfull
  unfold written at hle hfull
  simp only at hcapacity
  omega

end Writer

namespace Tape

variable {F : Type} {s : Scheme} {t t' : Tape F s} {j j' : Journal}

/-! ## Releasing and storing -/

theorem release_eq_ok_iff {identifier : Nat} :
    t.release identifier = .ok t' ↔
      ∃ supply, t.supply.release identifier = .ok supply ∧ { t with supply := supply } = t' := by
  unfold release
  rw [Fault.bind_eq_ok_iff]
  simp [pure, Except.pure]

/-- Without an active argument, or on a passive tape, storing only releases the target. -/
theorem outcome_store_passive {arguments : List (F × Nat)}
    (h : t.active = false ∨ (arguments.filter fun e => e.2 != passive) = []) (target : Nat)
    (j : Journal) :
    (t.store target arguments).outcome j = ((t.release target).map fun t => (passive, t), j) := by
  have hguard : (!t.active || (arguments.filter fun e => e.2 != passive).isEmpty) = true := by
    rcases h with h | h
    · rw [h]
      rfl
    · rw [h, List.isEmpty_nil, Bool.or_true]
  simp only [store, hguard, ↓reduceIte, Run.outcome_bind, Run.outcome_liftM]
  cases t.release target <;> rfl

theorem outcome_store_active {arguments entries : List (F × Nat)} (hactive : t.active = true)
    (hentries : (arguments.filter fun e => e.2 != passive) = entries) (hne : entries ≠ [])
    (hle : entries.length ≤ maxArguments) (target : Nat) (j : Journal) :
    (t.store target arguments).outcome j =
      ((t.supply.claim target).map fun r => (r.1,
        { t with recording := t.recording.append (.normal r.1 entries), supply := r.2 }),
        j.note (t.recording.growth (.normal target entries))) := by
  have hguard : (!t.active || entries.isEmpty) = false := by
    rw [hactive, List.isEmpty_eq_false_iff.2 hne]
    rfl
  -- Neither none nor too many, so the count of arguments has a kind of its own.
  have hlength : entries.length ≠ 0 := fun h => hne (List.length_eq_zero_iff.1 h)
  have hcount : Kind.ofCount entries.length = .ok (.normal entries.length) := by
    rw [Kind.ofCount, if_neg hlength, if_neg (by omega)]
  simp only [store, hentries, hguard, hcount, Run.liftM_ok, pure_bind, Bool.false_eq_true,
    ↓reduceIte, Run.outcome_bind, Run.outcome_note, Run.outcome_liftM]
  cases t.supply.claim target <;> rfl

theorem outcome_store_tooMany {arguments entries : List (F × Nat)} (hactive : t.active = true)
    (hentries : (arguments.filter fun e => e.2 != passive) = entries)
    (hlt : maxArguments < entries.length) (target : Nat) (j : Journal) :
    (t.store target arguments).outcome j = (.error (.tooManyArguments entries.length), j) := by
  have hne : entries ≠ [] := by
    intro h
    rw [h, List.length_nil] at hlt
    exact Nat.not_lt_zero _ hlt
  have hguard : (!t.active || entries.isEmpty) = false := by
    rw [hactive, List.isEmpty_eq_false_iff.2 hne]
    rfl
  have hlength : entries.length ≠ 0 := fun h => hne (List.length_eq_zero_iff.1 h)
  have hcount : Kind.ofCount entries.length = .error (.tooManyArguments entries.length) := by
    rw [Kind.ofCount, if_neg hlength, if_pos hlt]
  simp only [store, hentries, hguard, hcount, Bool.false_eq_true, ↓reduceIte, Run.outcome_bind,
    Run.outcome_liftM]

theorem store_cases {target identifier : Nat} {arguments : List (F × Nat)}
    (h : (t.store target arguments).outcome j = (.ok (identifier, t'), j')) :
    (t.newAssignment identifier arguments = [] ∧ identifier = passive ∧
      t.release target = .ok t') ∨
    ∃ entries supply, t.newAssignment identifier arguments = [.normal identifier entries] ∧
      entries.length ≤ maxArguments ∧ t.supply.claim target = .ok (identifier, supply) ∧
      t' = { t with
        recording := t.recording.append (.normal identifier entries)
        supply := supply } := by
  by_cases hpassive : t.active = false ∨ (arguments.filter fun e => e.2 != passive) = []
  · left
    rw [outcome_store_passive hpassive, Prod.mk.injEq] at h
    have hnew : t.newAssignment identifier arguments = [] := by
      unfold newAssignment
      rcases hpassive with hpassive | hpassive <;> simp [hpassive]
    cases hrelease : t.release target with
    | error e =>
      rw [hrelease] at h
      cases h.1
    | ok t₁ =>
      rw [hrelease] at h
      cases h.1
      exact ⟨hnew, rfl, rfl⟩
  · right
    obtain ⟨entries, hentries⟩ : ∃ entries, (arguments.filter fun e => e.2 != passive) = entries :=
      ⟨_, rfl⟩
    rw [hentries] at hpassive
    obtain ⟨hactive, hne⟩ := not_or.1 hpassive
    rw [Bool.not_eq_false] at hactive
    have hnew (identifier : Nat) :
        t.newAssignment identifier arguments = [.normal identifier entries] := by
      simp [newAssignment, hentries, hactive, hne]
    rcases Nat.lt_or_ge maxArguments entries.length with hlt | hle
    · rw [outcome_store_tooMany hactive hentries hlt, Prod.mk.injEq] at h
      cases h.1
    · rw [outcome_store_active hactive hentries hne hle, Prod.mk.injEq] at h
      cases hclaim : t.supply.claim target with
      | error e =>
        rw [hclaim] at h
        cases h.1
      | ok claimed =>
        rw [hclaim] at h
        cases h.1
        exact ⟨entries, claimed.2, hnew _, hle, rfl, rfl⟩

/-! ## Inputs and outputs -/

theorem outcome_registerInput_active (hactive : t.active = true) (j : Journal) :
    t.registerInput.outcome j =
      (t.supply.generate.map fun r => (r.1,
        { t with recording := t.recording.append (.input r.1), supply := r.2 }),
        j.note (t.recording.growth (.input passive))) := by
  simp only [registerInput, hactive, ↓reduceIte, Run.outcome_bind, Run.outcome_note,
    Run.outcome_liftM]
  cases t.supply.generate <;> rfl

theorem outcome_registerInput_passive (hactive : t.active = false) (j : Journal) :
    t.registerInput.outcome j = (.ok (passive, t), j) := by
  simp only [registerInput, hactive, Bool.false_eq_true, ↓reduceIte, Run.outcome_pure]

theorem registerInput_cases {identifier : Nat}
    (h : t.registerInput.outcome j = (.ok (identifier, t'), j')) :
    (t.newInput identifier = [] ∧ identifier = passive ∧ t' = t) ∨
    ∃ supply, t.newInput identifier = [.input identifier] ∧
      t.supply.generate = .ok (identifier, supply) ∧
      t' = { t with
        recording := t.recording.append (.input identifier)
        supply := supply } := by
  by_cases hactive : t.active = true
  · rw [outcome_registerInput_active hactive, Prod.mk.injEq] at h
    cases hgenerate : t.supply.generate with
    | error e =>
      rw [hgenerate] at h
      cases h.1
    | ok issued =>
      rw [hgenerate] at h
      cases h.1
      exact Or.inr ⟨issued.2, by rw [newInput, if_pos hactive], rfl, rfl⟩
  · rw [outcome_registerInput_passive (Bool.not_eq_true _ ▸ hactive)] at h
    cases h
    exact Or.inl ⟨by rw [newInput, if_neg hactive], rfl, rfl⟩

theorem registerOutput_cases [One F] {identifier output : Nat}
    (h : (t.registerOutput identifier).outcome j = (.ok (output, t'), j')) :
    (t.newOutput identifier output = [] ∧ t' = t) ∨
    ∃ t₁ k, (t.store passive [(1, identifier)]).outcome j = (.ok (output, t₁), k) ∧
      t.newOutput identifier output = t.newAssignment output [(1, identifier)] ∧
      t₁.release identifier = .ok t' := by
  unfold registerOutput at h
  split at h
  · next hguard =>
    rw [Run.outcome_pure_eq_ok_iff] at h
    cases h.1
    left
    refine ⟨?_, rfl⟩
    have hpassive : identifier = passive ∨ t.active = false := by simpa using hguard
    rcases hpassive with heq | hactive
    · rw [newOutput, if_pos heq]
    · simp [newOutput, newAssignment, hactive]
  · next hguard =>
    have hne : identifier ≠ passive := by
      intro heq
      exact hguard (by simp [heq])
    rw [Run.outcome_bind_eq_ok_iff] at h
    obtain ⟨⟨output', t₁⟩, k, hstore, h⟩ := h
    rw [Run.outcome_bind_eq_ok_iff] at h
    obtain ⟨t₂, k', hrelease, h⟩ := h
    rw [Run.outcome_liftM_eq_ok_iff] at hrelease
    rw [Run.outcome_pure_eq_ok_iff] at h
    cases h.1
    exact Or.inr ⟨t₁, k, hstore, by rw [newOutput, if_neg hne], hrelease.1⟩

/-! ## Blocks -/

theorem checkBlock_cases {f : External F} {token : Nat} {fixed dynamic : Writer} {u : Unit}
    (h : (checkBlock f token fixed dynamic).outcome j = (.ok u, j')) :
    fixed.remaining = 0 ∧ dynamic.remaining = 0 ∧
      ∃ asked, f.dynamicSize asked ⟨fixed.bytes, 0⟩ = .ok dynamic.capacity := by
  simp only [checkBlock, Run.outcome_check_eq_ok_iff, Run.outcome_bind_eq_ok_iff,
    Run.outcome_liftM_eq_ok_iff] at h
  obtain ⟨⟨hfixed, hdynamic⟩, asked, k, -, counted, k', ⟨hcounted, -⟩, h⟩ := h
  -- A count that differs ends in a panic, for which the function describes the block first.
  refine ⟨hfixed, hdynamic, asked, ?_⟩
  by_cases heq : counted = dynamic.capacity
  · rw [hcounted, heq]
  · rw [if_neg heq, Run.outcome_bind_eq_ok_iff] at h
    obtain ⟨description, k'', -, h⟩ := h
    exact absurd h Run.outcome_throw_ne_ok

theorem pushBlock_cases {token fixedSize dynamicSize : Nat}
    {write : Writer → Writer → Except Fault (Writer × Writer)} {views : Option (Writer × Writer)}
    (hwrite : Fills write)
    (h : (t.pushBlock token fixedSize dynamicSize write).outcome j = (.ok (views, t'), j')) :
    (views = none ∧ t' = t) ∨
    ∃ fixed dynamic f asked, views = some (fixed, dynamic) ∧ t.registry.get? token = some f ∧
      fixed.bytes.size = f.fixedSize ∧
      f.dynamicSize asked ⟨fixed.bytes, 0⟩ = .ok dynamic.bytes.size ∧
      t' = { t with
        recording := t.recording.append (.block token (max fixed.largest dynamic.largest)
          fixed.bytes.toList dynamic.bytes.toList) } := by
  unfold pushBlock at h
  simp only [Run.outcome_check_eq_ok_iff, Run.outcome_bind_eq_ok_iff,
    Run.outcome_liftM_eq_ok_iff] at h
  obtain ⟨f, k, ⟨hexpect, -⟩, hsize, h⟩ := h
  have hget := Registry.expect_eq_ok_iff.1 hexpect
  split at h
  · right
    simp only [Run.outcome_bind_eq_ok_iff, Run.outcome_pure_eq_ok_iff,
      Run.outcome_liftM_eq_ok_iff, Prod.mk.injEq] at h
    obtain ⟨_, _, _, ⟨fixed, dynamic⟩, _, ⟨hviews, -⟩, _, _, hcheck, _, _, -, ⟨hv, ht⟩, -⟩ := h
    obtain ⟨hfixed, hdynamic⟩ := hwrite hviews
    obtain ⟨hfullFixed, hfullDynamic, asked, hcount⟩ := checkBlock_cases hcheck
    refine ⟨fixed, dynamic, f, asked, hv.symm, hget, ?_, ?_, ht.symm⟩
    · rw [← hsize]
      exact Writer.size_of_full hfixed hfullFixed
    · rw [hcount, Writer.size_of_full hdynamic hfullDynamic, Writer.capacity_putAll hdynamic]
  · rw [Run.outcome_pure_eq_ok_iff, Prod.mk.injEq] at h
    exact Or.inl ⟨h.1.1.symm, h.1.2.symm⟩

/-! ## Resetting -/

theorem reset_cases [Zero F] (h : t.reset.outcome j = (.ok t', j')) :
    t'.recording = t.recording.clear ∧ t'.supply = t.supply.restart ∧
      t'.registry = t.registry ∧ t'.settings = t.settings := by
  simp only [reset, Run.outcome_bind, Run.outcome_note, Run.outcome_pure, Prod.mk.injEq,
    Except.ok.injEq] at h
  obtain ⟨rfl, -⟩ := h
  exact ⟨rfl, rfl, rfl, rfl⟩

theorem resetTo_cases {p : Position} (h : (t.resetTo p).outcome j = (.ok t', j')) :
    ∃ supply, t.Contains p ∧ t.supply.rewindTo p.counter = .ok supply ∧
      t' = { t with recording := t.recording.truncate p, supply := supply } := by
  simp only [resetTo, Run.outcome_check_eq_ok_iff, Run.outcome_bind_eq_ok_iff,
    Run.outcome_pure_eq_ok_iff, Run.outcome_liftM_eq_ok_iff] at h
  obtain ⟨hcontains, -, -, -, -, -, -, supply, -, ⟨hsupply, -⟩, ht, -⟩ := h
  exact ⟨supply, hcontains, hsupply, ht.symm⟩

/-! ## New tapes and functions -/

theorem create_cases [Zero F] [FixedWidth F] {settings : Settings} {v : Adjoints F}
    (h : create settings v = .ok t) :
    Recording.create settings = .ok t.recording ∧ t.registry = {} ∧ t.supply = .fresh s ∧
      t.settings = settings ∧ t.active = true := by
  unfold create at h
  simp only [Fault.bind_eq_ok_iff] at h
  obtain ⟨adjoints, -, recording, hrecording, h⟩ := h
  cases h
  exact ⟨Recording.create_of_allocate hrecording, rfl, rfl, rfl, rfl⟩

theorem register_cases {f : External F} {token : Nat} (h : t.register f = .ok (token, t')) :
    t.registry.register f = .ok (token, t'.registry) ∧
      t' = { t with registry := t'.registry } := by
  unfold register at h
  rw [Fault.bind_eq_ok_iff] at h
  obtain ⟨⟨token', registry⟩, hregister, h⟩ := h
  cases h
  exact ⟨hregister, rfl⟩

theorem registry_scratch {t t' : Tape F .reuse} (h : t.scratch = .ok t') :
    t'.registry = t.registry := by
  rw [scratch, Fault.bind_eq_ok_iff] at h
  obtain ⟨recording, -, h⟩ := h
  cases h
  rfl

end Tape

end Autodiff
