import Autodiff.Proofs.Program.Lifetime
import Autodiff.Proofs.Tape.Calls
import Mathlib.Data.List.Sort

/-!
# Identifiers in stock

A supply that has some identifiers in stock behind its own issues the same ones as a supply that
would have to count up to them: the lowest identifier that was never out comes next in both.
Releases put identifiers in front of the stock, and a restart sorts them in front of it, since all
of them are lower.  So a tape with such a supply records what a tape with the other one records.
-/

namespace Autodiff

open Run

/-! ## Supplies -/

namespace Supply

variable {s : Scheme}

theorem Sound.generate {supply supply' : Supply s} (h : supply.Sound) {i : Nat}
    (hg : supply.generate = .ok (i, supply')) : supply'.Sound :=
  (generate_spec h hg).2.2.1

theorem Sound.claim {supply supply' : Supply s} (h : supply.Sound) {old i : Nat}
    (hc : supply.claim old = .ok (i, supply')) : supply'.Sound := by
  rcases claim_cases hc with hg | ⟨-, -, -, rfl⟩
  · exact h.generate hg
  · exact h

theorem Sound.release {supply supply' : Supply s} (h : supply.Sound) {i : Nat}
    (hi : supply.release i = .ok supply') : supply'.Sound := by
  rcases release_cases hi with ⟨rfl, -⟩ | ⟨-, hne, hle, hnot, hlargest, hunused⟩
  · exact h
  · refine ⟨fun k hk => ?_, ?_, hlargest ▸ h.bounded⟩
    · rw [hunused] at hk
      rw [hlargest]
      rcases List.mem_cons.1 hk with rfl | hk
      · exact ⟨hne, hle⟩
      · exact h.unused k hk
    · rw [hunused]
      exact List.nodup_cons.2 ⟨hnot, h.nodup⟩

theorem Sound.rewindTo {supply supply' : Supply s} (h : supply.Sound) {counter : Nat}
    (hrewind : supply.rewindTo counter = .ok supply') : supply'.Sound := by
  cases supply with
  | linear count =>
    simp only [Supply.rewindTo] at hrewind
    split at hrewind
    · next hle =>
      cases hrewind
      exact ⟨fun i hi => absurd hi List.not_mem_nil, List.nodup_nil,
        Nat.lt_of_le_of_lt hle h.bounded⟩
    · cases hrewind
  | reuse largest unused =>
    cases hrewind
    exact h

theorem Sound.restart {supply : Supply s} (h : supply.Sound) : supply.restart.Sound := by
  cases supply with
  | linear count => exact sound_fresh .linear
  | reuse largest unused => exact sound_restart h

/-! ### More in stock -/

/-- The supply with the identifiers up to `n` in stock: those that it never issued stand behind the
ones that it took back. -/
def stocked (n : Nat) : Supply .reuse → Supply .reuse
  | reuse largest unused =>
    .reuse (max largest n) (unused ++ List.range' (largest + 1) (n - largest))

variable (n : Nat) (supply : Supply .reuse)

theorem generate_stocked (hn : n < identifierLimit) :
    (supply.stocked n).generate = supply.generate.map fun r => (r.1, r.2.stocked n) := by
  cases supply with
  | reuse largest unused =>
    cases unused with
    | cons first rest => rfl
    | nil =>
      show (reuse (max largest n) (List.range' (largest + 1) (n - largest))).generate = _
      by_cases hlt : largest < n
      -- The lowest one in stock is the one that the other supply counts up to.
      · have hleft : largest + 1 < identifierLimit := by omega
        have hmany : n - largest = n - (largest + 1) + 1 := by omega
        have hmax : max largest n = max (largest + 1) n := by omega
        rw [hmany, List.range'_succ, hmax, generate, generate, increment, if_pos hleft]
        rfl
      -- Nothing is in stock in either, so they count on together.
      · have hnone : n - largest = 0 := by omega
        rw [hnone, Nat.max_eq_left (Nat.le_of_not_lt hlt)]
        show (increment .reuse largest >>= _) = Except.map _ (increment .reuse largest >>= _)
        cases hcount : increment .reuse largest with
        | error e => rfl
        | ok largest' =>
          obtain ⟨-, rfl⟩ := increment_eq_ok_iff.1 hcount
          have hnone' : n - (largest + 1) = 0 := by omega
          have hmax : max (largest + 1) n = largest + 1 := by omega
          show Except.ok (largest + 1, reuse (largest + 1) []) = .ok (largest + 1,
            .reuse (max (largest + 1) n) (List.range' (largest + 1 + 1) (n - (largest + 1))))
          rw [hnone', hmax]
          rfl

theorem claim_stocked (hn : n < identifierLimit) (i : Nat) :
    (supply.stocked n).claim i = (supply.claim i).map fun r => (r.1, r.2.stocked n) := by
  have hgenerate := generate_stocked n supply hn
  cases supply with
  | reuse largest unused =>
    by_cases hpassive : i = passive
    · simp only [claim, stocked, if_pos hpassive]
      exact hgenerate
    · simp only [claim, stocked, if_neg hpassive]
      rfl

/-- Both supplies refuse an identifier, although one of them never issued it and the other one holds
it already, or both take it back. -/
theorem release_stocked (i : Nat) :
    Matches AnyFaults (fun u u' => u' = u.stocked n) (supply.release i)
      ((supply.stocked n).release i) := by
  cases supply with
  | reuse largest unused =>
    have hmem : i ∈ List.range' (largest + 1) (n - largest) ↔ largest < i ∧ i ≤ n := by
      rw [List.mem_range'_1]
      omega
    by_cases hpassive : i = passive
    · simp only [stocked, release, if_pos hpassive]
      exact .answer rfl
    · by_cases hlt : largest < i
      · simp only [stocked, release, if_neg hpassive, if_pos hlt]
        by_cases hn : i ≤ n
        · have hissued : ¬max largest n < i := by omega
          have hheld : i ∈ unused ++ List.range' (largest + 1) (n - largest) :=
            List.mem_append_right _ (hmem.2 ⟨hlt, hn⟩)
          rw [if_neg hissued, if_pos hheld]
          exact .fault trivial
        · have hnever : max largest n < i := by omega
          rw [if_pos hnever]
          exact .fault trivial
      · have hissued : ¬max largest n < i := by omega
        have hnone : i ∉ List.range' (largest + 1) (n - largest) := fun h => hlt (hmem.1 h).1
        have hsame : i ∈ unused ++ List.range' (largest + 1) (n - largest) ↔ i ∈ unused := by
          rw [List.mem_append, or_iff_left hnone]
        simp only [stocked, release, if_neg hpassive, if_neg hlt, if_neg hissued, hsame]
        split
        · exact .fault trivial
        · exact .answer rfl

/-- Sorting gives the one order in which no identifier stands in front of a lower one. -/
theorem mergeSort_eq {is ks : List Nat} (hperm : is.Perm ks) (hks : ks.Pairwise (· ≤ ·)) :
    (is.mergeSort fun a b => decide (a ≤ b)) = ks :=
  ((List.mergeSort_perm _ _).trans hperm).eq_of_pairwise' (List.pairwise_mergeSort' _ is) hks

variable {n supply}

/-- Whatever was out is lower than what stands behind it in stock. -/
theorem restart_stocked (h : supply.Sound) :
    (supply.stocked n).restart = supply.restart.stocked n := by
  cases supply with
  | reuse largest unused =>
    have hperm := List.mergeSort_perm unused fun a b => decide (a ≤ b)
    refine congrArg (Supply.reuse (max largest n)) (mergeSort_eq (hperm.symm.append_right _) ?_)
    rw [List.pairwise_append]
    refine ⟨List.pairwise_mergeSort' _ unused, List.pairwise_le_range', fun a ha b hb => ?_⟩
    have hle : a ≤ largest := (h.unused a (hperm.mem_iff.1 ha)).2
    rw [List.mem_range'_1] at hb
    omega

/-- A supply that has everything back starts over as a new one with all of it in stock. -/
theorem restart_eq (h : supply.Sound) (hall : ∀ i, i ≠ passive → ¬supply.Lent i) :
    supply.restart = (fresh .reuse).stocked supply.largest := by
  cases supply with
  | reuse largest unused =>
    have hmem (i : Nat) : i ∈ unused ↔ i ∈ List.range' 1 largest := by
      rw [List.mem_range'_1]
      constructor
      · intro hi
        obtain ⟨hne, hle⟩ := h.unused i hi
        have hpos : 0 < i := Nat.pos_of_ne_zero hne
        have hle' : i ≤ largest := hle
        omega
      · rintro ⟨hpos, hlt⟩
        have hnot := hall i (Nat.ne_of_gt hpos)
        have hle : i ≤ largest := by omega
        exact Decidable.not_not.1 fun hi => hnot ⟨hle, hi⟩
    have hperm : unused.Perm (List.range' 1 largest) :=
      (List.perm_ext_iff_of_nodup h.nodup List.nodup_range').2 hmem
    have hsorted := mergeSort_eq hperm List.pairwise_le_range'
    show Supply.reuse largest _ = .reuse (max 0 largest) (List.range' 1 largest)
    rw [hsorted, Nat.zero_max]

end Supply

/-! ## Supplies of tapes -/

namespace Tape

variable {F : Type} {s : Scheme} {t t' : Tape F s} {j j' : Journal}

theorem sound_release (h : t.supply.Sound) {i : Nat} (hr : t.release i = .ok t') :
    t'.supply.Sound := by
  obtain ⟨supply, hsupply, rfl⟩ := release_eq_ok_iff.1 hr
  exact h.release hsupply

theorem sound_store (h : t.supply.Sound) {target identifier : Nat} {arguments : List (F × Nat)}
    (hr : (t.store target arguments).outcome j = (.ok (identifier, t'), j')) :
    t'.supply.Sound := by
  rcases store_cases hr with ⟨-, -, hrelease⟩ | ⟨entries, supply, -, -, hclaim, rfl⟩
  · exact sound_release h hrelease
  · exact h.claim hclaim

end Tape

/-- Whatever was done with a tape, it holds in stock what it issued before, each identifier once. -/
theorem Reached.sound {F : Type} [Zero F] [One F] [FixedWidth F] {lib : Library F} {s : Scheme}
    {t : Tape F s} {h : History F} (hr : Reached lib t h) : t.supply.Sound := by
  induction hr with
  | create hc =>
    rw [(Tape.create_cases hc).2.2.1]
    exact Supply.sound_fresh _
  | setVector _ _ ih => exact ih
  | step hr _ ih hstep =>
    cases hstep with
    | register hc =>
      rw [(Tape.register_cases hc).2]
      exact ih
    | setActive | mark => exact ih
    | release hc => exact Tape.sound_release ih hc
    | store hc => exact Tape.sound_store ih hc
    | registerInput hc =>
      rcases Tape.registerInput_cases hc with ⟨-, -, rfl⟩ | ⟨supply, -, hgenerate, rfl⟩
      · exact ih
      · exact ih.generate hgenerate
    | registerOutput hc =>
      rcases Tape.registerOutput_cases hc with ⟨-, rfl⟩ | ⟨t₁, k, hstore, -, hrelease⟩
      · exact ih
      · exact Tape.sound_release (Tape.sound_store ih hstore) hrelease
    | pushBlock hwrite hc =>
      rcases Tape.pushBlock_cases hwrite hc with ⟨-, rfl⟩ | ⟨_, _, _, _, -, -, -, -, rfl⟩
      · exact ih
      · exact ih
    | reset hc =>
      rw [(Tape.reset_cases hc).2.1]
      exact ih.restart
    | resetTo hp hc =>
      obtain ⟨supply, -, hsupply, rfl⟩ := Tape.resetTo_cases hc
      exact ih.rewindTo hsupply
    | append hsource hp hq hc =>
      obtain ⟨hsource, -⟩ := hsource
      obtain ⟨-, -, rfl⟩ := Tape.append_cases hsource.aligned hp hq hc
      exact ih
    | erase hp hq hc =>
      rcases Tape.erase_cases hr.aligned hp hq hc with ⟨refusal, -, rfl⟩ | ⟨-, rfl⟩
      · exact ih
      · exact ih
    | eraseWith hscratch hp hq hc =>
      obtain ⟨hscratch, -⟩ := hscratch
      rcases Tape.eraseWith_cases hr.aligned hscratch.aligned hp hq hc with
        ⟨refusal, -, rfl⟩ | ⟨-, rfl⟩
      · exact ih
      · exact ih

/-! ## Tapes with more in stock -/

namespace Tape

variable {F : Type} {lib : Library F} {n : Nat} {t t' : Tape F .reuse}

/-- The tape with the identifiers up to `n` in stock, around another vector. -/
def stocked (t : Tape F .reuse) (n : Nat) (v : Adjoints F) : Tape F .reuse :=
  { t with supply := t.supply.stocked n, adjoints := v }

/-- `t'` is `t` with the identifiers up to `n` in stock, around a vector that holds the same if
resetting clears it. -/
structure Stocked [Zero F] (lib : Library F) (n : Nat) (t t' : Tape F .reuse) : Prop where
  bound : n < identifierLimit
  within : t.registry.Within lib
  sound : t.supply.Sound
  eq : t' = t.stocked n t'.adjoints
  slots : t.settings.clearOnReset = true → t'.adjoints.slot = t.adjoints.slot

/-- The same answer, and a tape with more in stock. -/
def Stocks [Zero F] {α : Type} (lib : Library F) (n : Nat) (a b : α × Tape F .reuse) : Prop :=
  b.1 = a.1 ∧ Stocked lib n a.2 b.2

namespace Stocked

variable [Zero F]

theorem exists_eq (h : Stocked lib n t t') : ∃ v, t' = t.stocked n v := ⟨_, h.eq⟩

theorem recording_eq (h : Stocked lib n t t') : t'.recording = t.recording := by
  rw [h.eq]
  rfl

theorem position_eq (h : Stocked lib n t t') : t'.position = t.position := by
  obtain ⟨v, rfl⟩ := h.exists_eq
  show t.recording.endPosition (t.supply.stocked n).mark = t.recording.endPosition t.supply.mark
  cases t.supply
  rfl

theorem setActive (h : Stocked lib n t t') (active : Bool) :
    Stocked lib n (t.setActive active) (t'.setActive active) := by
  obtain ⟨v, rfl⟩ := h.exists_eq
  exact ⟨h.bound, h.within, h.sound, rfl, h.slots⟩

theorem register (h : Stocked lib n t t') (key : Nat) :
    Matches Eq (Stocks lib n) (t.register (lib.function key)) (t'.register (lib.function key)) := by
  obtain ⟨v, rfl⟩ := h.exists_eq
  apply Matches.bind_same
  intro result hregister
  exact .answer ⟨rfl, h.bound, h.within.register hregister, h.sound, rfl, h.slots⟩

theorem release (h : Stocked lib n t t') (identifier : Nat) :
    Matches AnyFaults (Stocked lib n) (t.release identifier) (t'.release identifier) := by
  obtain ⟨v, rfl⟩ := h.exists_eq
  have hrelease := (Supply.release_stocked n t.supply identifier).imp (fun _ _ => id)
    fun u u' hu heq => And.intro (h.sound.release hu) heq
  show Matches _ _ (t.supply.release identifier >>= _)
    ((t.supply.stocked n).release identifier >>= _)
  apply hrelease.bind
  rintro u _ ⟨hu, rfl⟩
  exact .answer ⟨h.bound, h.within, hu, rfl, h.slots⟩

/-- Both supplies issue the same identifier and have the same more in stock behind that. -/
theorem generate (h : Stocked lib n t t') :
    Matches Eq (fun r r' => r.2.Sound ∧ r' = (r.1, r.2.stocked n)) t.supply.generate
      t'.supply.generate := by
  obtain ⟨v, rfl⟩ := h.exists_eq
  show Matches _ _ _ (t.supply.stocked n).generate
  rw [Supply.generate_stocked n t.supply h.bound]
  exact .map_right fun r hr => ⟨h.sound.generate hr, rfl⟩

theorem claim (h : Stocked lib n t t') (target : Nat) :
    Matches Eq (fun r r' => r.2.Sound ∧ r' = (r.1, r.2.stocked n))
      (t.supply.claim target) (t'.supply.claim target) := by
  obtain ⟨v, rfl⟩ := h.exists_eq
  show Matches _ _ _ ((t.supply.stocked n).claim target)
  rw [Supply.claim_stocked n t.supply h.bound]
  exact .map_right fun r hr => ⟨h.sound.claim hr, rfl⟩

theorem store (h : Stocked lib n t t') (target : Nat) (arguments : List (F × Nat)) :
    Abreast AnyFaults (Stocks lib n) (t.store target arguments) (t'.store target arguments) := by
  have hrelease := h.release target
  have hclaim := h.claim target
  obtain ⟨v, rfl⟩ := h.exists_eq
  refine Abreast.ite (fun _ => ?_) fun _ => ?_
  · exact (abreast_liftM hrelease).bind fun u u' hu => abreast_pure ⟨rfl, hu⟩
  · apply Abreast.anyFaults
    apply (inStep_same _).bind_same
    intro kind
    apply (abreast_note _).bind_same
    intro _
    apply (abreast_liftM hclaim).bind
    rintro ⟨identifier, supply⟩ _ ⟨hsound, rfl⟩
    exact abreast_pure ⟨rfl, h.bound, h.within, hsound, rfl, h.slots⟩

theorem registerInput (h : Stocked lib n t t') :
    InStep (Stocks lib n) t.registerInput t'.registerInput := by
  have hgenerate := h.generate
  have hself := h
  obtain ⟨v, rfl⟩ := h.exists_eq
  refine Abreast.ite (fun _ => ?_) fun _ => ?_
  · apply (abreast_note _).bind_same
    intro _
    apply (abreast_liftM hgenerate).bind
    rintro ⟨identifier, supply⟩ _ ⟨hsound, rfl⟩
    exact abreast_pure ⟨rfl, h.bound, h.within, hsound, rfl, h.slots⟩
  · exact abreast_pure ⟨rfl, hself⟩

theorem registerOutput [One F] (h : Stocked lib n t t') (identifier : Nat) :
    Abreast AnyFaults (Stocks lib n) (t.registerOutput identifier)
      (t'.registerOutput identifier) := by
  have hstore := h.store passive [(1, identifier)]
  have hself := h
  obtain ⟨v, rfl⟩ := h.exists_eq
  refine Abreast.ite (fun _ => ?_) fun _ => ?_
  · exact abreast_pure ⟨rfl, hself⟩
  · apply hstore.bind
    rintro ⟨output, u⟩ ⟨_, u'⟩ ⟨rfl, hu⟩
    exact (abreast_liftM (hu.release identifier)).bind fun u u' hu => abreast_pure ⟨rfl, hu⟩

theorem pushBlock (h : Stocked lib n t t') (token fixedSize dynamicSize : Nat)
    (write : Writer → Writer → Except Fault (Writer × Writer)) :
    InStep (Stocks lib n) (t.pushBlock token fixedSize dynamicSize write)
      (t'.pushBlock token fixedSize dynamicSize write) := by
  have hself := h
  obtain ⟨v, rfl⟩ := h.exists_eq
  apply (h.within.inStep_expect token).bind
  rintro f _ ⟨rfl, hf⟩
  refine Abreast.check rfl ?_
  refine Abreast.ite (fun _ => ?_) fun _ => ?_
  · apply (Recording.inStep_prepareBlock t.recording fixedSize dynamicSize).bind_same
    intro _
    apply (inStep_same _).bind_same
    rintro ⟨fixed, dynamic⟩
    apply (inStep_checkBlock hf token fixed dynamic).bind_same
    intro _
    apply (abreast_note _).bind_same
    intro _
    exact abreast_pure ⟨rfl, h.bound, h.within, h.sound, rfl, h.slots⟩
  · exact abreast_pure ⟨rfl, hself⟩

/-! ### Resetting -/

theorem resetTo (h : Stocked lib n t t') (p : Position) :
    InStep (Stocked lib n) (t.resetTo p) (t'.resetTo p) := by
  have hposition := h.position_eq
  obtain ⟨v, rfl⟩ := h.exists_eq
  unfold Tape.resetTo
  rw [hposition]
  refine Abreast.check rfl ?_
  apply (inStep_same _).bind_same
  intro dropped
  apply (abreast_note _).bind_same
  intro _
  rw [Supply.rewindTo_reuse, Supply.rewindTo_reuse]
  exact abreast_pure ⟨h.bound, h.within, h.sound, rfl, h.slots⟩

/-- A reset sorts what was taken back in front of the same stock. -/
theorem reset (h : Stocked lib n t t') : InStep (Stocked lib n) t.reset t'.reset := by
  obtain ⟨v, rfl⟩ := h.exists_eq
  apply (abreast_note _).bind_same
  intro _
  have hrestart : (t.stocked n v).supply.restart = t.supply.restart.stocked n :=
    Supply.restart_stocked h.sound
  rw [hrestart]
  refine abreast_pure ⟨h.bound, h.within, h.sound.restart, rfl, fun hclear => ?_⟩
  show Adjoints.slot (if t.settings.clearOnReset then v.clear else v) =
    Adjoints.slot (if t.settings.clearOnReset then t.adjoints.clear else t.adjoints)
  rw [if_pos hclear, if_pos hclear]
  funext i
  rw [Adjoints.slot_clear, Adjoints.slot_clear]

end Stocked

end Tape

end Autodiff
