import Autodiff.Proofs.Program.Ownership
import Mathlib.Data.List.Infix
import Mathlib.Order.Bounds.Basic

/-!
# The peak of live identifiers

A reusing supply counts on only when it has nothing in stock.  Then all identifiers that it ever
issued are live, so its largest identifier is the greatest number of identifiers that were live
together so far, and not the number of those that were issued.  At every time the live identifiers
and those in stock are the numbers from one up to the largest, each of them once.  The supply runs
out when all identifiers that there are are live, and not before.
-/

namespace Autodiff.Supply

/-! ## Calls -/

/-- What a program can ask of a supply. -/
inductive Call where
  | generate
  /-- Ask for the identifier under which the variable with this one is overwritten. -/
  | claim (identifier : Nat)
  | release (identifier : Nat)
  | restart
  deriving DecidableEq

/-- A reusing supply with the identifiers that were issued and not taken back. -/
structure Usage where
  supply : Supply .reuse
  live : List Nat

namespace Usage

def start : Usage := ⟨.fresh .reuse, []⟩

def issue (u : Usage) (issued : Nat × Supply .reuse) : Usage := ⟨issued.2, issued.1 :: u.live⟩

/-- The live identifiers and those in stock are the numbers up to the largest, each once. -/
structure Whole (u : Usage) : Prop where
  perm : (u.live ++ u.supply.unused).Perm (List.range' 1 u.supply.largest)
  bounded : u.supply.largest < identifierLimit

end Usage

namespace Call

/-- An identifier is given back only while it is live, and one is asked for only while not all that
there are are live. -/
def Allowed (u : Usage) : Call → Prop
  | generate => u.live.length + 1 < identifierLimit
  | claim i => i = passive → u.live.length + 1 < identifierLimit
  | release i => i = passive ∨ i ∈ u.live
  | restart => True

instance (u : Usage) : (c : Call) → Decidable (c.Allowed u)
  | generate => inferInstanceAs (Decidable (u.live.length + 1 < identifierLimit))
  | claim i => inferInstanceAs (Decidable (i = passive → u.live.length + 1 < identifierLimit))
  | release i => inferInstanceAs (Decidable (i = passive ∨ i ∈ u.live))
  | restart => .isTrue trivial

/-- What a call leaves. A variable that comes out with another identifier than its own was issued a
new one. -/
def perform (u : Usage) : Call → Except Fault Usage
  | generate => do
    let issued ← u.supply.generate
    return u.issue issued
  | claim i => do
    let claimed ← u.supply.claim i
    return if claimed.1 = i then { u with supply := claimed.2 } else u.issue claimed
  | release i => do
    let supply ← u.supply.release i
    return ⟨supply, u.live.erase i⟩
  | restart => .ok { u with supply := u.supply.restart }

/-- Perform the calls one after the other on a new supply. -/
def performAll (cs : List Call) : Except Fault Usage := cs.foldlM perform .start

/-- Every call is allowed at the time when it is made. -/
def Lawful (cs : List Call) : Prop :=
  ∀ past c, past ++ [c] <+: cs → ∀ u, performAll past = .ok u → c.Allowed u

/-- How many identifiers were live at the start and after each of the calls. -/
def liveCounts (cs : List Call) : Set Nat :=
  { n | ∃ past u, past <+: cs ∧ performAll past = .ok u ∧ u.live.length = n }

end Call

/-! ## One call -/

namespace Usage

variable {u : Usage}

theorem whole_start : start.Whole := ⟨List.Perm.nil, by decide⟩

theorem Whole.length_add (h : u.Whole) :
    u.live.length + u.supply.unused.length = u.supply.largest := by
  rw [← List.length_append, h.perm.length_eq, List.length_range']

theorem Whole.length_le (h : u.Whole) : u.live.length ≤ u.supply.largest :=
  h.length_add ▸ Nat.le_add_right _ _

theorem Whole.nodup (h : u.Whole) : (u.live ++ u.supply.unused).Nodup :=
  h.perm.nodup_iff.2 List.nodup_range'

theorem Whole.mem_iff (h : u.Whole) {i : Nat} :
    i ∈ u.live ++ u.supply.unused ↔ i ≠ passive ∧ i ≤ u.supply.largest := by
  rw [h.perm.mem_iff, List.mem_range'_1]
  show _ ↔ i ≠ 0 ∧ _
  omega

theorem Whole.sound (h : u.Whole) : u.supply.Sound where
  unused _ hi := h.mem_iff.1 (List.mem_append_right _ hi)
  nodup := (List.nodup_append.1 h.nodup).2.1
  bounded := h.bounded

/-- The live identifiers are those that are out. -/
theorem Whole.mem_live_iff (h : u.Whole) {i : Nat} :
    i ∈ u.live ↔ i ≠ passive ∧ u.supply.Lent i := by
  constructor
  · intro hi
    obtain ⟨hne, hle⟩ := h.mem_iff.1 (List.mem_append_left _ hi)
    exact ⟨hne, hle, fun hunused => (List.nodup_append.1 h.nodup).2.2 i hi i hunused rfl⟩
  · rintro ⟨hne, hle, hnot⟩
    exact (List.mem_append.1 (h.mem_iff.2 ⟨hne, hle⟩)).resolve_right hnot

/-- None is left when all that there are are live. -/
theorem Whole.exhausted_iff (h : u.Whole) :
    u.supply.Exhausted ↔ identifierLimit ≤ u.live.length + 1 := by
  have hlength := h.length_add
  have hbounded := h.bounded
  constructor
  · rintro ⟨hunused, hle⟩
    rw [hunused, List.length_nil] at hlength
    omega
  · intro hle
    exact ⟨List.length_eq_zero_iff.1 (by omega), by omega⟩

theorem Whole.issue (h : u.Whole) {i : Nat} {supply : Supply .reuse}
    (hg : u.supply.generate = .ok (i, supply)) :
    (u.issue (i, supply)).Whole ∧ supply.largest = max u.supply.largest (u.live.length + 1) := by
  have hlength := h.length_add
  have hperm := h.perm
  rcases generate_cases hg with ⟨hunused, hi, hlt, hlargest, hunused'⟩ | ⟨hstock, hlargest⟩
  -- Nothing is in stock, so as many identifiers are live as were ever issued.
  · rw [hunused, List.append_nil] at hperm
    rw [hunused, List.length_nil] at hlength
    refine ⟨⟨?_, hlargest ▸ hlt⟩, by omega⟩
    show (i :: u.live ++ supply.unused).Perm (List.range' 1 supply.largest)
    rw [hunused', List.append_nil, hlargest, hi, List.range'_1_concat, Nat.add_comm 1]
    exact (hperm.cons _).trans (List.perm_append_singleton _ _).symm
  -- What is handed out changes sides.
  · rw [hstock] at hperm
    rw [hstock, List.length_cons] at hlength
    refine ⟨⟨?_, hlargest ▸ h.bounded⟩, by omega⟩
    show (i :: u.live ++ supply.unused).Perm (List.range' 1 supply.largest)
    rw [hlargest]
    exact List.perm_middle.symm.trans hperm

theorem Whole.release (h : u.Whole) {i : Nat} {supply : Supply .reuse}
    (hi : u.supply.release i = .ok supply) :
    (Usage.mk supply (u.live.erase i)).Whole ∧ supply.largest = u.supply.largest ∧
      (i = passive ∨ i ∈ u.live) := by
  have hperm := h.perm
  rcases release_cases hi with ⟨rfl, hlinear | rfl⟩ | ⟨-, hne, hle, hnot, hlargest, hunused⟩
  · cases hlinear
  -- The passive identifier is not live.
  · have hlive : passive ∉ u.live := fun hmem => (h.mem_live_iff.1 hmem).1 rfl
    rw [List.erase_of_not_mem hlive]
    exact ⟨h, rfl, Or.inl rfl⟩
  · have hlive : i ∈ u.live := h.mem_live_iff.2 ⟨hne, hle, hnot⟩
    refine ⟨⟨?_, hlargest ▸ h.bounded⟩, hlargest, Or.inr hlive⟩
    show (u.live.erase i ++ supply.unused).Perm (List.range' 1 supply.largest)
    have herase : (i :: u.live.erase i).Perm u.live := (List.perm_cons_erase hlive).symm
    rw [hunused, hlargest]
    exact (List.perm_middle.trans (herase.append_right _)).trans hperm

theorem Whole.restart (h : u.Whole) : Whole { u with supply := u.supply.restart } := by
  obtain ⟨supply, live⟩ := u
  cases supply with
  | reuse largest unused =>
    exact ⟨((List.mergeSort_perm unused _).append_left live).trans h.perm, h.bounded⟩

end Usage

open Usage

namespace Call

variable {u u' : Usage} {c : Call}

/-- A live variable keeps its identifier, and a passive one is given one as a new variable is. -/
theorem perform_claim (h : u.Whole) (i : Nat) :
    (claim i).perform u = if i = passive then generate.perform u else .ok u := by
  by_cases hpassive : i = passive
  · rw [if_pos hpassive, hpassive, perform, perform, claim_passive]
    cases hg : u.supply.generate with
    | error e => rfl
    | ok issued =>
      -- What is issued is never passive, so the variable does not come out as it went in.
      have hnew : issued.1 ≠ passive := (generate_spec h.sound hg).1
      show Except.ok (if issued.1 = passive then _ else _) = Except.ok _
      rw [if_neg hnew]
  · rw [if_neg hpassive, perform, claim_reuse hpassive]
    show Except.ok (if i = i then _ else _) = Except.ok u
    rw [if_pos rfl]

theorem exists_generate_perform_iff (h : u.Whole) :
    (∃ u', generate.perform u = .ok u') ↔ u.live.length + 1 < identifierLimit := by
  rw [← Nat.not_le, ← h.exhausted_iff, ← exists_generate_iff]
  simp only [perform, Fault.bind_eq_ok_iff, Prod.exists]
  constructor
  · rintro ⟨u', i, supply, hg, -⟩
    exact ⟨i, supply, hg⟩
  · rintro ⟨i, supply, hg⟩
    exact ⟨_, i, supply, hg, rfl⟩

/-- Exactly the allowed calls do not fail. -/
theorem exists_perform_iff (h : u.Whole) : (∃ u', c.perform u = .ok u') ↔ c.Allowed u := by
  cases c with
  | generate => exact exists_generate_perform_iff h
  | claim i =>
    rw [perform_claim h, Allowed]
    by_cases hpassive : i = passive
    · rw [if_pos hpassive, forall_prop_of_true hpassive]
      exact exists_generate_perform_iff h
    · rw [if_neg hpassive]
      exact ⟨fun _ hi => absurd hi hpassive, fun _ => ⟨u, rfl⟩⟩
  | release i =>
    constructor
    · rintro ⟨u', hu'⟩
      obtain ⟨supply, hrelease, -⟩ := Fault.bind_eq_ok_iff.1 hu'
      exact (h.release hrelease).2.2
    · intro hi
      have hrelease : ∃ supply, u.supply.release i = .ok supply := by
        rcases hi with rfl | hlive
        · exact ⟨_, release_passive _⟩
        · obtain ⟨supply, hrelease, -⟩ := release_spec h.sound (h.mem_live_iff.1 hlive).2
          exact ⟨supply, hrelease⟩
      obtain ⟨supply, hrelease⟩ := hrelease
      exact ⟨_, Fault.bind_eq_ok_iff.2 ⟨supply, hrelease, rfl⟩⟩
  | restart => exact ⟨fun _ => trivial, fun _ => ⟨_, rfl⟩⟩

theorem generate_perform_spec (h : u.Whole) (hu' : generate.perform u = .ok u') :
    u'.Whole ∧ u'.supply.largest = max u.supply.largest u'.live.length := by
  obtain ⟨⟨i, supply⟩, hg, hu'⟩ := Fault.bind_eq_ok_iff.1 hu'
  cases hu'
  exact h.issue hg

/-- The largest identifier rises exactly if more identifiers are live after a call than it says. -/
theorem perform_spec (h : u.Whole) (hu' : c.perform u = .ok u') :
    u'.Whole ∧ u'.supply.largest = max u.supply.largest u'.live.length := by
  cases c with
  | generate => exact generate_perform_spec h hu'
  | claim i =>
    rw [perform_claim h] at hu'
    split at hu'
    · exact generate_perform_spec h hu'
    · cases hu'
      exact ⟨h, (Nat.max_eq_left h.length_le).symm⟩
  | release i =>
    obtain ⟨supply, hrelease, hu'⟩ := Fault.bind_eq_ok_iff.1 hu'
    obtain ⟨hwhole, hsame, -⟩ := h.release hrelease
    cases hu'
    refine ⟨hwhole, ?_⟩
    rw [← hsame]
    exact (Nat.max_eq_left hwhole.length_le).symm
  | restart =>
    cases hu'
    refine ⟨h.restart, ?_⟩
    show u.supply.restart.largest = max u.supply.largest u.live.length
    rw [largest_restart_reuse, Nat.max_eq_left h.length_le]

end Call

/-! ## Sequences of calls -/

namespace Call

variable {cs : List Call} {c : Call} {u u' : Usage}

theorem performAll_concat (hu : performAll cs = .ok u) :
    performAll (cs ++ [c]) = c.perform u := by
  rw [performAll, List.foldlM_append, show cs.foldlM perform .start = .ok u from hu]
  exact bind_pure (c.perform u)

theorem lawful_concat_iff :
    Lawful (cs ++ [c]) ↔ Lawful cs ∧ ∀ u, performAll cs = .ok u → c.Allowed u := by
  constructor
  · intro h
    exact ⟨fun past d hstart => h past d (hstart.trans (List.prefix_append _ _)),
      h cs c (List.prefix_refl _)⟩
  · rintro ⟨hcs, hc⟩ past d hstart
    rcases List.prefix_concat_iff.1 hstart with heq | hstart
    · obtain ⟨rfl, hd⟩ := List.append_inj' heq rfl
      cases hd
      exact hc
    · exact hcs past d hstart

theorem Lawful.concat (h : Lawful cs) (hu : performAll cs = .ok u) (hc : c.Allowed u) :
    Lawful (cs ++ [c]) := by
  refine lawful_concat_iff.2 ⟨h, fun u' hu' => ?_⟩
  cases hu.symm.trans hu'
  exact hc

theorem Lawful.past {past : List Call} (h : Lawful cs) (hpast : past <+: cs) : Lawful past :=
  fun before c hstart => h before c (hstart.trans hpast)

theorem liveCounts_nil : liveCounts [] = {0} := by
  ext n
  constructor
  · rintro ⟨past, u, hpast, hu, rfl⟩
    rw [List.prefix_nil.1 hpast] at hu
    cases hu
    rfl
  · rintro rfl
    exact ⟨[], .start, List.prefix_refl _, rfl, rfl⟩

theorem liveCounts_concat (hu : performAll (cs ++ [c]) = .ok u) :
    liveCounts (cs ++ [c]) = insert u.live.length (liveCounts cs) := by
  ext n
  constructor
  · rintro ⟨past, u', hpast, hu', rfl⟩
    rcases List.prefix_concat_iff.1 hpast with rfl | hpast
    · cases hu.symm.trans hu'
      exact Or.inl rfl
    · exact Or.inr ⟨past, u', hpast, hu', rfl⟩
  · rintro (rfl | ⟨past, u', hpast, hu', rfl⟩)
    · exact ⟨_, u, List.prefix_refl _, hu, rfl⟩
    · exact ⟨past, u', hpast.trans (List.prefix_append _ _), hu', rfl⟩

theorem Lawful.exists_performAll (h : Lawful cs) :
    ∃ u, performAll cs = .ok u ∧ u.Whole ∧ IsGreatest (liveCounts cs) u.supply.largest := by
  induction cs using List.reverseRecOn with
  | nil =>
    refine ⟨.start, rfl, whole_start, ?_⟩
    rw [liveCounts_nil]
    exact isGreatest_singleton
  | append_singleton cs c ih =>
    obtain ⟨hcs, hc⟩ := lawful_concat_iff.1 h
    obtain ⟨u, hu, hwhole, hgreatest⟩ := ih hcs
    obtain ⟨u', hperform⟩ := (exists_perform_iff hwhole).2 (hc u hu)
    obtain ⟨hwhole', hlargest⟩ := perform_spec hwhole hperform
    have hu' : performAll (cs ++ [c]) = .ok u' := (performAll_concat hu).trans hperform
    refine ⟨u', hu', hwhole', ?_⟩
    -- The call adds one count, and the largest identifier follows it if it is a new peak.
    rw [liveCounts_concat hu', hlargest, max_comm]
    exact hgreatest.insert _

end Call

end Autodiff.Supply
