import Autodiff.Fault

/-!
# Identifier supplies

A supply issues the identifiers of active variables.  A linear supply counts upwards and never
issues an identifier twice, so the identifiers issued between two points form a range.  A reusing
supply keeps a stack of released identifiers and issues those first, so that its largest
identifier follows the number of variables that were alive together.  There are only so many
identifiers; a supply that has issued them all faults when it is asked for another one.
-/

namespace Autodiff

/-- The state of a supply. The released identifiers of a reusing supply stand with the next one to
be issued in front. -/
inductive Supply : Scheme → Type where
  | linear (count : Nat) : Supply .linear
  | reuse (largest : Nat) (unused : List Nat) : Supply .reuse

namespace Supply

def fresh : (s : Scheme) → Supply s
  | .linear => .linear 0
  | .reuse => .reuse 0 []

def largest {s : Scheme} : Supply s → Nat
  | .linear count => count
  | .reuse largest _ => largest

/-- The released identifiers, the next one to be issued in front. -/
def unused {s : Scheme} : Supply s → List Nat
  | .linear _ => []
  | .reuse _ unused => unused

/-- Count on by one, as long as there are identifiers left. -/
def increment (s : Scheme) (n : Nat) : Except Fault Nat :=
  if n + 1 < identifierLimit then .ok (n + 1) else .error (.outOfIdentifiers s)

def generate {s : Scheme} : Supply s → Except Fault (Nat × Supply s)
  | .linear count => do
    let count ← increment .linear count
    return (count, .linear count)
  | .reuse largest [] => do
    let largest ← increment .reuse largest
    return (largest, .reuse largest [])
  | .reuse largest (identifier :: rest) => return (identifier, .reuse largest rest)

/-- Take an identifier back. A linear supply forgets it; a reusing supply refuses identifiers that
it did not issue or that it already holds. The passive identifier is always ignored. -/
def release {s : Scheme} (supply : Supply s) (identifier : Nat) : Except Fault (Supply s) :=
  match supply with
  | .linear count => .ok (.linear count)
  | .reuse largest unused =>
    if identifier = passive then .ok (.reuse largest unused)
    else if largest < identifier then .error (.neverIssued identifier largest)
    else if identifier ∈ unused then .error (.alreadyFree identifier)
    else .ok (.reuse largest (identifier :: unused))

/-- The identifier under which a variable is overwritten: a new one under the linear scheme, its
own one under the reusing scheme unless the variable was passive. -/
def claim {s : Scheme} (supply : Supply s) (identifier : Nat) : Except Fault (Nat × Supply s) :=
  match supply with
  | .linear count => generate (.linear count)
  | .reuse largest unused =>
    if identifier = passive then generate (.reuse largest unused)
    else return (identifier, .reuse largest unused)

def mark {s : Scheme} : Supply s → Nat
  | .linear count => count
  | .reuse _ _ => 0

def rewindTo {s : Scheme} (supply : Supply s) (counter : Nat) : Except Fault (Supply s) :=
  match supply with
  | .linear count => if counter ≤ count then .ok (.linear counter) else .error .counterAhead
  | .reuse largest unused => .ok (.reuse largest unused)

/-- Start over. A reusing supply keeps its released identifiers and will issue the lowest of them
first. -/
def restart {s : Scheme} : Supply s → Supply s
  | .linear _ => .linear 0
  | .reuse largest unused => .reuse largest (unused.mergeSort fun a b => decide (a ≤ b))

/-! ## Issuing and taking back -/

section Issue

variable {s : Scheme} {supply supply' : Supply s} {i old : Nat}

/-- No identifier is left to be issued. -/
def Exhausted (supply : Supply s) : Prop :=
  supply.unused = [] ∧ identifierLimit ≤ supply.largest + 1

theorem increment_eq_ok_iff {n n' : Nat} :
    increment s n = .ok n' ↔ n + 1 < identifierLimit ∧ n + 1 = n' := by
  unfold increment
  by_cases h : n + 1 < identifierLimit
  · simp [h]
  · simp [h]

theorem generate_of_exhausted (h : supply.Exhausted) :
    supply.generate = .error (.outOfIdentifiers s) := by
  obtain ⟨hunused, hlargest⟩ := h
  cases supply with
  | linear count =>
    have hfull : ¬count + 1 < identifierLimit := Nat.not_lt.2 hlargest
    rw [generate, increment, if_neg hfull]
    rfl
  | reuse largest unused =>
    have hnone : unused = [] := hunused
    have hfull : ¬largest + 1 < identifierLimit := Nat.not_lt.2 hlargest
    rw [hnone, generate, increment, if_neg hfull]
    rfl

/-- An identifier that is issued is in stock, or one more than the largest. -/
theorem generate_cases (h : supply.generate = .ok (i, supply')) :
    (supply.unused = [] ∧ i = supply.largest + 1 ∧ i < identifierLimit ∧ supply'.largest = i ∧
      supply'.unused = []) ∨
    (supply.unused = i :: supply'.unused ∧ supply'.largest = supply.largest) := by
  cases supply with
  | linear count =>
    obtain ⟨n, hn, h⟩ := Fault.bind_eq_ok_iff.1 h
    obtain ⟨hlt, rfl⟩ := increment_eq_ok_iff.1 hn
    cases h
    exact Or.inl ⟨rfl, rfl, hlt, rfl, rfl⟩
  | reuse largest unused =>
    cases unused with
    | nil =>
      obtain ⟨n, hn, h⟩ := Fault.bind_eq_ok_iff.1 h
      obtain ⟨hlt, rfl⟩ := increment_eq_ok_iff.1 hn
      cases h
      exact Or.inl ⟨rfl, rfl, hlt, rfl, rfl⟩
    | cons first rest =>
      cases h
      exact Or.inr ⟨rfl, rfl⟩

theorem exists_generate (h : ¬supply.Exhausted) :
    ∃ i supply', supply.generate = .ok (i, supply') := by
  cases supply with
  | linear count =>
    have hlt : count + 1 < identifierLimit := Nat.lt_of_not_le fun hle => h ⟨rfl, hle⟩
    rw [generate, increment, if_pos hlt]
    exact ⟨_, _, rfl⟩
  | reuse largest unused =>
    cases unused with
    | nil =>
      have hlt : largest + 1 < identifierLimit := Nat.lt_of_not_le fun hle => h ⟨rfl, hle⟩
      rw [generate, increment, if_pos hlt]
      exact ⟨_, _, rfl⟩
    | cons first rest => exact ⟨_, _, rfl⟩

theorem exists_generate_iff :
    (∃ i supply', supply.generate = .ok (i, supply')) ↔ ¬supply.Exhausted := by
  refine ⟨?_, exists_generate⟩
  rintro ⟨i, supply', hg⟩ h
  cases hg.symm.trans (generate_of_exhausted h)

/-- The one reason not to issue an identifier is that there is none. -/
theorem generate_total (supply : Supply s) :
    (∃ i supply', supply.generate = .ok (i, supply')) ∨
      (supply.Exhausted ∧ supply.generate = .error (.outOfIdentifiers s)) := by
  by_cases h : supply.Exhausted
  · exact Or.inr ⟨h, generate_of_exhausted h⟩
  · exact Or.inl (exists_generate h)

theorem largest_generate_le (h : supply.generate = .ok (i, supply')) :
    supply'.largest ≤ supply.largest + 1 := by
  rcases generate_cases h with ⟨-, hi, -, hlargest, -⟩ | ⟨-, hlargest⟩
  · exact Nat.le_of_eq (hlargest.trans hi)
  · rw [hlargest]
    exact Nat.le_succ _

/-- A reusing supply lets an active variable keep its identifier; whatever else is claimed is
issued. -/
theorem claim_eq (supply : Supply s) (old : Nat) :
    supply.claim old = supply.generate ∨
      (s = .reuse ∧ old ≠ passive ∧ supply.claim old = .ok (old, supply)) := by
  cases supply with
  | linear count => exact Or.inl rfl
  | reuse largest unused =>
    by_cases hpassive : old = passive
    · rw [claim, if_pos hpassive]
      exact Or.inl rfl
    · rw [claim, if_neg hpassive]
      exact Or.inr ⟨rfl, hpassive, rfl⟩

theorem claim_cases (h : supply.claim old = .ok (i, supply')) :
    supply.generate = .ok (i, supply') ∨
      (s = .reuse ∧ old ≠ passive ∧ i = old ∧ supply' = supply) := by
  rcases claim_eq supply old with heq | ⟨hs, hpassive, heq⟩
  · exact Or.inl (heq ▸ h)
  · rw [heq] at h
    cases h
    exact Or.inr ⟨hs, hpassive, rfl, rfl⟩

theorem claim_passive (supply : Supply s) : supply.claim passive = supply.generate :=
  (claim_eq supply passive).resolve_right fun h => h.2.1 rfl

theorem claim_reuse {supply : Supply .reuse} (h : old ≠ passive) :
    supply.claim old = .ok (old, supply) := by
  cases supply
  rw [claim, if_neg h]
  rfl

theorem claim_total (supply : Supply s) (old : Nat) :
    (∃ i supply', supply.claim old = .ok (i, supply')) ∨
      (supply.Exhausted ∧ supply.claim old = .error (.outOfIdentifiers s)) := by
  rcases claim_eq supply old with heq | ⟨-, -, heq⟩
  · rw [heq]
    exact generate_total supply
  · exact Or.inl ⟨_, _, heq⟩

theorem largest_claim_le (h : supply.claim old = .ok (i, supply')) :
    supply'.largest ≤ supply.largest + 1 := by
  rcases claim_cases h with h | ⟨-, -, -, rfl⟩
  · exact largest_generate_le h
  · exact Nat.le_succ _

/-- An identifier that is taken back is forgotten, or lies in front of the others from then on. -/
theorem release_cases (h : supply.release i = .ok supply') :
    (supply' = supply ∧ (s = .linear ∨ i = passive)) ∨
      (s = .reuse ∧ i ≠ passive ∧ i ≤ supply.largest ∧ i ∉ supply.unused ∧
        supply'.largest = supply.largest ∧ supply'.unused = i :: supply.unused) := by
  cases supply with
  | linear count =>
    cases h
    exact Or.inl ⟨rfl, Or.inl rfl⟩
  | reuse largest unused =>
    simp only [release] at h
    split at h
    · next hpassive =>
      cases h
      exact Or.inl ⟨rfl, Or.inr hpassive⟩
    · next hpassive =>
      split at h
      · cases h
      · next hle =>
        split at h
        · cases h
        · next hnot =>
          cases h
          exact Or.inr ⟨rfl, hpassive, Nat.le_of_not_lt hle, hnot, rfl, rfl⟩

theorem largest_release (h : supply.release i = .ok supply') :
    supply'.largest = supply.largest := by
  rcases release_cases h with ⟨rfl, -⟩ | ⟨-, -, -, -, hlargest, -⟩
  · rfl
  · exact hlargest

end Issue

/-! ## Starting over -/

theorem rewindTo_reuse (supply : Supply .reuse) (counter : Nat) :
    supply.rewindTo counter = .ok supply := by
  cases supply
  rfl

@[simp] theorem largest_fresh (s : Scheme) : (fresh s).largest = 0 := by
  cases s <;> rfl

@[simp] theorem unused_fresh (s : Scheme) : (fresh s).unused = [] := by
  cases s <;> rfl

@[simp] theorem largest_restart_reuse (supply : Supply .reuse) :
    supply.restart.largest = supply.largest := by
  cases supply
  rfl

theorem mem_unused_restart {supply : Supply .reuse} {identifier : Nat} :
    identifier ∈ supply.restart.unused ↔ identifier ∈ supply.unused := by
  cases supply
  exact List.mem_mergeSort

end Supply

/-! ## Reports -/

/-- What a tape tells about its supply. -/
structure SupplyReport where
  linear : Bool
  largest : Nat
  unused : Nat
  deriving DecidableEq

def Supply.report {s : Scheme} (supply : Supply s) : SupplyReport :=
  ⟨decide (s = .linear), supply.largest, supply.unused.length⟩

def SupplyReport.text (r : SupplyReport) : String :=
  let scheme := if r.linear then "linear" else "reuse"
  s!"{scheme} indices: largest {r.largest}, {r.unused} held for reuse"

end Autodiff
