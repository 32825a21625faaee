import Autodiff.Proofs.Program.Path
import Autodiff.Proofs.Tape.Clearing

/-!
# Definition before use

Whatever a program takes as an argument was given a value by a statement that it recorded before.
An active variable has its identifier from such a statement, and only active variables become
arguments.  So the identifiers that a recording names are those of its targets.
-/

namespace Autodiff

/-! ## Statements -/

namespace Statement

variable {F : Type} {known : List Nat} {ss more : List (Statement F)}

/-- The arguments of an assignment are known, or were given a value by a statement before it. -/
def Grounded (known : List Nat) : List (Statement F) → Prop
  | [] => True
  | x :: ss => (∀ e ∈ x.entries, e.2 ∈ known) ∧ Grounded (known ++ x.defined) ss

theorem grounded_append :
    Grounded known (ss ++ more) ↔
      Grounded known ss ∧ Grounded (known ++ ss.flatMap defined) more := by
  induction ss generalizing known with
  | nil =>
    rw [List.flatMap_nil, List.append_nil]
    exact (and_iff_right trivial).symm
  | cons x ss ih =>
    show _ ∧ Grounded _ (ss ++ more) ↔ (_ ∧ Grounded _ ss) ∧ _
    rw [ih, List.flatMap_cons, List.append_assoc, and_assoc]

/-- What a statement names is known or given a value by one of the statements. -/
theorem Grounded.mem_of_names (h : Grounded known ss) {x : Statement F} (hx : x ∈ ss) {i : Nat}
    (hi : x.Names i) : i ∈ known ++ ss.flatMap defined := by
  induction ss generalizing known with
  | nil => exact absurd hx List.not_mem_nil
  | cons y ss ih =>
    rw [List.flatMap_cons]
    rcases List.mem_cons.1 hx with rfl | hx
    · have hhere : i ∈ known ∨ i ∈ x.defined := by
        cases x with
        | input t => exact hi.elim False.elim Or.inr
        | block token largest fixed dynamic =>
          exact hi.elim False.elim fun hmem => absurd hmem List.not_mem_nil
        | normal t entries =>
          rcases hi with (rfl | ⟨e, he, rfl⟩) | hmem
          · exact Or.inr (List.mem_singleton_self t)
          · exact Or.inl (h.1 e he)
          · exact absurd hmem List.not_mem_nil
      rw [← List.append_assoc]
      exact List.mem_append_left _ (List.mem_append.2 hhere)
    · rw [← List.append_assoc]
      exact ih h.2 hx

end Statement

/-- What a recording names is named by one of its statements. -/
theorem Recording.Holds.exists_names {F : Type} {r : Recording F} {ss : List (Statement F)}
    (h : r.Holds ss) {i : Nat} (hi : r.Names i) : ∃ x ∈ ss, x.Names i := by
  rcases hi with (⟨item, hitem, rfl, hinput, hblock⟩ | ⟨e, he, rfl⟩) | hitem
  · rw [h.statements] at hitem
    obtain ⟨x, hx, rfl⟩ := List.mem_map.1 hitem
    cases x with
    | input t => exact absurd rfl hinput
    | normal t entries => exact ⟨_, hx, Or.inl (Or.inl rfl)⟩
    | block token largest fixed dynamic => exact absurd rfl hblock
  · rw [h.partials] at he
    obtain ⟨x, hx, he⟩ := List.mem_flatMap.1 he
    cases x with
    | input t => exact absurd he List.not_mem_nil
    | normal t entries => exact ⟨_, hx, Or.inl (Or.inr ⟨e, he, rfl⟩)⟩
    | block token largest fixed dynamic => exact absurd he List.not_mem_nil
  · rw [h.statements] at hitem
    obtain ⟨x, hx, heq⟩ := List.mem_map.1 hitem
    cases x with
    | input t =>
      cases heq
      exact ⟨_, hx, Or.inr (List.mem_singleton_self _)⟩
    | normal t entries => cases heq
    | block token largest fixed dynamic => cases heq

/-! ## One command -/

/-- The identifiers of the active variables are among these. -/
def Machine.Known {F : Type} {s : Scheme} (m : Machine F s) (known : List Nat) : Prop :=
  ∀ x, m.identifier x ≠ passive → m.identifier x ∈ known

section Step

variable {F : Type} [One F] {s : Scheme} {m m' : Machine F s} {p : Primitive F} {name : Nat}
  {a : Variable F} {δ : List (Statement F)} {known : List Nat}

omit [One F] in
theorem Primitive.entries_known (hm : m.Known known) (operands : List (F × Nat)) :
    ∀ e ∈ entries m operands, e.2 ∈ known := by
  intro e he
  obtain ⟨o, -, hne, rfl⟩ := mem_entries.1 he
  exact hm o.2 hne

theorem Primitive.Change.grounded (h : p.Change m name a δ) (hm : m.Known known) :
    Statement.Grounded known δ := by
  cases h with
  | input => exact ⟨fun e he => absurd he List.not_mem_nil, trivial⟩
  | store => exact ⟨entries_known hm _, trivial⟩
  | output => exact ⟨entries_known hm _, trivial⟩
  | passiveInput | passiveStore | drop | passiveOutput | setActive => trivial

/-- A variable that becomes active has been given its identifier by a statement. -/
theorem Primitive.Change.mem_known (h : p.Change m name a δ) (hm : m.Known known)
    (ha : a.identifier ≠ passive) : a.identifier ∈ known ++ δ.flatMap Statement.defined := by
  cases h with
  | input | store | output => exact List.mem_append_right _ (List.mem_singleton_self _)
  | passiveInput | passiveStore | drop => exact absurd rfl ha
  | passiveOutput => exact List.mem_append_left _ (hm name ha)
  | setActive => exact List.mem_append_left _ (hm 0 ha)

theorem Primitive.Step.knows [Zero F] [FixedWidth F] (h : p.Step m m' name a δ)
    (hm : m.Known known) : m'.Known (known ++ δ.flatMap Statement.defined) := by
  intro x hx
  rw [Machine.identifier_update h.variableOf] at hx ⊢
  by_cases hname : x = name
  · rw [if_pos hname] at hx ⊢
    exact h.change.mem_known hm hx
  · rw [if_neg hname] at hx ⊢
    exact List.mem_append_left _ (hm x hx)

end Step

/-! ## Programs -/

section Program

variable {F : Type} [Zero F] [One F] [Add F] [Sub F] [Mul F] [Div F] [Neg F] [IntCast F]
  [Elementary F] [FixedWidth F] {s : Scheme} {cs : List (Command F)} {m m' : Machine F s}
  {δs : List (Statement F)} {known : List Nat}

theorem Path.grounded (h : Path cs m δs m') (hm : m.Known known) :
    Statement.Grounded known δs ∧ m'.Known (known ++ δs.flatMap Statement.defined) := by
  induction h generalizing known with
  | nil =>
    rw [List.flatMap_nil, List.append_nil]
    exact ⟨trivial, hm⟩
  | cons _ hstep _ ih =>
    have hrest := ih (hstep.knows hm)
    rw [Statement.grounded_append, List.flatMap_append, ← List.append_assoc]
    exact ⟨⟨hstep.change.grounded hm, hrest.1⟩, hrest.2⟩

omit [One F] [Add F] [Sub F] [Mul F] [Div F] [Neg F] [IntCast F] [Elementary F] [FixedWidth F] in
theorem Machine.known_start (t : Tape F s) : (start t).Known [] :=
  fun _ hx => absurd rfl hx

end Program

end Autodiff
