import Autodiff.Proofs.Program.Path

/-!
# Inputs apart from assignments

Whether an input is given an identifier that an assignment before it names.  A linear tape never
does that; a tape that uses identifiers again does so when a variable is released before an input is
registered.
-/

namespace Autodiff

/-- When `y` is recorded behind `x`, it does not register an identifier that `x` assigns. -/
def Statement.Apart {F : Type} (x y : Statement F) : Prop := ∀ i ∈ y.registered, ¬x.Assigns i

/-- The identifier that a command registers is not yet named by an assignment. -/
def Command.Unassigned {F : Type} {s : Scheme} (c : Command F) (m : Machine F s) : Prop :=
  ∀ i ∈ c.registered m, ¬m.tape.recording.Assigns i

instance {F : Type} {s : Scheme} (c : Command F) (m : Machine F s) : Decidable (c.Unassigned m) :=
  inferInstanceAs (Decidable (∀ i ∈ c.registered m, ¬m.tape.recording.Assigns i))

/-! ## One command -/

section Step

variable {F : Type} [One F] {s : Scheme} {m m' : Machine F s} {p : Primitive F} {name : Nat}
  {a : Variable F} {δ ss : List (Statement F)}

theorem Primitive.Change.not_lent_of_registered (h : p.Change m name a δ) {i : Nat}
    (hi : i ∈ δ.flatMap Statement.registered) : i ≠ passive ∧ ¬m.tape.supply.Lent i := by
  cases h with
  | input _ _ hne hnot =>
    obtain rfl := List.mem_singleton.1 hi
    exact ⟨hne, hnot⟩
  | store | output | passiveInput | passiveStore | drop | passiveOutput | setActive =>
    exact absurd hi List.not_mem_nil

theorem Primitive.Change.lent_of_assigns (h : p.Change m name a δ) {x : Statement F} (hx : x ∈ δ)
    {i : Nat} (hi : x.Assigns i) :
    (i = a.identifier ∧ i ≠ passive) ∨ ∃ y, i = m.identifier y ∧ i ≠ passive := by
  -- An assignment names its target and the identifiers of its operands.
  have hnormal {i' : Nat} {operands : List (F × Nat)}
      (hassigns : (Statement.normal i' (entries m operands)).Assigns i) :
      i = i' ∨ ∃ y, i = m.identifier y ∧ i ≠ passive := by
    rcases hassigns with heq | ⟨e, he, heq⟩
    · exact Or.inl heq.symm
    · obtain ⟨o, -, hne, ho⟩ := mem_entries.1 he
      rw [← ho] at heq
      exact Or.inr ⟨o.2, heq.symm, heq ▸ hne⟩
  cases h with
  | input =>
    rw [List.mem_singleton.1 hx] at hi
    exact absurd hi id
  | store _ _ hne _ =>
    rw [List.mem_singleton.1 hx] at hi
    exact (hnormal hi).imp_left fun heq => ⟨heq, heq ▸ hne⟩
  | output _ _ hne _ =>
    rw [List.mem_singleton.1 hx] at hi
    exact (hnormal hi).imp_left fun heq => ⟨heq, heq ▸ hne⟩
  | passiveInput | passiveStore | drop | passiveOutput | setActive =>
    exact absurd hx List.not_mem_nil

theorem Primitive.Step.apart [Zero F] [FixedWidth F] (h : p.Step m m' name a δ)
    (hss : ss.Pairwise Statement.Apart)
    (hfresh : ∀ x ∈ ss, ∀ i ∈ δ.flatMap Statement.registered, ¬x.Assigns i) :
    (ss ++ δ).Pairwise Statement.Apart := by
  refine List.pairwise_append.2 ⟨hss, ?_, fun x hx y hy i hi => ?_⟩
  · cases h.change with
    | input | store | output => exact List.pairwise_singleton ..
    | passiveInput | passiveStore | drop | passiveOutput | setActive => exact .nil
  · exact hfresh x hx i (List.mem_flatMap.2 ⟨y, hy, hi⟩)

end Step

/-! ## Programs -/

section Program

variable {F : Type} [Zero F] [One F] [Add F] [Sub F] [Mul F] [Div F] [Neg F] [IntCast F]
  [Elementary F] [FixedWidth F] {cs : List (Command F)} {ss δs : List (Statement F)}

theorem Path.apart {s : Scheme} {m m' : Machine F s} (h : Path cs m δs m') (hm : m.Records ss)
    (hss : ss.Pairwise Statement.Apart) (hcs : Throughout (fun c m => c.Unassigned m) cs m) :
    (ss ++ δs).Pairwise Statement.Apart := by
  induction h generalizing ss with
  | nil => rwa [List.append_nil]
  | cons hyields hstep hpath ih =>
    rw [← List.append_assoc]
    apply ih (hstep.records hm) (hstep.apart hss ?_) (hcs.2 _ hyields)
    intro x hx i hi hassigns
    rw [hstep.change.registered_eq] at hi
    exact hcs.1 i hi (hm.holds.assigns hx hassigns)

theorem Supply.largest_eq_mark (supply : Supply .linear) : supply.largest = supply.mark := by
  cases supply
  rfl

omit [Add F] [Sub F] [Mul F] [Div F] [Neg F] [IntCast F] [Elementary F] in
theorem Primitive.Step.largest_le {m m' : Machine F .linear} {p : Primitive F} {name : Nat}
    {a : Variable F} {δ : List (Statement F)} (h : p.Step m m' name a δ) (hm : m.Records ss) :
    m.tape.supply.largest ≤ m'.tape.supply.largest := by
  -- The largest identifier is the number of statements that took one.
  rw [Supply.largest_eq_mark, Supply.largest_eq_mark, hm.reached.aligned.counted,
    (h.records hm).reached.aligned.counted, Scheme.counterAfter_append]
  exact Nat.le_add_right ..

/-- On a linear tape whatever an assignment names was issued before. -/
theorem Path.apart_linear {m m' : Machine F .linear} (h : Path cs m δs m') (hm : m.Records ss)
    (hss : ss.Pairwise Statement.Apart)
    (hle : ∀ x ∈ ss, ∀ i, x.Assigns i → i ≤ m.tape.supply.largest) :
    (ss ++ δs).Pairwise Statement.Apart := by
  induction h generalizing ss with
  | nil => rwa [List.append_nil]
  | @cons c cs m m₁ m' name a δ δs hyields hstep hpath ih =>
    rw [← List.append_assoc]
    apply ih (hstep.records hm) (hstep.apart hss ?_)
    -- What the new statements assign belongs to variables, and those have what was issued.
    · intro x hx i hi
      rcases List.mem_append.1 hx with hx | hx
      · exact Nat.le_trans (hle x hx i hi) (hstep.largest_le hm)
      · rcases hstep.change.lent_of_assigns hx hi with ⟨rfl, hne⟩ | ⟨y, rfl, hne⟩
        · have hself : m₁.identifier name = a.identifier := by
            rw [Machine.identifier_update hstep.variableOf, if_pos rfl]
          rw [← hself] at hne ⊢
          exact (hstep.owned.lent name hne).1
        · exact Nat.le_trans (hm.owned.lent y hne).1 (hstep.largest_le hm)
    · intro x hx i hi hassigns
      -- What is issued next is not out, so it is larger than all that was issued.
      obtain ⟨-, hnot⟩ := hstep.change.not_lent_of_registered hi
      apply hnot
      refine ⟨hle x hx i hassigns, ?_⟩
      cases m.tape.supply
      exact List.not_mem_nil

end Program

end Autodiff
