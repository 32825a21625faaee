import Autodiff.Proofs.Program.Path

/-!
# Two tapes under one program

A program that runs on two tapes gives both the same statements but for the identifiers: the values
of the variables agree, the same variables are active, and assignments have the same derivatives by
the same variables.
-/

namespace Autodiff

section Alike

variable {F : Type} {s s' : Scheme} {l l' : Machine F s} {r r' : Machine F s'}

/-- The variables differ in nothing but their identifiers. -/
structure Machine.Alike (l : Machine F s) (r : Machine F s') : Prop where
  value : l.value = r.value
  active : l.tape.active = r.tape.active
  passive : ∀ x, l.identifier x = passive ↔ r.identifier x = passive

theorem Machine.Alike.entries_eq_nil_iff (h : l.Alike r) (operands : List (F × Nat)) :
    Primitive.entries l operands = [] ↔ Primitive.entries r operands = [] := by
  have hsame : (fun e : F × Nat => l.identifier e.2 != Autodiff.passive) = fun e =>
      r.identifier e.2 != Autodiff.passive := by
    funext e
    rw [Bool.eq_iff_iff, bne_iff_ne, bne_iff_ne, ne_eq, ne_eq, h.passive]
  rw [Primitive.entries_eq_map, Primitive.entries_eq_map, List.map_eq_nil_iff, List.map_eq_nil_iff,
    hsame]

/-! ## One command -/

/-- The changes to the variable `name` and the statements of one command on two tapes. -/
inductive Together (l : Machine F s) (r : Machine F s') (name : Nat) :
    Variable F → Variable F → List (Statement F) → List (Statement F) → Prop
  | input {x : F} {i i' : Nat} : i ≠ passive → ¬l.tape.supply.Lent i →
    i' ≠ passive → ¬r.tape.supply.Lent i' →
    Together l r name ⟨x, i⟩ ⟨x, i'⟩ [.input i] [.input i']
  | normal {x : F} {i i' : Nat} (operands : List (F × Nat)) :
    i ≠ passive → (i = l.identifier name ∨ ¬l.tape.supply.Lent i) →
    i' ≠ passive → (i' = r.identifier name ∨ ¬r.tape.supply.Lent i') →
    Together l r name ⟨x, i⟩ ⟨x, i'⟩ [.normal i (Primitive.entries l operands)]
      [.normal i' (Primitive.entries r operands)]
  | constant {x : F} : Together l r name (.constant x) (.constant x) [] []
  | same : Together l r name (l.variableOf name) (r.variableOf name) [] []

namespace Machine.Alike

theorem together [One F] (h : l.Alike r) {p : Primitive F} {name name' : Nat} {a a' : Variable F}
    {δ δ' : List (Statement F)} (hl : p.Change l name a δ) (hr : p.Change r name' a' δ') :
    name' = name ∧ Together l r name a a' δ δ' := by
  have hactive := h.active
  -- Both tapes take the same branch: activity and passive variables are the same.
  cases hl with
  | input hon _ hne hnot =>
    cases hr with
    | input _ _ hne' hnot' => exact ⟨rfl, .input hne hnot hne' hnot'⟩
    | passiveInput hoff =>
      rw [hon, hoff] at hactive
      cases hactive
  | passiveInput hoff =>
    cases hr with
    | input hon =>
      rw [hon, hoff] at hactive
      cases hactive
    | passiveInput => exact ⟨rfl, .constant⟩
  | store hon hentries hne hwhose =>
    cases hr with
    | store _ _ hne' hwhose' => exact ⟨rfl, .normal _ hne hwhose hne' hwhose'⟩
    | passiveStore hoff =>
      -- An operand that is active on the left would be missing on the right.
      rcases hoff with hoff | hnone
      · rw [hon, hoff] at hactive
        cases hactive
      · exact absurd ((h.entries_eq_nil_iff _).2 hnone) hentries
  | passiveStore hoff =>
    cases hr with
    | store hon hentries =>
      rcases hoff with hoff | hnone
      · rw [hon, hoff] at hactive
        cases hactive
      · exact absurd ((h.entries_eq_nil_iff _).1 hnone) hentries
    | passiveStore => exact ⟨rfl, .constant⟩
  | drop =>
    cases hr with
    | drop => exact ⟨rfl, .constant⟩
  | output hon hname hne hnot =>
    cases hr with
    | output _ _ hne' hnot' =>
      rw [h.value]
      exact ⟨rfl, .normal _ hne (Or.inr hnot) hne' (Or.inr hnot')⟩
    | passiveOutput hoff =>
      rcases hoff with hoff | hpassive
      · rw [hon, hoff] at hactive
        cases hactive
      · exact absurd ((h.passive _).2 hpassive) hname
  | passiveOutput hoff =>
    cases hr with
    | output hon hname =>
      rcases hoff with hoff | hpassive
      · rw [hon, hoff] at hactive
        cases hactive
      · exact absurd ((h.passive _).1 hpassive) hname
    | passiveOutput => exact ⟨rfl, .same⟩
  | setActive =>
    cases hr with
    | setActive => exact ⟨rfl, .same⟩

end Machine.Alike

theorem Machine.Alike.step [Zero F] [One F] [FixedWidth F] (h : l.Alike r) {p : Primitive F}
    {name name' : Nat} {a a' : Variable F} {δ δ' : List (Statement F)}
    (hl : p.Step l l' name a δ) (hr : p.Step r r' name' a' δ') : l'.Alike r' := by
  obtain ⟨rfl, htogether⟩ := h.together hl.change hr.change
  have hvalue : a.value = a'.value := by
    cases htogether with
    | input | normal | constant => rfl
    | same => exact congrFun h.value name'
  have hpassive : a.identifier = Autodiff.passive ↔ a'.identifier = Autodiff.passive := by
    cases htogether with
    | input hne _ hne' _ => exact iff_of_false hne hne'
    | normal _ hne _ hne' _ => exact iff_of_false hne hne'
    | constant => exact Iff.rfl
    | same => exact h.passive name'
  refine ⟨funext fun x => ?_, ?_, fun x => ?_⟩
  · rw [Machine.value_update hl.variableOf, Machine.value_update hr.variableOf, hvalue, h.value]
  · rw [hl.active, hr.active, h.active]
  · rw [Machine.identifier_update hl.variableOf, Machine.identifier_update hr.variableOf]
    split
    · exact hpassive
    · exact h.passive x

end Alike

end Autodiff
