import Autodiff.Proofs.Recording.Transpose
import Autodiff.Proofs.Tape.Replay

/-!
# Forward and reverse sweeps are transposes of each other

Each statement of a range is carried by two maps of which one is the transpose of the other, so the
same holds of the two sweeps over the range.
-/

namespace Autodiff

open Recording

variable {F : Type} [CommRing F] [BEq F]

/-- Two computations on vectors with `n` slots are total, and one is the transpose of the other. -/
def Dual (n : Nat) (reverse forward : Adjoints F → Run (Adjoints F)) : Prop :=
  ∀ u v : Adjoints F, u.size = n → v.size = n →
    ∃ u' v', (reverse u).Yields u' ∧ (forward v).Yields v' ∧ u'.size = n ∧ v'.size = n ∧
      dot n u'.slot v.slot = dot n u.slot v'.slot

/-- The two maps of an external function are total on a block, and one is the transpose of the
other. -/
def External.Transposed (f : External F) (n : Nat) (fixed dynamic : List UInt8) : Prop :=
  ∀ u v : Adjoints F, u.size = n → v.size = n →
    ∃ u' v', f.reverse (.ofList fixed) (.ofList dynamic) u = .ok u' ∧
      f.forward (.ofList fixed) (.ofList dynamic) v = .ok v' ∧
      dot n u'.slot v.slot = dot n u.slot v'.slot

variable {n : Nat} {g : Registry F}

theorem dual_carry_block {lib : Library F} (hg : g.Within lib) {token largest : Nat}
    {fixed dynamic : List UInt8} {f : External F} (hf : g.get? token = some f)
    (h : f.Transposed n fixed dynamic) :
    Dual n (fun u => carry g .reverse u (.block token largest fixed dynamic))
      (fun v => carry g .forward v (.block token largest fixed dynamic)) := by
  intro u v hu hv
  obtain ⟨u', v', hreverse, hforward, hdot⟩ := h u v hu hv
  have hsizeReverse : u'.size = u.size := by
    rw [← hg token f hf] at hreverse
    exact lib.size_reverse hreverse
  have hsizeForward : v'.size = v.size := by
    rw [← hg token f hf] at hforward
    exact lib.size_forward hforward
  refine ⟨u', v', fun j => ?_, fun j => ?_, hsizeReverse.trans hu, hsizeForward.trans hv, hdot⟩
  · rw [outcome_carry_block hf]
    exact hreverse
  · rw [outcome_carry_block hf]
    exact hforward

variable [LawfulBEq F]

theorem dual_carry_plain (g : Registry F) {x : Statement F} (hx : x.kind ≠ .block)
    (hlt : x.largest < n) :
    Dual n (fun u => carry g .reverse u x) (fun v => carry g .forward v x) := by
  intro u v hu hv
  obtain ⟨u', hreverse, hsizeReverse, hslotReverse⟩ :=
    Statement.exists_propagate g .reverse hx (hu ▸ hlt)
  obtain ⟨v', hforward, hsizeForward, hslotForward⟩ :=
    Statement.exists_propagate g .forward hx (hv ▸ hlt)
  refine ⟨u', v', fun j => ?_, fun j => ?_, hsizeReverse.trans hu, hsizeForward.trans hv, ?_⟩
  · rw [outcome_carry_plain hx]
    exact hreverse
  · rw [outcome_carry_plain hx]
    exact hforward
  · rw [hslotReverse, hslotForward]
    exact Statement.dot_effect hlt u.slot v.slot

omit [LawfulBEq F] in
/-- The sweep in reverse runs the last statement first, so the product is carried over one
statement at a time. -/
theorem dual_carryAll {ss : List (Statement F)}
    (h : ∀ x ∈ ss, Dual n (fun u => carry g .reverse u x) (fun v => carry g .forward v x)) :
    Dual n (carryAll g .reverse ss) (carryAll g .forward ss) := by
  induction ss with
  | nil =>
    intro u v hu hv
    exact ⟨u, v, Run.yields_pure u, Run.yields_pure v, hu, hv, rfl⟩
  | cons x ss ih =>
    intro u v hu hv
    have hx := h x (List.mem_cons_self ..)
    have hss := ih fun y hy => h y (List.mem_cons_of_mem _ hy)
    -- `v₁` is behind `x` on the way forward, `u₁` is behind `ss` on the way back.
    obtain ⟨-, v₁, -, hv₁, -, hsize, -⟩ := hx u v hu hv
    obtain ⟨u₁, v', hu₁, hv', hsize₁, hsize', hdot⟩ := hss u v₁ hu hsize
    obtain ⟨u', v₂, hu', hv₂, hsizeu', -, hdot'⟩ := hx u₁ v hsize₁ hv
    have heq : v₂ = v₁ := hv₂.unique hv₁
    refine ⟨u', v', ?_, ?_, hsizeu', hsize', ?_⟩
    · rw [carryAll_reverse_cons]
      exact hu₁.bind hu'
    · rw [carryAll_forward_cons]
      exact hv₁.bind hv'
    · rw [hdot', heq, hdot]

/-- Over a range of a reachable tape, the sweep in reverse is the transpose of the sweep forwards,
provided that the external functions of its blocks are. -/
theorem reverse_sweep_is_transpose [FixedWidth F] {lib : Library F} {s : Scheme} {t : Tape F s}
    {h : History F} {p q : Position} {i k : Nat} (hr : Reached lib t h) (hp : h.Valid p i)
    (hq : h.Valid q k) (hle : p ≤ q) {u v : Adjoints F} (hsize : u.size = v.size)
    (hv : ∀ x ∈ h.between i k, x.largest < v.size)
    (hblocks : ∀ token largest fixed dynamic f, .block token largest fixed dynamic ∈ h.between i k →
      t.registry.get? token = some f → f.Transposed v.size fixed dynamic) :
    ∃ u' v', (t.evaluateWith .reverse q p u).Yields u' ∧ (t.evaluateWith .forward p q v).Yields v' ∧
      u'.size = v.size ∧ v'.size = v.size ∧
      dot v.size u'.slot v.slot = dot v.size u.slot v'.slot := by
  have ht := hr.aligned
  -- The external functions only have to be transposes where they are called, and on vectors of
  -- this size.
  have hforward := (ht.evaluateWith_agree hp hq hle v).1
  have hreverse := (ht.evaluateWith_agree hp hq hle u).2
  have hdual : ∀ x ∈ h.between i k, Dual v.size (fun u => carry t.registry .reverse u x)
      (fun v => carry t.registry .forward v x) := by
    intro x hx
    by_cases hkind : x.kind = .block
    · cases x with
      | input t => cases hkind
      | normal t entries => cases hkind
      | block token largest fixed dynamic =>
        obtain ⟨f, hf, -⟩ := ht.readable_between i k _ hx
        exact dual_carry_block ht.within hf (hblocks token largest fixed dynamic f hx hf)
    · exact dual_carry_plain t.registry hkind (hv x hx)
  obtain ⟨u', v', hu', hv', hsizeu, hsizev, hdot⟩ := dual_carryAll hdual u v hsize rfl
  exact ⟨u', v', hreverse.yields hu', hforward.yields hv', hsizeu, hsizev, hdot⟩

/-- On a tape with an assignment and a block. -/
theorem reverse_sweep_is_transpose_of_block :
    ∃ (t : Tape Int .reuse) (h : History Int) (p q : Position),
      Reached .counting t h ∧ h.Valid p 1 ∧ h.Valid q 3 ∧ p ≤ q ∧
      h.between 1 3 = [.normal 2 [(3, 1)], .block 0 0 [1] [9]] ∧
      ∃ u' v' : Adjoints Int, (t.evaluateWith .reverse q p #[0, 5, 2]).Yields u' ∧
        (t.evaluateWith .forward p q #[0, 7, 4]).Yields v' ∧ u'.size = 3 ∧ v'.size = 3 ∧
        dot 3 u'.slot (Adjoints.slot #[0, 7, 4]) = dot 3 (Adjoints.slot #[0, 5, 2]) v'.slot := by
  obtain ⟨t, h, p, q, hr, hp, hq, hle, hbetween⟩ := exists_reached
  have hv : ∀ x ∈ h.between 1 3, x.largest < (#[0, 7, 4] : Adjoints Int).size := by
    rw [hbetween]
    decide
  have hblocks : ∀ token largest fixed dynamic f,
      .block token largest fixed dynamic ∈ h.between 1 3 → t.registry.get? token = some f →
      f.Transposed 3 fixed dynamic := by
    intro token largest fixed dynamic f _ hf u v _ _
    have hf' := hr.aligned.within token f hf
    rw [← hf']
    exact ⟨u, v, rfl, rfl, rfl⟩
  exact ⟨t, h, p, q, hr, hp, hq, hle, hbetween,
    reverse_sweep_is_transpose hr hp hq hle (u := #[0, 5, 2]) rfl hv hblocks⟩

end Autodiff
