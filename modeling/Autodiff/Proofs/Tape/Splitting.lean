import Autodiff.Proofs.Tape.Appending

/-!
# Splitting a sweep

A sweep over a range can be stopped at any position inside and taken up again from there: the two
parts leave the same vector as the sweep in one go, and run the same external functions in the same
order.  Sweeps keep the number of slots, so the second part finds nothing to make room for.
-/

namespace Autodiff

open Recording

/-! ## The number of slots -/

section Sizes

variable {F : Type} [Zero F] [Add F] [Mul F] [BEq F] {lib : Library F} {g : Registry F}

omit [Zero F] [BEq F] in
theorem Statement.size_scatter {bar : F} {entries : List (F × Nat)} {v w : Adjoints F}
    (h : scatter bar entries v = .ok w) : w.size = v.size := by
  induction entries generalizing v with
  | nil =>
    cases h
    rfl
  | cons e entries ih =>
    rw [scatter, Fault.bind_eq_ok_iff] at h
    obtain ⟨v₁, hadd, hrest⟩ := h
    exact (ih hrest).trans (Adjoints.size_add hadd)

theorem Statement.size_propagate (hg : g.Within lib) {d : Direction} {x : Statement F}
    {v w : Adjoints F} (h : x.propagate g d v = .ok w) : w.size = v.size := by
  cases x with
  | input t =>
    cases h
    rfl
  | normal t entries =>
    cases d with
    | forward =>
      simp only [propagate, Fault.bind_eq_ok_iff] at h
      obtain ⟨y, -, hput⟩ := h
      exact Adjoints.size_put hput
    | reverse =>
      simp only [propagate, Fault.bind_eq_ok_iff] at h
      obtain ⟨⟨bar, v₁⟩, hpull, h⟩ := h
      have hsize := Adjoints.size_pull hpull
      split at h
      · exact (size_scatter h).trans hsize
      · cases h
        exact hsize
  | block token largest fixed dynamic =>
    simp only [propagate, Fault.bind_eq_ok_iff] at h
    obtain ⟨f, hf, h⟩ := h
    have hf' := hg token f (Registry.expect_eq_ok_iff.1 hf)
    have halong : f.along d (.ofList fixed) (.ofList dynamic) v = .ok w := by
      cases d <;> exact h
    rw [← hf'] at halong
    exact lib.size_along halong

omit lib in
theorem Recording.propagate_of_pace_carry {d : Direction} {x : Statement F} {v w : Adjoints F}
    {j j' : Journal} (h : (pace g (carry g d) v x).outcome j = (.ok w, j')) :
    x.propagate g d v = .ok w := by
  rw [pace, Run.outcome_bind_eq_ok_iff] at h
  obtain ⟨_, k, -, h⟩ := h
  rw [carry, Run.outcome_bind_eq_ok_iff] at h
  obtain ⟨_, k', -, h⟩ := h
  exact (Run.outcome_liftM_eq_ok_iff.1 h).1

end Sizes

section Sweeps

variable {F : Type} [Zero F] [Add F] [Mul F] [BEq F] {lib : Library F} {s : Scheme} {t : Tape F s}
  {h : History F} {p q o : Position} {i k l : Nat} {d : Direction}

/-- What the effect of every statement keeps, a sweep keeps. -/
theorem Aligned.evaluateWith_keeps (ht : Aligned lib t h) (hp : h.Valid p i) (hq : h.Valid q k)
    (hd : d.Ordered p q) {P : Adjoints F → Prop}
    (hstep : ∀ x ∈ h.statements, ∀ u u', P u → x.propagate t.registry d u = .ok u' → P u')
    {v w : Adjoints F} {j j' : Journal} (hv : P v)
    (hw : (t.evaluateWith d p q v).outcome j = (.ok w, j')) : P w := by
  have hmem {m n : Nat} {x : Statement F} (hx : x ∈ h.between m n) : x ∈ h.statements :=
    List.mem_of_mem_take (List.mem_of_mem_drop hx)
  cases d with
  | forward =>
    rw [ht.evaluateWith_forward hp hq hd] at hw
    refine Run.foldlM_keeps (fun x hx u u' j j' hu hstatement => ?_) hv hw
    exact hstep x (hmem hx) u u' hu (propagate_of_pace_carry hstatement)
  | reverse =>
    rw [ht.evaluateWith_reverse hq hp hd] at hw
    refine Run.foldlM_keeps (fun x hx u u' j j' hu hstatement => ?_) hv hw
    exact hstep x (hmem (List.mem_reverse.1 hx)) u u' hu (propagate_of_pace_carry hstatement)

theorem Aligned.size_evaluateWith (ht : Aligned lib t h) (hp : h.Valid p i) (hq : h.Valid q k)
    (hd : d.Ordered p q) {v w : Adjoints F} {j j' : Journal}
    (hw : (t.evaluateWith d p q v).outcome j = (.ok w, j')) : w.size = v.size :=
  ht.evaluateWith_keeps (P := fun u => u.size = v.size) hp hq hd
    (fun _ _ _ _ hu hpropagate => (Statement.size_propagate ht.within hpropagate).trans hu) rfl hw

/-! ## Two parts of a sweep -/

/-- The statements of the two ranges are those of the whole range, in the order of the sweep. -/
theorem Aligned.evaluateWith_bind (ht : Aligned lib t h) (hp : h.Valid p i) (hq : h.Valid q k)
    (ho : h.Valid o l) (hpq : d.Ordered p q) (hqo : d.Ordered q o) (v : Adjoints F) :
    t.evaluateWith d p q v >>= t.evaluateWith d q o = t.evaluateWith d p o v := by
  cases d with
  | forward =>
    have hik := (ht.le_iff hp hq).1 hpq
    have hkl := (ht.le_iff hq ho).1 hqo
    have hpo : p ≤ o := (ht.le_iff hp ho).2 (Nat.le_trans hik hkl)
    rw [ht.evaluateWith_forward hp hq hpq, ht.evaluateWith_forward hp ho hpo,
      ← h.between_append hik hkl, List.foldlM_append]
    exact congrArg _ (funext (ht.evaluateWith_forward hq ho hqo))
  | reverse =>
    have hki := (ht.le_iff hq hp).1 hpq
    have hlk := (ht.le_iff ho hq).1 hqo
    have hop : o ≤ p := (ht.le_iff ho hp).2 (Nat.le_trans hlk hki)
    rw [ht.evaluateWith_reverse hq hp hpq, ht.evaluateWith_reverse ho hp hop,
      ← h.between_append hlk hki, List.reverse_append, List.foldlM_append]
    exact congrArg _ (funext (ht.evaluateWith_reverse ho hq hqo))

omit [Add F] [Mul F] [BEq F] in
/-- A vector of the size that was made ready is ready. -/
theorem Tape.prepare_prepared {management : Management} {v : Adjoints F}
    (hv : v.size = (t.prepare management).adjoints.size) :
    Tape.prepare { t with adjoints := v } management = { t with adjoints := v } := by
  cases management with
  | automatic =>
    have hlt : t.largestIdentifier < v.size := by
      rw [hv]
      exact Adjoints.lt_size_ensure t.adjoints t.largestIdentifier
    show { t with adjoints := v.ensure t.largestIdentifier } = { t with adjoints := v }
    rw [Adjoints.ensure, if_pos hlt]
  | manual => rfl

theorem Aligned.evaluate_bind (ht : Aligned lib t h) (hp : h.Valid p i) (hq : h.Valid q k)
    (ho : h.Valid o l) (hpq : d.Ordered p q) (hqo : d.Ordered q o) (management : Management) :
    (t.evaluate d p q management >>= fun t => t.evaluate d q o management) =
      t.evaluate d p o management := by
  rw [t.evaluate_eq d p q, t.evaluate_eq d p o, ← ht.evaluateWith_bind hp hq ho hpq hqo,
    bind_assoc, bind_assoc]
  apply Run.bind_congr_of_outcome
  intro j v j' hv
  have hsize := ht.size_evaluateWith hp hq hpq hv
  rw [pure_bind, Tape.evaluate_eq, Tape.prepare_prepared hsize]
  rfl

/-- Sweeping from one position of a reachable tape to a second one and on to a third one is the same
computation as sweeping from the first one to the third one, in either direction, from every vector
and however the vector is made ready. -/
theorem sweeps_compose [One F] [FixedWidth F] (hr : Reached lib t h) (hp : h.Valid p i)
    (hq : h.Valid q k) (ho : h.Valid o l) (hpq : d.Ordered p q) (hqo : d.Ordered q o) :
    (∀ v, t.evaluateWith d p q v >>= t.evaluateWith d q o = t.evaluateWith d p o v) ∧
    ∀ v management,
      (Tape.evaluate { t with adjoints := v } d p q management >>= fun t =>
        t.evaluate d q o management) =
      Tape.evaluate { t with adjoints := v } d p o management :=
  ⟨hr.aligned.evaluateWith_bind hp hq ho hpq hqo,
    fun v => (hr.setVector v).aligned.evaluate_bind hp hq ho hpq hqo⟩

end Sweeps

/-- Both directions, with a position between an assignment and a block. -/
theorem sweeps_compose_of_block :
    ∃ (t : Tape Int .reuse) (h : History Int) (p q o : Position),
      Reached .counting t h ∧ h.Valid p 1 ∧ h.Valid q 2 ∧ h.Valid o 3 ∧ p ≤ q ∧ q ≤ o ∧
      h.between 1 3 = [.normal 2 [(3, 1)], .block 0 0 [1] [9]] ∧
      (∀ v, t.evaluateWith .forward p q v >>= t.evaluateWith .forward q o =
        t.evaluateWith .forward p o v) ∧
      (∀ v, t.evaluateWith .reverse o q v >>= t.evaluateWith .reverse q p =
        t.evaluateWith .reverse o p v) := by
  obtain ⟨-, t, -, h, p, q, o, -, hr, -, hstatements, hp, hq, ho, hpq, hqo, -⟩ := exists_source
  have hbetween : h.between 1 3 = [.normal 2 [(3, 1)], .block 0 0 [1] [9]] := by
    rw [History.between, hstatements]
    rfl
  exact ⟨t, h, p, q, o, hr, hp, hq, ho, hpq, hqo, hbetween,
    (sweeps_compose (d := .forward) hr hp hq ho hpq hqo).1,
    (sweeps_compose (d := .reverse) hr ho hq hp hqo hpq).1⟩

end Autodiff
