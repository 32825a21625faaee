import Autodiff.Proofs.Stream.Capacity
import Autodiff.Proofs.Tape.Aligned

/-!
# Walks in step

Two walks over the same statements stay in step as long as what they do with the statements is in
step: reading the streams depends on nothing but the streams, since the number of dynamic bytes of a
block is settled by its fixed bytes.
-/

namespace Autodiff

open Run

/-! ## Streams -/

section Streams

variable {α σ τ : Type} {S : σ → τ → Prop} {step : σ → α → Run σ} {step' : τ → α → Run τ}

namespace Visit

variable {v : Visit α}

theorem inStep_item (v : Visit α) (i : Nat) :
    InStep Eq (v.item i : Run α) (v.item i) := by
  unfold item
  cases v.chunk.items[i]? with
  | some x => exact abreast_pure rfl
  | none => exact abreast_throw rfl

theorem inStep_ascend (hstep : ∀ acc acc' x, S acc acc' → InStep S (step acc x) (step' acc' x))
    (n i : Nat) {acc : σ} {acc' : τ} (h : S acc acc') :
    InStep S (v.ascend step n i acc) (v.ascend step' n i acc') := by
  induction n generalizing i acc acc' with
  | zero => exact abreast_pure h
  | succ n ih =>
    apply (inStep_item v i).bind_same
    intro x
    apply (hstep acc acc' x h).bind
    intro acc acc' h
    exact ih (i + 1) h

theorem inStep_descend (hstep : ∀ acc acc' x, S acc acc' → InStep S (step acc x) (step' acc' x))
    (n : Nat) {acc : σ} {acc' : τ} (h : S acc acc') :
    InStep S (v.descend step n acc) (v.descend step' n acc') := by
  induction n generalizing acc acc' with
  | zero => exact abreast_pure h
  | succ n ih =>
    apply (inStep_item v (v.bound + n)).bind_same
    intro x
    apply (hstep acc acc' x h).bind
    intro acc acc' h
    exact ih h

theorem inStep_drain (hstep : ∀ acc acc' x, S acc acc' → InStep S (step acc x) (step' acc' x))
    (d : Direction) {acc : σ} {acc' : τ} (h : S acc acc') :
    InStep (fun a b => S a.1 b.1 ∧ a.2 = b.2) (drain d step acc v) (drain d step' acc' v) := by
  cases d with
  | forward => exact (inStep_ascend hstep _ _ h).bind fun acc acc' h => abreast_pure ⟨h, rfl⟩
  | reverse => exact (inStep_descend hstep _ h).bind fun acc acc' h => abreast_pure ⟨h, rfl⟩

end Visit

namespace Chunked

variable {s : Chunked α} {visitor : σ → Visit α → Run (σ × Nat)}
  {visitor' : τ → Visit α → Run (τ × Nat)}

theorem inStep_sweepAux (hvisitor : ∀ acc acc' v, S acc acc' →
      InStep (fun a b => S a.1 b.1 ∧ a.2 = b.2) (visitor acc v) (visitor' acc' v))
    (d : Direction) (start stop : Cut) (n i : Nat) {acc : σ} {acc' : τ} (h : S acc acc') :
    InStep S (s.sweepAux d start stop visitor n i acc)
      (s.sweepAux d start stop visitor' n i acc') := by
  induction n generalizing i acc acc' with
  | zero => exact abreast_pure h
  | succ n ih =>
    have hvisit : InStep Eq (MonadExcept.ofExcept (s.visit d start stop i) : Run (Visit α))
        (MonadExcept.ofExcept (s.visit d start stop i)) := by
      cases s.visit d start stop i with
      | error e => exact abreast_throw rfl
      | ok v => exact abreast_pure rfl
    apply hvisit.bind_same
    intro v
    apply (hvisitor acc acc' v h).bind
    rintro ⟨acc, stopped⟩ ⟨acc', stopped'⟩ ⟨h, rfl⟩
    refine Abreast.check rfl ?_
    cases d with
    | forward => exact ih (i + 1) h
    | reverse => exact ih (i - 1) h

theorem inStep_fold (hstep : ∀ acc acc' x, S acc acc' → InStep S (step acc x) (step' acc' x))
    (d : Direction) (start stop : Cut) {acc : σ} {acc' : τ} (h : S acc acc') :
    InStep S (s.fold d start stop step acc) (s.fold d start stop step' acc') := by
  have hsweep (n i : Nat) := inStep_sweepAux (s := s)
    (fun acc acc' v h => Visit.inStep_drain (v := v) hstep d h) d start stop n i h
  refine Abreast.check rfl ?_
  cases d <;> exact hsweep _ _

end Chunked

end Streams

/-! ## External functions -/

theorem Library.dynamicSize_congr {F : Type} (lib : Library F) {f : External F}
    (hf : lib.function f.key = f) (asked asked' : Nat) (fixed : Reader) :
    f.dynamicSize asked fixed = f.dynamicSize asked' fixed := by
  rw [← hf, lib.dynamicSize_eq, lib.dynamicSize_eq _ asked']

theorem Registry.Within.inStep_expect {F : Type} {g : Registry F} {lib : Library F}
    (hg : g.Within lib) (token : Nat) :
    InStep (fun f f' => f = f' ∧ lib.function f.key = f) (liftM (g.expect token))
      (liftM (g.expect token)) := by
  apply abreast_liftM
  apply Matches.refl
  intro f hf
  exact ⟨rfl, hg token f (Registry.expect_eq_ok_iff.1 hf)⟩

/-! ## Recordings -/

namespace Recording

variable {F : Type} {r : Recording F} {g : Registry F} {lib : Library F}

theorem inStep_read (hg : g.Within lib) (d : Direction) (c : Cursors) (item : Nat × Kind) :
    InStep Eq (r.read g d c item) (r.read g d c item) := by
  obtain ⟨t, kind⟩ := item
  cases kind with
  | input => exact abreast_pure rfl
  | normal n => exact (inStep_same _).bind_same fun a => abreast_pure rfl
  | block =>
    apply (inStep_same _).bind_same
    rintro ⟨⟨token, largest⟩, t⟩
    apply (hg.inStep_expect token).bind
    rintro f _ ⟨rfl, hf⟩
    apply (inStep_same _).bind_same
    rintro ⟨fixed, x⟩
    -- The two walks may have asked the function different numbers of times before.
    apply (abreast_ask f.key).bind
    intro asked asked' _
    rw [lib.dynamicSize_congr hf asked asked']
    apply (inStep_same _).bind_same
    intro size
    exact (inStep_same _).bind_same fun a => abreast_pure rfl

theorem inStep_walk (hg : g.Within lib) {σ τ : Type} {S : σ → τ → Prop}
    {step : σ → Statement F → Run σ} {step' : τ → Statement F → Run τ}
    (hstep : ∀ acc acc' x, S acc acc' → InStep S (step acc x) (step' acc' x)) (d : Direction)
    (start stop : Position) {acc : σ} {acc' : τ} (h : S acc acc') :
    InStep S (r.walk g d start stop step acc) (r.walk g d start stop step' acc') := by
  have hread (a : Cursors × σ) (b : Cursors × τ) (item : Nat × Kind)
      (hab : a.1 = b.1 ∧ S a.2 b.2) :
      InStep (fun a b => a.1 = b.1 ∧ S a.2 b.2) (r.stride g d step a item)
        (r.stride g d step' b item) := by
    obtain ⟨hcursors, hacc⟩ := hab
    rw [stride, stride, hcursors]
    apply (inStep_read hg d b.1 item).bind_same
    rintro ⟨x, c⟩
    exact (hstep a.2 b.2 x hacc).bind fun acc acc' hacc => abreast_pure ⟨rfl, hacc⟩
  refine Abreast.bind (Chunked.inStep_fold hread d start.statements stop.statements ⟨rfl, h⟩) ?_
  rintro ⟨c, acc⟩ ⟨_, acc'⟩ ⟨rfl, h⟩
  exact (inStep_same _).bind_same fun u => abreast_pure h

theorem inStep_carry [Zero F] [Add F] [Mul F] [BEq F] (g : Registry F) (d : Direction)
    (v : Adjoints F) (x : Statement F) : InStep Eq (carry g d v x) (carry g d v x) := by
  have hannounce : InStep Eq (announce g d v.size x) (announce g d v.size x) := by
    cases x with
    | input t => exact abreast_pure rfl
    | normal t entries => exact abreast_pure rfl
    | block token largest fixed dynamic =>
      exact (inStep_same _).bind_same fun f => abreast_note _
  exact hannounce.bind_same fun u => inStep_same _

theorem inStep_replay [Zero F] [Add F] [Mul F] [BEq F] (hg : g.Within lib) (d : Direction)
    (start stop : Position) (v : Adjoints F) :
    InStep Eq (r.replay g d start stop v) (r.replay g d start stop v) :=
  inStep_walk hg (fun v _ x h => h ▸ inStep_carry g d v x) d start stop rfl

theorem inStep_prepareBlock (r : Recording F) (fixedSize dynamicSize : Nat) :
    InStep Eq (r.prepareBlock fixedSize dynamicSize) (r.prepareBlock fixedSize dynamicSize) := by
  apply (abreast_note _).bind_same
  intro u
  exact (r.fixed.inStep_prepare 1 fixedSize).bind_same fun u => r.dynamic.inStep_prepare 1 _

end Recording

theorem Tape.inStep_checkBlock {F : Type} {lib : Library F} {f : External F}
    (hf : lib.function f.key = f) (token : Nat) (fixed dynamic : Writer) :
    InStep Eq (checkBlock f token fixed dynamic) (checkBlock f token fixed dynamic) := by
  refine Abreast.check rfl ?_
  apply (abreast_ask f.key).bind
  intro asked asked' _
  rw [lib.dynamicSize_congr hf asked asked']
  apply (inStep_same _).bind_same
  intro counted
  refine .ite (fun _ => abreast_pure rfl) fun _ => ?_
  exact (inStep_same _).bind_same fun description => abreast_throw rfl

end Autodiff
