import Autodiff.Journal

/-!
# Outcomes

A computation that came to an end can be taken apart at its binds, and two computations `Agree` when
they give the same answer and announce the same events.  Only how often external functions were
asked for sizes may differ.  Computations that are `Abreast` do not look at what happened before
them either, and relate their answers and their faults; they are `InStep` if the faults are equal.
-/

namespace Autodiff.Run

variable {α β γ δ : Type}

/-! ## Taking a finished computation apart -/

theorem outcome_bind_eq_ok_iff {c : Run α} {f : α → Run β} {j j' : Journal} {b : β} :
    (c >>= f).outcome j = (.ok b, j') ↔
      ∃ a k, c.outcome j = (.ok a, k) ∧ (f a).outcome k = (.ok b, j') := by
  rw [outcome_bind]
  obtain ⟨x, k⟩ := c.outcome j
  cases x with
  | error e => simp
  | ok a =>
    constructor
    · intro h
      exact ⟨a, k, rfl, h⟩
    · rintro ⟨_, _, h, h'⟩
      cases h
      exact h'

theorem outcome_liftM_eq_ok_iff {x : Except Fault α} {j j' : Journal} {a : α} :
    (liftM x : Run α).outcome j = (.ok a, j') ↔ x = .ok a ∧ j = j' := by
  rw [outcome_liftM, Prod.mk.injEq]

theorem outcome_pure_eq_ok_iff {j j' : Journal} {a b : α} :
    (pure a : Run α).outcome j = (.ok b, j') ↔ a = b ∧ j = j' := by
  rw [outcome_pure, Prod.mk.injEq, Except.ok.injEq]

theorem outcome_throw_ne_ok {e : Fault} {j j' : Journal} {a : α} :
    (throw e : Run α).outcome j ≠ (.ok a, j') := by
  rw [outcome_throw]
  simp

theorem outcome_check_eq_ok_iff {p : Prop} [Decidable p] {e : Fault} {c : Run β} {f : α → Run β}
    {j j' : Journal} {b : β} :
    (if p then c else (throw e : Run α) >>= f).outcome j = (.ok b, j') ↔
      p ∧ c.outcome j = (.ok b, j') := by
  by_cases hp : p
  · simp [hp]
  · simp [hp]

theorem liftM_ok (a : α) : (liftM (Except.ok a : Except Fault α) : Run α) = pure a := rfl

/-! ## Answers -/

/-- The computation comes to an end with this answer, whatever journal it starts with. -/
def Yields (c : Run α) (a : α) : Prop := ∀ j, (c.outcome j).1 = .ok a

theorem yields_pure (a : α) : Yields (pure a : Run α) a := fun _ => rfl

theorem yields_liftM {x : Except Fault α} {a : α} (h : x = .ok a) : Yields (liftM x : Run α) a := by
  intro j
  rw [outcome_liftM, h]

theorem yields_pure_iff {a b : α} : Yields (pure a : Run α) b ↔ a = b :=
  ⟨fun h => Except.ok.inj (h {}), fun h => h ▸ yields_pure a⟩

theorem yields_liftM_iff {x : Except Fault α} {a : α} : Yields (liftM x : Run α) a ↔ x = .ok a := by
  refine ⟨fun h => ?_, yields_liftM⟩
  have hanswer := h {}
  rwa [outcome_liftM] at hanswer

theorem Yields.unique {c : Run α} {a b : α} (ha : Yields c a) (hb : Yields c b) : a = b :=
  Except.ok.inj ((ha {}).symm.trans (hb {}))

theorem Yields.eq_of_outcome {c : Run α} {a b : α} (ha : Yields c a) {j j' : Journal}
    (h : c.outcome j = (.ok b, j')) : b = a := by
  have hanswer := ha j
  rw [h] at hanswer
  exact Except.ok.inj hanswer

theorem Yields.exists_outcome {c : Run α} {a : α} (ha : Yields c a) (j : Journal) :
    ∃ j', c.outcome j = (.ok a, j') :=
  ⟨(c.outcome j).2, Prod.ext (ha j) rfl⟩

theorem Yields.bind {c : Run α} {f : α → Run β} {a : α} {b : β} (h : Yields c a)
    (hf : Yields (f a) b) : Yields (c >>= f) b := by
  intro j
  have hanswer := h j
  rw [outcome_bind]
  revert hanswer
  obtain ⟨x, k⟩ := c.outcome j
  rintro rfl
  exact hf k

/-- The computation ends in this fault, whatever journal it starts with. -/
def Fails (c : Run α) (e : Fault) : Prop := ∀ j, (c.outcome j).1 = .error e

theorem Yields.not_fails {c : Run α} {a : α} (h : Yields c a) (e : Fault) : ¬Fails c e := by
  intro hfails
  cases (h {}).symm.trans (hfails {})

theorem Fails.ne_ok {c : Run α} {e : Fault} (h : Fails c e) (j : Journal) {a : α} {j' : Journal} :
    c.outcome j ≠ (.ok a, j') := by
  intro hc
  have hfault := h j
  rw [hc] at hfault
  cases hfault

theorem Fails.bind {c : Run α} {e : Fault} (h : Fails c e) (f : α → Run β) :
    Fails (c >>= f) e := by
  intro j
  have hfault := h j
  rw [outcome_bind]
  revert hfault
  obtain ⟨x, k⟩ := c.outcome j
  rintro rfl
  rfl

theorem Yields.bind_fails {c : Run α} {f : α → Run β} {a : α} {e : Fault} (h : Yields c a)
    (hf : Fails (f a) e) : Fails (c >>= f) e := by
  intro j
  have hanswer := h j
  rw [outcome_bind]
  revert hanswer
  obtain ⟨x, k⟩ := c.outcome j
  rintro rfl
  exact hf k

theorem yields_foldlM_liftM {σ : Type} {step : σ → α → Except Fault σ} {xs : List α} {a b : σ}
    (h : xs.foldlM step a = .ok b) :
    Yields (xs.foldlM (fun a x => (liftM (step a x) : Run σ)) a) b := by
  induction xs generalizing a with
  | nil =>
    cases h
    exact yields_pure _
  | cons x xs ih =>
    rw [List.foldlM_cons] at h ⊢
    obtain ⟨next, hx, hxs⟩ := Fault.bind_eq_ok_iff.1 h
    exact (yields_liftM hx).bind (ih hxs)

/-! ## Equal computations -/

theorem ext_outcome {c c' : Run α} (h : ∀ j, c.outcome j = c'.outcome j) : c = c' := funext h

/-- Two ways to go on need only be the same for the answers that there are. -/
theorem bind_congr_of_outcome {c : Run α} {f f' : α → Run β}
    (h : ∀ j a j', c.outcome j = (.ok a, j') → f a = f' a) : c >>= f = c >>= f' := by
  apply ext_outcome
  intro j
  have hanswer := h j
  rw [outcome_bind, outcome_bind]
  revert hanswer
  obtain ⟨x, k⟩ := c.outcome j
  intro hanswer
  cases x with
  | error e => rfl
  | ok a =>
    show (f a).outcome k = (f' a).outcome k
    rw [hanswer a k rfl]

/-- What every step keeps, a fold that gives an answer keeps. -/
theorem foldlM_keeps {σ : Type} {P : σ → Prop} {step : σ → α → Run σ} {xs : List α}
    (hstep : ∀ x ∈ xs, ∀ acc acc' j j', P acc → (step acc x).outcome j = (.ok acc', j') → P acc')
    {acc acc' : σ} {j j' : Journal} (hacc : P acc)
    (h : (xs.foldlM step acc).outcome j = (.ok acc', j')) : P acc' := by
  induction xs generalizing acc j with
  | nil =>
    rw [List.foldlM_nil, outcome_pure_eq_ok_iff] at h
    exact h.1 ▸ hacc
  | cons x xs ih =>
    rw [List.foldlM_cons, outcome_bind_eq_ok_iff] at h
    obtain ⟨next, k, hx, hxs⟩ := h
    rw [List.forall_mem_cons] at hstep
    exact ih hstep.2 (hstep.1 acc next j k hacc hx) hxs

/-! ## Agreement -/

/-- Same answer and same events from journals with the same events. -/
def Agree (c c' : Run α) : Prop :=
  ∀ j j' : Journal, j.events = j'.events →
    (c.outcome j).1 = (c'.outcome j').1 ∧ (c.outcome j).2.events = (c'.outcome j').2.events

theorem Agree.yields {c c' : Run α} (h : Agree c c') {a : α} (ha : Yields c' a) : Yields c a := by
  intro j
  rw [(h j j rfl).1]
  exact ha j

theorem Agree.symm {c c' : Run α} (h : Agree c c') : Agree c' c := by
  intro j j' hj
  obtain ⟨hanswer, hevents⟩ := h j' j hj.symm
  exact ⟨hanswer.symm, hevents.symm⟩

theorem Agree.trans {c c' c'' : Run α} (h : Agree c c') (h' : Agree c' c'') : Agree c c'' := by
  intro j j' hj
  obtain ⟨hanswer, hevents⟩ := h j j rfl
  obtain ⟨hanswer', hevents'⟩ := h' j j' hj
  exact ⟨hanswer.trans hanswer', hevents.trans hevents'⟩

theorem agree_pure (a : α) : Agree (pure a : Run α) (pure a) := fun _ _ h => ⟨rfl, h⟩

theorem Agree.bind {c c' : Run α} {f f' : α → Run β} (h : Agree c c')
    (hf : ∀ a, Agree (f a) (f' a)) : Agree (c >>= f) (c' >>= f') := by
  intro j j' hj
  have hagree := h j j' hj
  rw [outcome_bind, outcome_bind]
  revert hagree
  obtain ⟨x, k⟩ := c.outcome j
  obtain ⟨x', k'⟩ := c'.outcome j'
  rintro ⟨hanswer, hevents⟩
  obtain rfl : x = x' := hanswer
  cases x with
  | error e => exact ⟨rfl, hevents⟩
  | ok a => exact hf a k k' hevents

theorem agree_ask_bind (key : Nat) {c c' : Run α} (h : Agree c c') :
    Agree (do let _ ← ask key; c) c' := by
  intro j j' hj
  rw [outcome_bind, outcome_ask]
  exact h (j.ask key) j' hj

theorem Agree.foldlM {σ : Type} {step step' : σ → α → Run σ} {xs : List α}
    (h : ∀ acc, ∀ x ∈ xs, Agree (step acc x) (step' acc x)) (acc : σ) :
    Agree (xs.foldlM step acc) (xs.foldlM step' acc) := by
  induction xs generalizing acc with
  | nil => exact agree_pure acc
  | cons x xs ih =>
    rw [List.foldlM_cons, List.foldlM_cons]
    apply Agree.bind (h acc x (List.mem_cons_self ..))
    intro acc
    exact ih (fun acc x hx => h acc x (List.mem_cons_of_mem _ hx)) acc

/-! ## Computations abreast -/

/-- Answers in the relation `R`, or faults in the relation `E`. -/
inductive Matches {ε : Type} (E : ε → ε → Prop) (R : α → β → Prop) : Except ε α → Except ε β → Prop
  | answer {a : α} {b : β} : R a b → Matches E R (.ok a) (.ok b)
  | fault {e e' : ε} : E e e' → Matches E R (.error e) (.error e')

namespace Matches

variable {ε : Type} {E : ε → ε → Prop} {R : α → β → Prop} {S : γ → δ → Prop}

theorem refl {R : α → α → Prop} {x : Except ε α} (h : ∀ a, x = .ok a → R a a) :
    Matches Eq R x x := by
  cases x with
  | error e => exact .fault rfl
  | ok a => exact .answer (h a rfl)

theorem map_right {x : Except ε α} {f : α → β} (h : ∀ a, x = .ok a → R a (f a)) :
    Matches Eq R x (x.map f) := by
  cases x with
  | error e => exact .fault rfl
  | ok a => exact .answer (h a rfl)

theorem eq {x x' : Except ε α} (h : Matches Eq Eq x x') : x = x' := by
  cases h with
  | answer h => rw [h]
  | fault he => rw [he]

/-- Only the answers that there are need to be related more closely. -/
theorem imp {E' : ε → ε → Prop} {R' : α → β → Prop} {x : Except ε α} {x' : Except ε β}
    (h : Matches E R x x') (hE : ∀ e e', E e e' → E' e e')
    (hR : ∀ a b, x = .ok a → R a b → R' a b) : Matches E' R' x x' := by
  cases h with
  | answer hab => exact .answer (hR _ _ rfl hab)
  | fault he => exact .fault (hE _ _ he)

theorem bind {x : Except ε α} {x' : Except ε β} {f : α → Except ε γ} {f' : β → Except ε δ}
    (h : Matches E R x x') (hf : ∀ a b, R a b → Matches E S (f a) (f' b)) :
    Matches E S (x >>= f) (x' >>= f') := by
  cases h with
  | answer hab => exact hf _ _ hab
  | fault he => exact .fault he

theorem bind_same {x : Except ε α} {f : α → Except ε γ} {f' : α → Except ε δ}
    (hf : ∀ a, x = .ok a → Matches Eq S (f a) (f' a)) : Matches Eq S (x >>= f) (x >>= f') := by
  cases x with
  | error e => exact .fault rfl
  | ok a => exact hf a rfl

end Matches

/-- Two computations whose answers are in the relation `R` or whose faults are in the relation `E`,
and which announce the same events, whatever happened before either of them. -/
def Abreast (E : Fault → Fault → Prop) (R : α → β → Prop) (c : Run α) (c' : Run β) : Prop :=
  ∀ j j' : Journal, Matches E R (c.outcome j).1 (c'.outcome j').1 ∧
    ∃ es : Array Event, (c.outcome j).2.events = j.events ++ es ∧
      (c'.outcome j').2.events = j'.events ++ es

/-- Computations abreast that fault alike. -/
abbrev InStep (R : α → β → Prop) (c : Run α) (c' : Run β) : Prop := Abreast Eq R c c'

/-- Faults for whatever reasons. -/
def AnyFaults (_ _ : Fault) : Prop := True

section Abreast

variable {E : Fault → Fault → Prop} {R : α → β → Prop} {S : γ → δ → Prop}

theorem abreast_liftM {x : Except Fault α} {x' : Except Fault β} (h : Matches E R x x') :
    Abreast E R (liftM x : Run α) (liftM x') := by
  intro j j'
  rw [outcome_liftM, outcome_liftM]
  exact ⟨h, #[], by simp, by simp⟩

theorem abreast_pure {a : α} {b : β} (h : R a b) : Abreast E R (pure a : Run α) (pure b) :=
  abreast_liftM (.answer h)

theorem abreast_throw {e e' : Fault} (h : E e e') :
    Abreast E R (throw e : Run α) (throw e' : Run β) :=
  abreast_liftM (.fault h)

theorem abreast_note (es : List Event) : Abreast E Eq (note es) (note es) := by
  intro j j'
  rw [outcome_note, outcome_note]
  exact ⟨.answer rfl, es.toArray, rfl, rfl⟩

/-- How often a function was asked is the one thing that such computations must not depend on. -/
theorem abreast_ask (key : Nat) : Abreast E (fun _ _ => True) (ask key) (ask key) := by
  intro j j'
  rw [outcome_ask, outcome_ask]
  exact ⟨.answer trivial, #[], by simp [Journal.ask], by simp [Journal.ask]⟩

namespace Abreast

variable {c : Run α} {c' : Run β}

theorem mono {E' : Fault → Fault → Prop} {R' : α → β → Prop} (h : Abreast E R c c')
    (hE : ∀ e e', E e e' → E' e e') (hR : ∀ a b, R a b → R' a b) : Abreast E' R' c c' := by
  intro j j'
  obtain ⟨hanswer, hevents⟩ := h j j'
  exact ⟨hanswer.imp hE fun a b _ => hR a b, hevents⟩

theorem anyFaults (h : Abreast E R c c') : Abreast AnyFaults R c c' :=
  h.mono (fun _ _ _ => trivial) fun _ _ => id

theorem bind {f : α → Run γ} {f' : β → Run δ} (h : Abreast E R c c')
    (hf : ∀ a b, R a b → Abreast E S (f a) (f' b)) : Abreast E S (c >>= f) (c' >>= f') := by
  intro j j'
  obtain ⟨hanswer, es, hevents, hevents'⟩ := h j j'
  rw [outcome_bind, outcome_bind]
  revert hanswer hevents hevents'
  obtain ⟨x, k⟩ := c.outcome j
  obtain ⟨x', k'⟩ := c'.outcome j'
  intro hanswer hevents hevents'
  cases hanswer with
  | fault he => exact ⟨.fault he, es, hevents, hevents'⟩
  | @answer a b hab =>
    obtain ⟨hanswer, es₁, hevents₁, hevents₁'⟩ := hf a b hab k k'
    refine ⟨hanswer, es ++ es₁, ?_, ?_⟩
    · rw [hevents₁, hevents, Array.append_assoc]
    · rw [hevents₁', hevents', Array.append_assoc]

theorem bind_same {c : Run α} {f : α → Run γ} {f' : α → Run δ} (h : Abreast E Eq c c)
    (hf : ∀ a, Abreast E S (f a) (f' a)) : Abreast E S (c >>= f) (c >>= f') :=
  h.bind fun a _ hab => hab ▸ hf a

theorem ite {p : Prop} [Decidable p] {c d : Run γ} {c' d' : Run δ} (h : p → Abreast E S c c')
    (h' : ¬p → Abreast E S d d') : Abreast E S (if p then c else d) (if p then c' else d') := by
  by_cases hp : p
  · rw [if_pos hp, if_pos hp]
    exact h hp
  · rw [if_neg hp, if_neg hp]
    exact h' hp

/-- Both sides check the same thing first. -/
theorem check {p : Prop} [Decidable p] {e : Fault} (he : E e e) {c : Run γ} {c' : Run δ}
    {f : α → Run γ} {f' : α → Run δ} (h : Abreast E S c c') :
    Abreast E S (if p then c else (throw e : Run α) >>= f)
      (if p then c' else (throw e : Run α) >>= f') :=
  .ite (fun _ => h) fun _ =>
    (abreast_throw (R := fun _ _ => False) he).bind fun _ _ hab => hab.elim

end Abreast

end Abreast

theorem inStep_same (x : Except Fault α) : InStep Eq (liftM x : Run α) (liftM x) :=
  abreast_liftM (.refl fun _ _ => rfl)

theorem inStep_foldlM {σ : Type} {step : σ → α → Run σ}
    (h : ∀ a x, InStep Eq (step a x) (step a x)) (xs : List α) (a : σ) :
    InStep Eq (xs.foldlM step a) (xs.foldlM step a) := by
  induction xs generalizing a with
  | nil => exact abreast_pure rfl
  | cons x xs ih =>
    rw [List.foldlM_cons]
    exact (h a x).bind_same ih

/-- What keeps in step with a computation that gave an answer gives the answer that goes with it. -/
theorem InStep.yields {f : α → β} {c : Run α} {c' : Run β} (h : InStep (fun a b => b = f a) c c')
    {j k : Journal} {a : α} (hc : c.outcome j = (.ok a, k)) : c'.Yields (f a) := by
  intro j'
  obtain ⟨hanswer, -⟩ := h j j'
  rw [hc] at hanswer
  revert hanswer
  generalize (c'.outcome j').1 = x
  rintro ⟨rfl⟩
  rfl

/-- What does not look at what happened before gives an answer always or never. -/
theorem InStep.yields_of_outcome {c : Run α} (h : InStep Eq c c) {j k : Journal} {a : α}
    (hc : c.outcome j = (.ok a, k)) : Yields c a :=
  InStep.yields (f := id) (h.mono (fun _ _ => id) fun _ _ => Eq.symm) hc

theorem InStep.yields_bind_iff {c : Run α} {f : α → Run β} (hc : InStep Eq c c)
    (hf : ∀ a, InStep Eq (f a) (f a)) {b : β} :
    Yields (c >>= f) b ↔ ∃ a, Yields c a ∧ Yields (f a) b := by
  constructor
  -- One journal is enough to find the answer in between, since neither half looks at it.
  · intro h
    obtain ⟨j, hbind⟩ := h.exists_outcome {}
    obtain ⟨a, k, ha, hb⟩ := outcome_bind_eq_ok_iff.1 hbind
    exact ⟨a, hc.yields_of_outcome ha, (hf a).yields_of_outcome hb⟩
  · rintro ⟨a, ha, hb⟩
    exact ha.bind hb

theorem InStep.agree {c c' : Run α} (h : InStep Eq c c') : Agree c c' := by
  intro j j' hj
  obtain ⟨hanswer, es, hevents, hevents'⟩ := h j j'
  exact ⟨hanswer.eq, by rw [hevents, hevents', hj]⟩

end Autodiff.Run
