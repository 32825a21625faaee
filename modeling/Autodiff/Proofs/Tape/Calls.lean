import Autodiff.Proofs.Recording.Lockstep
import Autodiff.Proofs.Tape.Session

/-!
# Recording calls

What was asked of a tape while it recorded can be asked of it again.  A call that came to an end
comes to the same end on every other tape that is brought to where the first one stood, if that has
the functions that the first one had: neither more functions nor another vector nor a larger
identifier to remember make a difference.
-/

namespace Autodiff

open Run

/-! ## Calls -/

/-- What can be asked of a tape while it records, under either scheme. -/
inductive Call (F : Type) where
  | setActive (active : Bool)
  | release (identifier : Nat)
  | store (target : Nat) (arguments : List (F × Nat))
  | registerInput
  | registerOutput (identifier : Nat)
  | pushBlock (token fixedSize dynamicSize : Nat)
      (write : Writer → Writer → Except Fault (Writer × Writer))
  | resetTo (p : Position)

namespace Tape

variable {F : Type} [One F] {s : Scheme}

def call (t : Tape F s) : Call F → Run (Answer F × Tape F s)
  | .setActive active => return (.done, t.setActive active)
  | .release identifier => do
    let t ← t.release identifier
    return (.done, t)
  | .store target arguments => do
    let r ← t.store target arguments
    return (.identifier r.1, r.2)
  | .registerInput => do
    let r ← t.registerInput
    return (.identifier r.1, r.2)
  | .registerOutput identifier => do
    let r ← t.registerOutput identifier
    return (.identifier r.1, r.2)
  | .pushBlock token fixedSize dynamicSize write => do
    let r ← t.pushBlock token fixedSize dynamicSize write
    return (.views r.1, r.2)
  | .resetTo p => do
    let t ← t.resetTo p
    return (.done, t)

/-- Some calls, one after another: each answer, with the position of the tape after the call. -/
def callAll (t : Tape F s) : List (Call F) → Run (List (Answer F × Position) × Tape F s)
  | [] => return ([], t)
  | c :: cs => do
    let r ← t.call c
    let rs ← callAll r.2 cs
    return ((r.1, r.2.position) :: rs.1, rs.2)

end Tape

/-! ## Calls that come to an end -/

section Calls

variable {F : Type} {s : Scheme} {t' : Tape F s} {a : Answer F} {j j' : Journal}

theorem outcome_answered {α : Type} {x : Run (α × Tape F s)} {answer : α → Answer F}
    (hx : (x >>= fun r => pure (answer r.1, r.2) : Run (Answer F × Tape F s)).outcome j =
      (.ok (a, t'), j')) :
    ∃ b, x.outcome j = (.ok (b, t'), j') := by
  rw [outcome_bind_eq_ok_iff] at hx
  obtain ⟨⟨b, u⟩, k, hx, hpure⟩ := hx
  rw [outcome_pure_eq_ok_iff] at hpure
  obtain ⟨hanswer, rfl⟩ := hpure
  cases hanswer
  exact ⟨b, hx⟩

theorem outcome_done {x : Run (Tape F s)}
    (hx : (x >>= fun t => pure (.done, t) : Run (Answer F × Tape F s)).outcome j =
      (.ok (a, t'), j')) :
    x.outcome j = (.ok t', j') := by
  rw [outcome_bind_eq_ok_iff] at hx
  obtain ⟨u, k, hx, hpure⟩ := hx
  rw [outcome_pure_eq_ok_iff] at hpure
  obtain ⟨hanswer, rfl⟩ := hpure
  cases hanswer
  exact hx

end Calls

/-! ## Calls made again -/

/-- `g'` has the functions of `g` behind the same tokens. -/
def Registry.Grows {F : Type} (g g' : Registry F) : Prop :=
  ∀ token f, g.get? token = some f → g'.get? token = some f

namespace Tape

section Echo

variable {F : Type} {s : Scheme} {t t' u : Tape F s} {n : Nat}

/-- The tape `u` brought to where `t` stands. It keeps its functions, its vector and its settings,
and its recording remembers the identifier `n`, too. -/
def echo (t : Tape F s) (n : Nat) (u : Tape F s) : Tape F s :=
  { u with recording := t.recording.recalling n, supply := t.supply, active := t.active }

theorem echo_eq_setActive (hrecording : u.recording = t.recording.withLargest n)
    (hle : t.recording.largest ≤ n) (hsupply : u.supply = t.supply) :
    t.echo n u = u.setActive t.active := by
  rw [echo, Recording.recalling, Nat.max_eq_right hle, ← hrecording, ← hsupply]
  rfl

/-- The same answer, and the same way to stand behind it. -/
def Echoes {α : Type} (n : Nat) (u : Tape F s) (a b : α × Tape F s) : Prop :=
  b = (a.1, a.2.echo n u)

theorem append_echo (t : Tape F s) (n : Nat) (u : Tape F s) (x : Statement F) :
    { t.echo n u with recording := (t.echo n u).recording.append x } =
      ({ t with recording := t.recording.append x } : Tape F s).echo n u := by
  show { u with
    recording := (t.recording.recalling n).append x, supply := t.supply, active := t.active } = _
  rw [Recording.recalling_append]
  rfl

theorem inStep_release (t : Tape F s) (n : Nat) (u : Tape F s) (identifier : Nat) :
    InStep (fun t t' => t' = t.echo n u) (liftM (t.release identifier))
      (liftM ((t.echo n u).release identifier)) := by
  apply abreast_liftM
  apply Matches.bind_same
  intro supply _
  exact .answer rfl

theorem inStep_store (t : Tape F s) (n : Nat) (u : Tape F s) (target : Nat)
    (arguments : List (F × Nat)) :
    InStep (Echoes n u) (t.store target arguments) ((t.echo n u).store target arguments) := by
  refine Abreast.ite (fun _ => ?_) fun _ => ?_
  · exact (inStep_release t n u target).bind fun t t' ht => abreast_pure (ht ▸ rfl)
  · apply (inStep_same _).bind_same
    intro kind
    apply (abreast_note _).bind_same
    intro _
    apply (inStep_same _).bind_same
    rintro ⟨identifier, supply⟩
    exact abreast_pure (congrArg (Prod.mk _) (append_echo { t with supply := supply } n u _))

theorem inStep_registerInput (t : Tape F s) (n : Nat) (u : Tape F s) :
    InStep (Echoes n u) t.registerInput (t.echo n u).registerInput := by
  refine Abreast.ite (fun _ => ?_) fun _ => abreast_pure rfl
  apply (abreast_note _).bind_same
  intro _
  apply (inStep_same _).bind_same
  rintro ⟨identifier, supply⟩
  exact abreast_pure (congrArg (Prod.mk _) (append_echo { t with supply := supply } n u _))

theorem inStep_registerOutput [One F] (t : Tape F s) (n : Nat) (u : Tape F s) (identifier : Nat) :
    InStep (Echoes n u) (t.registerOutput identifier) ((t.echo n u).registerOutput identifier) := by
  refine Abreast.ite (fun _ => abreast_pure rfl) fun _ => ?_
  apply (inStep_store t n u passive _).bind
  rintro ⟨output, t₁⟩ _ rfl
  exact (inStep_release t₁ n u identifier).bind fun t t' ht => abreast_pure (ht ▸ rfl)

theorem inStep_pushBlock {lib : Library F} {token : Nat} {f : External F}
    (hf : t.registry.get? token = some f) (hf' : u.registry.get? token = some f)
    (hlib : lib.function f.key = f) (fixedSize dynamicSize : Nat)
    (write : Writer → Writer → Except Fault (Writer × Writer)) :
    InStep (Echoes n u) (t.pushBlock token fixedSize dynamicSize write)
      ((t.echo n u).pushBlock token fixedSize dynamicSize write) := by
  have hexpect : t.registry.expect token = .ok f := Registry.expect_eq_ok_iff.2 hf
  have hexpect' : (t.echo n u).registry.expect token = .ok f := Registry.expect_eq_ok_iff.2 hf'
  rw [pushBlock, pushBlock, hexpect, hexpect', liftM_ok, pure_bind, pure_bind]
  refine Abreast.check rfl ?_
  refine Abreast.ite (fun _ => ?_) fun _ => abreast_pure rfl
  apply (Recording.inStep_prepareBlock t.recording fixedSize dynamicSize).bind_same
  intro _
  apply (inStep_same _).bind_same
  rintro ⟨fixed, dynamic⟩
  apply (inStep_checkBlock hlib token fixed dynamic).bind_same
  intro _
  apply (abreast_note _).bind_same
  intro _
  exact abreast_pure (congrArg (Prod.mk _) (append_echo t n u _))

theorem inStep_resetTo (t : Tape F s) (n : Nat) (u : Tape F s) (p : Position) :
    InStep (fun t t' => t' = t.echo n u) (t.resetTo p) ((t.echo n u).resetTo p) := by
  refine Abreast.check rfl ?_
  apply (inStep_same _).bind_same
  intro dropped
  apply (abreast_note _).bind_same
  intro _
  exact (inStep_same _).bind_same fun supply => abreast_pure rfl

theorem echoes_answered {α : Type} {x x' : Run (α × Tape F s)} (hx : InStep (Echoes n u) x x')
    (answer : α → Answer F) :
    InStep (Echoes n u) (x >>= fun r => pure (answer r.1, r.2))
      (x' >>= fun r => pure (answer r.1, r.2)) := by
  apply hx.bind
  rintro r _ rfl
  exact abreast_pure rfl

theorem echoes_done {x x' : Run (Tape F s)} (hx : InStep (fun t t' => t' = t.echo n u) x x') :
    InStep (Echoes n u) (x >>= fun t => pure (Answer.done (F := F), t))
      (x' >>= fun t => pure (.done, t)) := by
  apply hx.bind
  rintro t _ rfl
  exact abreast_pure rfl

theorem exists_of_pushBlock {token fixedSize dynamicSize : Nat}
    {write : Writer → Writer → Except Fault (Writer × Writer)}
    {r : Option (Writer × Writer) × Tape F s} {j j' : Journal}
    (h : (t.pushBlock token fixedSize dynamicSize write).outcome j = (.ok r, j')) :
    ∃ f, t.registry.get? token = some f := by
  rw [pushBlock, outcome_bind_eq_ok_iff] at h
  obtain ⟨f, k, hexpect, -⟩ := h
  exact ⟨f, Registry.expect_eq_ok_iff.1 (outcome_liftM_eq_ok_iff.1 hexpect).1⟩

end Echo

section Again

variable {F : Type} [One F] {s : Scheme} {lib : Library F} {t t' u : Tape F s} {n : Nat}

/-- A call is answered as it was on a tape brought to where the first one stood then. -/
theorem yields_call_echo {c : Call F} {a : Answer F} {j j' : Journal}
    (hwithin : t.registry.Within lib) (hknown : t.registry.Grows u.registry)
    (hc : (t.call c).outcome j = (.ok (a, t'), j')) :
    ((t.echo n u).call c).Yields (a, t'.echo n u) := by
  have hstep : InStep (Echoes n u) (t.call c) ((t.echo n u).call c) := by
    cases c with
    | setActive active => exact abreast_pure rfl
    | release identifier => exact echoes_done (inStep_release t n u identifier)
    | store target arguments => exact echoes_answered (inStep_store t n u target arguments) _
    | registerInput => exact echoes_answered (inStep_registerInput t n u) _
    | registerOutput identifier => exact echoes_answered (inStep_registerOutput t n u identifier) _
    | pushBlock token fixedSize dynamicSize write =>
      -- The one call that reads the registry: it came to an end, so the token was known.
      obtain ⟨_, hblock⟩ := outcome_answered hc
      obtain ⟨f, hf⟩ := exists_of_pushBlock hblock
      exact echoes_answered
        (inStep_pushBlock hf (hknown token f hf) (hwithin token f hf) _ _ _) _
    | resetTo p => exact echoes_done (inStep_resetTo t n u p)
  exact hstep.yields hc

end Again

end Tape

end Autodiff
