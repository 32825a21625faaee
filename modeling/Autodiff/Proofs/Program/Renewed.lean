import Autodiff.Proofs.Exact
import Autodiff.Proofs.Program.Stock
import Autodiff.Proofs.Tape.Plain

/-!
# Starting over

A tape on which every identifier was given back records after a full reset what a new tape records,
under the same identifiers.  The one serves them from its stock and the other counts up to them, and
no sequence of commands, releases and resets can tell which.
-/

namespace Autodiff

open Run

/-! ## Tasks -/

/-- What is done with a tape and its variables while recording. -/
inductive Task (F : Type) where
  | command (c : Command F)
  | call (c : Call F)
  | register (key : Nat)
  | reset

namespace Task

variable {F : Type} [Zero F] [One F] [Add F] [Sub F] [Mul F] [Div F] [Neg F] [IntCast F]
  [Elementary F]

def run (lib : Library F) (m : Machine F .reuse) : Task F → Run (Answer F × Machine F .reuse)
  | command c => do
    let m ← c.run m
    return (.done, m)
  | call c => do
    let r ← m.tape.call c
    return (r.1, m.onto r.2)
  | register key => do
    let r ← m.tape.register (lib.function key)
    return (.identifier r.1, m.onto r.2)
  | reset => do
    let t ← m.tape.reset
    return (.done, m.onto t)

/-- Some tasks, one after another: each answer, with the position of the tape behind the task. -/
def runAll (lib : Library F) (m : Machine F .reuse) :
    List (Task F) → Run (List (Answer F × Position) × Machine F .reuse)
  | [] => return ([], m)
  | k :: ks => do
    let r ← k.run lib m
    let rs ← runAll lib r.2 ks
    return ((r.1, r.2.tape.position) :: rs.1, rs.2)

end Task

/-! ## Machines with more in stock -/

section Stocked

variable {F : Type} [Zero F] {lib : Library F} {n : Nat}

/-- `m'` has the variables of `m`, and its tape is that of `m` with the identifiers up to `n` in
stock. -/
structure Machine.Stocked (lib : Library F) (n : Nat) (m m' : Machine F .reuse) : Prop where
  variableOf : m'.variableOf = m.variableOf
  inputs : m'.inputs = m.inputs
  tape : Tape.Stocked lib n m.tape m'.tape

/-- The same answer, and a machine with more in stock. -/
def Machine.Stocks {α : Type} (lib : Library F) (n : Nat) (a b : α × Machine F .reuse) : Prop :=
  b.1 = a.1 ∧ Machine.Stocked lib n a.2 b.2

namespace Machine.Stocked

variable {m m' : Machine F .reuse}

theorem identifier_eq (h : Stocked lib n m m') (x : Nat) : m'.identifier x = m.identifier x := by
  rw [identifier, h.variableOf]
  rfl

theorem value_eq (h : Stocked lib n m m') : m'.value = m.value := by
  funext x
  rw [value, h.variableOf]
  rfl

theorem arguments_eq (h : Stocked lib n m m') (operands : List (F × Nat)) :
    Primitive.arguments m' operands = Primitive.arguments m operands := by
  simp only [Primitive.arguments, h.identifier_eq]

theorem onto (h : Stocked lib n m m') {t t' : Tape F .reuse} (ht : Tape.Stocked lib n t t') :
    Stocked lib n (m.onto t) (m'.onto t') :=
  ⟨h.variableOf, h.inputs, ht⟩

theorem bind (h : Stocked lib n m m') (name : Nat) (a : Variable F) {t t' : Tape F .reuse}
    (ht : Tape.Stocked lib n t t') : Stocked lib n (m.bind name a t) (m'.bind name a t') :=
  ⟨congrArg (fun f : Nat → Variable F => Function.update f name a) h.variableOf, h.inputs, ht⟩

theorem primitive [One F] (h : Stocked lib n m m') (p : Primitive F) :
    Abreast AnyFaults (Stocked lib n) (p.run m) (p.run m') := by
  cases p with
  | input name x =>
    apply h.tape.registerInput.anyFaults.bind
    rintro ⟨_, t⟩ ⟨i, t'⟩ ⟨rfl, ht⟩
    have hbind := h.bind name ⟨x, i⟩ ht
    refine abreast_pure ?_
    show Stocked lib n (if i != passive then _ else _) (if i != passive then _ else _)
    split
    · exact ⟨hbind.variableOf, congrArg (· ++ [i]) hbind.inputs, ht⟩
    · exact hbind
  | store name x overwrites operands =>
    show Abreast _ _ (m.tape.store (if overwrites then m.identifier name else passive)
        (Primitive.arguments m operands) >>= _)
      (m'.tape.store (if overwrites then m'.identifier name else passive)
        (Primitive.arguments m' operands) >>= _)
    rw [h.arguments_eq, h.identifier_eq]
    apply (h.tape.store _ _).bind
    rintro ⟨i, t⟩ ⟨_, t'⟩ ⟨rfl, ht⟩
    exact abreast_pure (h.bind name _ ht)
  | drop name x releases =>
    have hretire : Matches AnyFaults (Tape.Stocked lib n) (Primitive.retire m name releases)
        (Primitive.retire m' name releases) := by
      unfold Primitive.retire
      rw [h.identifier_eq]
      split
      · exact h.tape.release _
      · exact .answer h.tape
    exact (abreast_liftM hretire).bind fun t t' ht => abreast_pure (h.bind name _ ht)
  | output name =>
    show Abreast _ _ (m.tape.registerOutput (m.identifier name) >>= _)
      (m'.tape.registerOutput (m'.identifier name) >>= _)
    rw [h.identifier_eq, h.value_eq]
    apply (h.tape.registerOutput _).bind
    rintro ⟨i, t⟩ ⟨_, t'⟩ ⟨rfl, ht⟩
    exact abreast_pure (h.bind name _ ht)
  | setActive active => exact abreast_pure (h.onto (h.tape.setActive active))

end Machine.Stocked

theorem Tape.Stocked.call [One F] {t t' : Tape F .reuse} (h : Stocked lib n t t') (c : Call F) :
    Abreast AnyFaults (Stocks lib n) (t.call c) (t'.call c) := by
  have done {x x' : Run (Tape F .reuse)} (hx : Abreast AnyFaults (Stocked lib n) x x') :
      Abreast AnyFaults (Stocks lib n) (x >>= fun t => pure (Answer.done (F := F), t))
        (x' >>= fun t => pure (.done, t)) :=
    hx.bind fun t t' ht => abreast_pure ⟨rfl, ht⟩
  have answered {α : Type} {x x' : Run (α × Tape F .reuse)}
      (hx : Abreast AnyFaults (Stocks lib n) x x') (answer : α → Answer F) :
      Abreast AnyFaults (Stocks lib n) (x >>= fun r => pure (answer r.1, r.2))
        (x' >>= fun r => pure (answer r.1, r.2)) := by
    apply hx.bind
    rintro ⟨a, t⟩ ⟨_, t'⟩ ⟨rfl, ht⟩
    exact abreast_pure ⟨rfl, ht⟩
  cases c with
  | setActive active => exact abreast_pure ⟨rfl, h.setActive active⟩
  | release identifier => exact done (abreast_liftM (h.release identifier))
  | store target arguments => exact answered (h.store target arguments) _
  | registerInput => exact answered h.registerInput.anyFaults _
  | registerOutput identifier => exact answered (h.registerOutput identifier) _
  | pushBlock token fixedSize dynamicSize write =>
    exact answered (h.pushBlock token fixedSize dynamicSize write).anyFaults _
  | resetTo p => exact done (h.resetTo p).anyFaults

namespace Machine.Stocked

variable [One F] {m m' : Machine F .reuse}

theorem command [Add F] [Sub F] [Mul F] [Div F] [Neg F] [IntCast F] [Elementary F]
    (h : Stocked lib n m m') (c : Command F) :
    Abreast AnyFaults (Stocked lib n) (c.run m) (c.run m') := by
  by_cases hc : c.Fits
  · rw [Command.run_eq hc, Command.run_eq hc, h.value_eq]
    exact h.primitive _
  -- A command that does not fit never gets to the tape.
  · obtain ⟨op, hrun⟩ := Command.run_eq_throw hc m
    obtain ⟨op', hrun'⟩ := Command.run_eq_throw hc m'
    rcases hrun with hrun | hrun <;> rcases hrun' with hrun' | hrun' <;> rw [hrun, hrun']
    all_goals exact abreast_throw trivial

theorem task [Add F] [Sub F] [Mul F] [Div F] [Neg F] [IntCast F] [Elementary F]
    (h : Stocked lib n m m') (k : Task F) :
    Abreast AnyFaults (Stocks lib n) (k.run lib m) (k.run lib m') := by
  cases k with
  | command c => exact (h.command c).bind fun m m' hm => abreast_pure ⟨rfl, hm⟩
  | call c =>
    apply (h.tape.call c).bind
    rintro ⟨a, t⟩ ⟨_, t'⟩ ⟨rfl, ht⟩
    exact abreast_pure ⟨rfl, h.onto ht⟩
  | register key =>
    apply (abreast_liftM (h.tape.register key)).anyFaults.bind
    rintro ⟨token, t⟩ ⟨_, t'⟩ ⟨rfl, ht⟩
    exact abreast_pure ⟨rfl, h.onto ht⟩
  | reset => exact h.tape.reset.anyFaults.bind fun t t' ht => abreast_pure ⟨rfl, h.onto ht⟩

theorem tasks [Add F] [Sub F] [Mul F] [Div F] [Neg F] [IntCast F] [Elementary F]
    (h : Stocked lib n m m') (ks : List (Task F)) :
    Abreast AnyFaults (Stocks lib n) (Task.runAll lib m ks) (Task.runAll lib m' ks) := by
  induction ks generalizing m m' with
  | nil => exact abreast_pure ⟨rfl, h⟩
  | cons k ks ih =>
    apply (h.task k).bind
    rintro ⟨a, m₁⟩ ⟨_, m₁'⟩ ⟨rfl, hm⟩
    apply (ih hm).bind
    rintro ⟨as, m₂⟩ ⟨_, m₂'⟩ ⟨rfl, hm'⟩
    refine abreast_pure ⟨?_, hm'⟩
    rw [hm.tape.position_eq]

end Machine.Stocked

end Stocked

/-! ## After a full reset -/

section Renewed

variable {F : Type} [Zero F] [One F] [FixedWidth F] {lib : Library F} {t t₀ : Tape F .reuse}
  {h : History F}

theorem Reached.clear_eq (hr : Reached lib t h) {r : Recording F}
    (hnew : Recording.create t.settings = .ok r) : t.recording.clear = r := by
  rw [hr.aligned.spells.clear.eq, (Recording.spells_of_create hnew).eq,
    Recording.largest_of_create hnew]
  rfl

/-- A new tape with the settings and functions of `t`, as active as that. -/
def Tape.renewed (t t₀ : Tape F .reuse) : Tape F .reuse :=
  { t₀ with registry := t.registry, active := t.active }

theorem Reached.exists_stocked (hr : Reached lib t h)
    (hall : ∀ i, i ≠ passive → ¬t.supply.Lent i) (hnew : Tape.create t.settings #[] = .ok t₀) :
    ∃ t₁, t.reset.Yields t₁ ∧ Tape.Stocked lib t.supply.largest (t.renewed t₀) t₁ := by
  obtain ⟨hrecording, -, hsupply, hsettings, -⟩ := Tape.create_cases hnew
  have hstock : t.supply.restart = t₀.supply.stocked t.supply.largest := by
    rw [hsupply]
    exact Supply.restart_eq hr.sound hall
  refine ⟨_, fun j => rfl, hr.sound.bounded, hr.aligned.within, ?_, ?_, fun hclear => ?_⟩
  · show t₀.supply.Sound
    rw [hsupply]
    exact Supply.sound_fresh _
  · rw [hr.clear_eq hrecording, hstock, ← hsettings]
    rfl
  -- A new vector has zeros only, and so has one that was cleared.
  · have hclear' : t.settings.clearOnReset = true := hsettings ▸ hclear
    funext i
    show Adjoints.slot (if t.settings.clearOnReset then t.adjoints.clear else t.adjoints) i =
      t₀.adjoints.slot i
    rw [if_pos hclear', Adjoints.slot_clear, Tape.slot_create hnew]
    rfl

variable [Add F] [Sub F] [Mul F] [Div F] [Neg F] [IntCast F] [Elementary F]

/-- Once every identifier was given back, a full reset leaves a tape that goes on like a new one
with the same settings and functions.  Any tasks come to their end on both tapes or on neither, for
any variables that they start with: with the same answers, identifiers, streams and positions behind
each of them.  The supply has more in stock, and the vector is another one; it holds the same if the
settings ask to clear it. -/
theorem reset_tapes_record_like_new_ones (hr : Reached lib t h)
    (hall : ∀ i, i ≠ passive → ¬t.supply.Lent i) (hnew : Tape.create t.settings #[] = .ok t₀) :
    ∃ t₁, t.reset.Yields t₁ ∧
      ∀ (variableOf : Nat → Variable F) (inputs : List Nat) (ks : List (Task F)),
        Run.Abreast Run.AnyFaults (Machine.Stocks lib t.supply.largest)
          (Task.runAll lib ⟨t.renewed t₀, variableOf, inputs⟩ ks)
          (Task.runAll lib ⟨t₁, variableOf, inputs⟩ ks) := by
  obtain ⟨t₁, hreset, hstocked⟩ := hr.exists_stocked hall hnew
  refine ⟨t₁, hreset, fun variableOf inputs ks => ?_⟩
  have hstart : Machine.Stocked lib t.supply.largest ⟨t.renewed t₀, variableOf, inputs⟩
      ⟨t₁, variableOf, inputs⟩ := ⟨rfl, rfl, hstocked⟩
  exact hstart.tasks ks

end Renewed

/-- Two rounds of inputs with a reset between them. -/
def twoRounds : List (Task Int) :=
  [.command (.input 0 5), .call .registerInput, .command (.release 0), .reset,
    .call .registerInput, .call .registerInput, .call .registerInput]

/-- What a machine has in its stream of statements once it is done with the two rounds. -/
def statementsOfTwoRounds (m : Machine Int .reuse) : Except Fault (List (Nat × Kind)) :=
  ((Task.runAll .counting m twoRounds).outcome {}).1.map fun r =>
    r.2.tape.recording.statements.toList

/-- Three identifiers were issued and came back in another order. -/
theorem exists_returned : ∃ (t t₀ : Tape Int .reuse) (h : History Int),
    Reached .counting t h ∧ (∀ i, i ≠ passive → ¬t.supply.Lent i) ∧
      Tape.create t.settings #[] = .ok t₀ ∧ t.supply = .reuse 3 [1, 3, 2] ∧
      statementsOfTwoRounds ⟨t.renewed t₀, fun _ => .constant 0, []⟩ =
        .ok [(1, .input), (3, .input), (4, .input)] := by
  have hcreate : Reached (.counting : Library Int) (s := .reuse) _ _ :=
    .create (show Tape.create ⟨2, 1, 1, 1, 3, true⟩ #[] = _ from rfl)
  have hone := hcreate.step (.registerInput (show (Tape.registerInput _).outcome {} = _ from rfl))
  have htwo := hone.step (.registerInput (show (Tape.registerInput _).outcome {} = _ from rfl))
  have hthree := htwo.step (.registerInput (show (Tape.registerInput _).outcome {} = _ from rfl))
  have hback := hthree.step (.release (show Tape.release _ 2 = _ from rfl))
  have hback' := hback.step (.release (show Tape.release _ 3 = _ from rfl))
  have hall := hback'.step (.release (show Tape.release _ 1 = _ from rfl))
  refine ⟨_, _, _, hall, fun i hi hlent => ?_, rfl, rfl, by decide +kernel⟩
  obtain ⟨hle, hnot⟩ := hlent
  have hle' : i ≤ 3 := hle
  have hnot' : i ∉ [1, 3, 2] := hnot
  have hne : i ≠ 0 := hi
  simp only [List.mem_cons, List.not_mem_nil, or_false, not_or] at hnot'
  omega

/-- The tape that was reset does the two rounds as the new one does, out of its stock first. -/
theorem reset_tapes_record_like_new_ones_of_returned :
    ∃ (t t₀ t₁ : Tape Int .reuse) (h : History Int),
      Reached .counting t h ∧ (∀ i, i ≠ passive → ¬t.supply.Lent i) ∧
        Tape.create t.settings #[] = .ok t₀ ∧ t.supply = .reuse 3 [1, 3, 2] ∧
        t.reset.Yields t₁ ∧
        statementsOfTwoRounds ⟨t₁, fun _ => .constant 0, []⟩ =
          .ok [(1, .input), (3, .input), (4, .input)] := by
  obtain ⟨t, t₀, h, hr, hall, hnew, hsupply, hrun⟩ := exists_returned
  obtain ⟨t₁, hreset, habreast⟩ := reset_tapes_record_like_new_ones hr hall hnew
  refine ⟨t, t₀, t₁, h, hr, hall, hnew, hsupply, hreset, ?_⟩
  have hmatches := (habreast (fun _ => .constant 0) [] twoRounds {} {}).1
  rw [statementsOfTwoRounds] at hrun ⊢
  generalize ((Task.runAll _ ⟨t.renewed t₀, _, _⟩ twoRounds).outcome {}).1 = x at hmatches hrun
  generalize ((Task.runAll _ ⟨t₁, _, _⟩ twoRounds).outcome {}).1 = x' at hmatches ⊢
  cases hmatches with
  | fault he => cases hrun
  | answer hstocks =>
    rw [← hrun]
    simp only [Except.map, hstocks.2.tape.recording_eq]

/-- Where the settings do not ask for it, the vector is left as it is, and what was put into a slot
is still there for the next one to get the identifier. -/
theorem reset_keeps_slots_unless_asked_to_clear :
    ∃ (t t₀ t₁ : Tape Int .reuse) (h : History Int),
      Reached .counting t h ∧ (∀ i, i ≠ passive → ¬t.supply.Lent i) ∧
        Tape.create t.settings #[] = .ok t₀ ∧ t.reset.Yields t₁ ∧
        ((t.renewed t₀).registerInput.outcome {}).1.map (fun r => (r.1, r.2.adjoints)) =
          .ok (1, #[0, 0]) ∧
        (t₁.registerInput.outcome {}).1.map (fun r => (r.1, r.2.adjoints)) = .ok (1, #[0, 5]) := by
  have hcreate : Reached (.counting : Library Int) (s := .reuse) _ _ :=
    .create (show Tape.create ⟨2, 1, 1, 1, 2, false⟩ #[] = _ from rfl)
  have hone := hcreate.step (.registerInput (show (Tape.registerInput _).outcome {} = _ from rfl))
  have hall := (hone.setVector #[0, 5]).step (.release (show Tape.release _ 1 = _ from rfl))
  refine ⟨_, _, _, _, hall, fun i hi hlent => ?_, rfl, fun j => rfl, rfl, by decide +kernel⟩
  obtain ⟨hle, hnot⟩ := hlent
  have hle' : i ≤ 1 := hle
  have hnot' : i ∉ [1] := hnot
  have hne : i ≠ 0 := hi
  rw [List.mem_singleton] at hnot'
  omega

end Autodiff
