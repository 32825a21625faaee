import Autodiff.Proofs.Program.Ownership
import Autodiff.Proofs.Tape.Refusals

/-!
# Lifetimes of identifiers

A program under the reusing scheme may cut its tape back, erase from it and start over at any time,
while its variables keep their identifiers.  What was released and what the variables hold stay
apart through all of that, so no identifier is refused when it is given back, and none is issued
that a variable still has.
-/

namespace Autodiff

/-! ## Actions -/

/-- What a program does with its variables and with its tape.  A variable is dropped, and its
identifier not given back, when another one takes its name. -/
inductive Action (F : Type) where
  | command (c : Command F)
  /-- Keep the position of the tape. -/
  | mark
  | reset
  | resetTo (p : Position)
  | erase (start stop : Position)

namespace Action

variable {F : Type}

/-- The program uses a position of its tape only as long as it is valid. -/
def Allowed (marks : List Position) : Action F → Prop
  | resetTo p => p = .zero ∨ p ∈ marks
  | erase start stop => (start = .zero ∨ start ∈ marks) ∧ (stop = .zero ∨ stop ∈ marks)
  | command _ | mark | reset => True

def Fits : Action F → Prop
  | command c => c.Fits
  | mark | reset | resetTo _ | erase _ _ => True

/-- The positions that are valid after an action, when `marks` were valid before it. -/
def marksAfter (t : Tape F .reuse) (marks : List Position) : Action F → List Position
  | command _ => marks
  | mark => t.position :: marks
  | reset => []
  | resetTo p => marks.filter fun q => decide (q ≤ p)
  | erase start stop => if start ≤ stop then marks.filter fun q => decide (q ≤ start) else marks

variable [Zero F] [One F] [Add F] [Sub F] [Mul F] [Div F] [Neg F] [IntCast F] [Elementary F]

def run (a : Action F) (m : Machine F .reuse) : Run (Machine F .reuse) :=
  match a with
  | command c => c.run m
  | mark => return m
  | reset => do
    let t ← m.tape.reset
    return { m with tape := t }
  | resetTo p => do
    let t ← m.tape.resetTo p
    return { m with tape := t }
  | erase start stop => do
    let (_, t) ← m.tape.erase start stop
    return { m with tape := t }

end Action

section Lifetime

variable {F : Type} [Zero F] [One F] [Add F] [Sub F] [Mul F] [Div F] [Neg F] [IntCast F]
  [Elementary F] [FixedWidth F]

/-- The states of programs that began on a new tape, with the positions that are valid there. -/
inductive Runs : Machine F .reuse → List Position → Prop
  | start {settings : Settings} {v : Adjoints F} {t : Tape F .reuse} :
    Tape.create settings v = .ok t → Runs (.start t) []
  | step {m m' : Machine F .reuse} {marks : List Position} {a : Action F} {j j' : Journal} :
    Runs m marks → a.Allowed marks → (a.run m).outcome j = (.ok m', j') →
      Runs m' (a.marksAfter m.tape marks)

end Lifetime

/-! ## Commands that do not fit -/

section Unfit

variable {F : Type} [Zero F] [One F] [Add F] [Sub F] [Mul F] [Div F] [Neg F] [IntCast F]
  [Elementary F] {s : Scheme}

/-- A command that has the wrong number of operands for its operation does nothing. -/
theorem Command.run_eq_throw {c : Command F} (h : ¬c.Fits) (m : Machine F s) :
    ∃ op, c.run m = throw (.needsTwoOperands op) ∨ c.run m = throw (.needsOneOperand op) := by
  cases c with
  | unary name op a | unaryInto name op a | apply name op =>
    have hop : op.isBinary = true := Bool.not_eq_false _ ▸ h
    refine ⟨op, Or.inl ?_⟩
    simp only [run, Tape.unary, Tape.apply, Tape.unaryInto, hop, ↓reduceIte]
    rfl
  | binary name op a b | binaryInto name op a b | applyWith name op b =>
    have hop : op.isBinary = false := Bool.not_eq_true _ ▸ h
    refine ⟨op, Or.inr ?_⟩
    simp only [run, Tape.binary, Tape.applyWith, Tape.binaryInto, hop, Bool.false_eq_true,
      ↓reduceIte]
    rfl
  | input | constant | copy | assign | assignConstant | markOutput | release | setActive =>
    exact absurd trivial h

theorem Action.run_eq_throw {a : Action F} (h : ¬a.Fits) (m : Machine F .reuse) :
    ∃ op, a.run m = throw (.needsTwoOperands op) ∨ a.run m = throw (.needsOneOperand op) := by
  cases a with
  | command c => exact Command.run_eq_throw h m
  | mark | reset | resetTo | erase => exact absurd trivial h

end Unfit

/-! ## What stays as it is -/

namespace Supply

theorem sound_restart {supply : Supply .reuse} (h : supply.Sound) : supply.restart.Sound := by
  refine ⟨fun i hi => ?_, ?_, ?_⟩
  · rw [largest_restart_reuse]
    exact h.unused i (mem_unused_restart.1 hi)
  · cases supply with
    | reuse largest unused => exact (List.mergeSort_perm _ _).nodup_iff.2 h.nodup
  · rw [largest_restart_reuse]
    exact h.bounded

theorem lent_restart {supply : Supply .reuse} {i : Nat} :
    supply.restart.Lent i ↔ supply.Lent i := by
  rw [Lent, Lent, largest_restart_reuse, mem_unused_restart]

end Supply

namespace Machine

variable {F : Type} {s : Scheme} {m m' : Machine F s}

/-- Whoever has an identifier that it did not have before has one that nobody had. -/
def Fresh (m m' : Machine F s) : Prop :=
  ∀ x, m'.identifier x ≠ passive → m'.identifier x ≠ m.identifier x →
    ∀ y, m.identifier y ≠ m'.identifier x

/-- The variables of a machine with another tape. -/
def onto (m : Machine F s) (t : Tape F s) : Machine F s := { m with tape := t }

theorem fresh_onto (m : Machine F s) (t : Tape F s) : m.Fresh (m.onto t) :=
  fun _ _ hne => absurd rfl hne

/-- Other tapes do as well, as long as the same identifiers are out. -/
theorem Owned.onto (h : m.Owned) {t : Tape F s} (hsound : t.supply.Sound)
    (hlent : ∀ i, m.tape.supply.Lent i → t.supply.Lent i) : (m.onto t).Owned :=
  ⟨hsound, fun x hx => hlent _ (h.lent x hx), h.distinct⟩

/-- What is held in stock belongs to nobody, so it can be issued to anybody. -/
theorem Owned.fresh [Zero F] [One F] [FixedWidth F] (h : m.Owned) {p : Primitive F} {name : Nat}
    {a : Variable F} {δ : List (Statement F)} (hstep : p.Step m m' name a δ) : m.Fresh m' := by
  -- The changed variable is passive, keeps its identifier or is given one that was not out.
  have hwhose : a.identifier = passive ∨ a.identifier = m.identifier name ∨
      ¬m.tape.supply.Lent a.identifier := by
    cases hstep.change with
    | input _ _ _ hnot => exact Or.inr (Or.inr hnot)
    | store _ _ _ hwhose => exact Or.inr hwhose
    | output _ _ _ hnot => exact Or.inr (Or.inr hnot)
    | passiveInput | passiveStore | drop => exact Or.inl rfl
    | passiveOutput | setActive => exact Or.inr (Or.inl rfl)
  intro x hne hchanged
  rw [identifier_update hstep.variableOf] at hne hchanged ⊢
  by_cases hx : x = name
  · rw [if_pos hx] at hne hchanged ⊢
    rw [hx] at hchanged
    exact h.ne_of_not_lent hne ((hwhose.resolve_left hne).resolve_left hchanged)
  · rw [if_neg hx] at hchanged
    exact absurd rfl hchanged

end Machine

/-! ## The invariant -/

/-- The positions up to `p` outlive a cut at `p`. -/
theorem History.valid_cut {F : Type} {h : History F} {marks : List Position}
    (hmarks : ∀ q, q = .zero ∨ q ∈ marks → ∃ n, h.Valid q n) (p : Position) (n : Nat)
    {q : Position} (hq : q = .zero ∨ q ∈ marks.filter fun q => decide (q ≤ p)) :
    ∃ n', (h.cut p n).Valid q n' := by
  rcases hq with rfl | hq
  · exact ⟨0, History.valid_zero _⟩
  · obtain ⟨hmem, hle⟩ := List.mem_filter.1 hq
    obtain ⟨n', hvalid⟩ := hmarks q (Or.inr hmem)
    exact ⟨n', hvalid.cut (of_decide_eq_true hle) n⟩

section Kept

variable {F : Type} [Zero F] [One F] [FixedWidth F]

/-- The variables own their identifiers, and the positions that were kept are valid. -/
structure Machine.Kept (lib : Library F) (m : Machine F .reuse) (marks : List Position) : Prop where
  owned : m.Owned
  reached : ∃ h, Reached lib m.tape h ∧ ∀ p, p = .zero ∨ p ∈ marks → ∃ n, h.Valid p n

namespace Machine.Kept

variable {lib : Library F} {m : Machine F .reuse} {marks : List Position}

theorem start {settings : Settings} {v : Adjoints F} {t : Tape F .reuse}
    (h : Tape.create settings v = .ok t) : (Machine.start t).Kept lib [] := by
  refine ⟨owned_start (Tape.create_cases h).2.2.1, {}, .create h, fun p hp => ?_⟩
  rw [hp.resolve_right List.not_mem_nil]
  exact ⟨0, History.valid_zero _⟩

theorem mark (hm : m.Kept lib marks) : m.Kept lib (m.tape.position :: marks) := by
  obtain ⟨howned, h, hr, hmarks⟩ := hm
  refine ⟨howned, h.mark m.tape.position, hr.mark, fun p hp => ?_⟩
  rcases hp with rfl | hp
  · exact ⟨0, History.valid_zero _⟩
  · rcases List.mem_cons.1 hp with rfl | hp
    · exact ⟨_, h.valid_mark _⟩
    · obtain ⟨n, hn⟩ := hmarks p (Or.inr hp)
      exact ⟨n, hn.mark _⟩

theorem reset (hm : m.Kept lib marks) :
    ∃ t, m.tape.reset.Yields t ∧ (m.onto t).Kept lib [] := by
  obtain ⟨howned, h, hr, -⟩ := hm
  obtain ⟨t, ht⟩ : ∃ t, m.tape.reset.Yields t := ⟨_, fun j => rfl⟩
  obtain ⟨j, hreset⟩ := ht.exists_outcome {}
  have hsupply := (Tape.reset_cases hreset).2.1
  refine ⟨t, ht, howned.onto ?_ fun i hi => ?_, {}, hr.step (.reset hreset), fun p hp => ?_⟩
  · rw [hsupply]
    exact Supply.sound_restart howned.sound
  · rw [hsupply]
    exact Supply.lent_restart.2 hi
  · rw [hp.resolve_right List.not_mem_nil]
    exact ⟨0, History.valid_zero _⟩

theorem resetTo (hm : m.Kept lib marks) {p : Position} (hp : p = .zero ∨ p ∈ marks) :
    ∃ t, (m.tape.resetTo p).Yields t ∧
      (m.onto t).Kept lib (marks.filter fun q => decide (q ≤ p)) := by
  obtain ⟨howned, h, hr, hmarks⟩ := hm
  obtain ⟨n, hvalid⟩ := hmarks p hp
  have hyields := Tape.yields_resetTo (hr.aligned.contains hvalid)
  obtain ⟨j, hreset⟩ := hyields.exists_outcome {}
  exact ⟨_, hyields, howned.onto howned.sound fun _ hi => hi, _, hr.step (.resetTo hvalid hreset),
    fun q hq => History.valid_cut hmarks p n hq⟩

theorem erase (hm : m.Kept lib marks) {p q : Position} (hp : p = .zero ∨ p ∈ marks)
    (hq : q = .zero ∨ q ∈ marks) :
    ∃ result t, (m.tape.erase p q).Yields (result, t) ∧
      (m.onto t).Kept lib (if p ≤ q then marks.filter fun q => decide (q ≤ p) else marks) := by
  obtain ⟨howned, h, hr, hmarks⟩ := hm
  obtain ⟨i, hpi⟩ := hmarks p hp
  obtain ⟨k, hqk⟩ := hmarks q hq
  obtain ⟨result, t, hyields, hsupply, hresult⟩ := hr.exists_erase hpi hqk
  obtain ⟨j, herase⟩ := hyields.exists_outcome {}
  have howned' : (m.onto t).Owned := by
    apply howned.onto <;> rw [hsupply]
    · exact howned.sound
    · exact fun _ hi => hi
  refine ⟨result, t, hyields, howned', _, hr.step (.erase hpi hqk herase), fun o ho => ?_⟩
  by_cases hle : p ≤ q
  · rw [if_pos hle] at ho
    obtain ⟨n, hn⟩ := History.valid_cut hmarks p i ho
    exact ⟨n, (hresult.2 hle) ▸ hn.extend _⟩
  -- A reversed range is refused, and all positions are as valid as before.
  · rw [if_neg hle] at ho
    cases result with
    | ok u => exact absurd (hresult.1 rfl) hle
    | error refusal => exact hmarks o ho

end Machine.Kept

end Kept

/-! ## Runs -/

section Lifetime

variable {F : Type} [Zero F] [One F] [Add F] [Sub F] [Mul F] [Div F] [Neg F] [IntCast F]
  [Elementary F] [FixedWidth F] {lib : Library F} {m : Machine F .reuse} {marks : List Position}

theorem Machine.Kept.command (hm : m.Kept lib marks) {c : Command F} (hc : c.Fits) :
    (∃ m', (c.run m).Yields m' ∧ m'.Kept lib marks ∧ m.Fresh m') ∨
      (m.tape.supply.Exhausted ∧ (c.run m).Fails (.outOfIdentifiers .reuse)) := by
  obtain ⟨howned, h, hr, hmarks⟩ := hm
  rw [Command.run_eq hc]
  rcases Primitive.ends howned (c.fits_primitive m.value) with
    ⟨m', name, a, δ, hyields, hstep⟩ | hexhausted
  · refine Or.inl ⟨m', hyields, ⟨hstep.owned, _, hstep.reached hr, fun p hp => ?_⟩,
      howned.fresh hstep⟩
    obtain ⟨n, hn⟩ := hmarks p hp
    exact ⟨n, hn.extend _⟩
  · exact Or.inr hexhausted

/-- Every action that an identifier is left for comes to its end, keeps what the program relies on
and gives nothing away that somebody has. -/
theorem Machine.Kept.action (hm : m.Kept lib marks) {a : Action F} (ha : a.Allowed marks)
    (hfits : a.Fits) :
    (∃ m', (a.run m).Yields m' ∧ m'.Kept lib (a.marksAfter m.tape marks) ∧ m.Fresh m') ∨
      (m.tape.supply.Exhausted ∧ (a.run m).Fails (.outOfIdentifiers .reuse)) := by
  cases a with
  | command c => exact hm.command hfits
  | mark => exact Or.inl ⟨m, Run.yields_pure m, hm.mark, m.fresh_onto m.tape⟩
  | reset =>
    obtain ⟨t, hyields, hkept⟩ := hm.reset
    exact Or.inl ⟨m.onto t, hyields.bind (Run.yields_pure _), hkept, m.fresh_onto t⟩
  | resetTo p =>
    obtain ⟨t, hyields, hkept⟩ := hm.resetTo ha
    exact Or.inl ⟨m.onto t, hyields.bind (Run.yields_pure _), hkept, m.fresh_onto t⟩
  | erase start stop =>
    obtain ⟨result, t, hyields, hkept⟩ := hm.erase ha.1 ha.2
    exact Or.inl ⟨m.onto t, hyields.bind (Run.yields_pure _), hkept, m.fresh_onto t⟩

theorem Runs.kept (hm : Runs m marks) (lib : Library F) : m.Kept lib marks := by
  induction hm with
  | start h => exact .start h
  | @step m m' marks a j j' _ ha hrun ih =>
    by_cases hfits : a.Fits
    · rcases ih.action ha hfits with ⟨m₁, hyields, hkept, -⟩ | ⟨-, hfails⟩
      · rwa [hyields.eq_of_outcome hrun]
      · exact absurd hrun (hfails.ne_ok j)
    -- A command that does not fit ends the program, so there is no state after it.
    · obtain ⟨op, hthrow | hthrow⟩ := Action.run_eq_throw hfits m
      · exact absurd (hthrow ▸ hrun) Run.outcome_throw_ne_ok
      · exact absurd (hthrow ▸ hrun) Run.outcome_throw_ne_ok

/-- At every point of a program the variables hold different identifiers, and the supply keeps
others, each of them once.  The one thing that can be wrong with an action is the number of its
operands.  What it issues belonged to nobody, and it faults if it needs an identifier when all that
there are have an owner. -/
theorem identifiers_have_one_owner (hm : Runs m marks) :
    (∀ x y, m.identifier x ≠ passive → m.identifier x = m.identifier y → x = y) ∧
    (∀ x, m.identifier x ≠ passive →
      m.identifier x ∉ m.tape.supply.unused ∧ m.identifier x ≤ m.tape.supply.largest) ∧
    m.tape.supply.unused.Nodup ∧
    (∀ i ∈ m.tape.supply.unused, i ≠ passive ∧ i ≤ m.tape.supply.largest) ∧
    ∀ a : Action F, a.Allowed marks →
      (a.Fits → (∃ m', (a.run m).Yields m' ∧ m.Fresh m') ∨
        (m.tape.supply.Exhausted ∧ (a.run m).Fails (.outOfIdentifiers .reuse))) ∧
      (¬a.Fits → ∃ op, a.run m = throw (.needsTwoOperands op) ∨
        a.run m = throw (.needsOneOperand op)) := by
  have hkept := hm.kept default
  obtain ⟨hsound, hlent, hdistinct⟩ := hkept.owned
  refine ⟨fun x y hx hxy => hdistinct x y hxy hx, fun x hx => (hlent x hx).symm, hsound.nodup,
    hsound.unused, fun a ha => ⟨fun hfits => ?_, fun hfits => Action.run_eq_throw hfits m⟩⟩
  refine (hkept.action ha hfits).imp_left ?_
  rintro ⟨m', hyields, -, hfresh⟩
  exact ⟨m', hyields, hfresh⟩

end Lifetime

/-- The second variable is released and the tape cut back to where it stood before the third one,
which keeps its identifier; a new input is given the one that was released. -/
theorem identifiers_have_one_owner_of_cut :
    ∃ (m : Machine Int .reuse) (marks : List Position), Runs m marks ∧
      m.identifier 0 = 1 ∧ m.identifier 2 = 3 ∧ m.identifier 3 = 2 ∧
      m.identifier 2 ∉ m.tape.supply.unused ∧ m.tape.supply.unused.Nodup ∧
      ∃ m', (Action.run (.command (.markOutput 2)) m).Yields m' ∧ m.Fresh m' := by
  have hstart : Runs (F := Int) _ _ :=
    .start (show Tape.create ⟨2, 1, 1, 1, 3, true⟩ #[] = _ from rfl)
  have hinput := hstart.step (a := .command (.input 0 5)) trivial
    (show (Action.run _ _).outcome {} = _ from rfl)
  have hunary := hinput.step (a := .command (.unary 1 .neg 0)) trivial
    (show (Action.run _ _).outcome {} = _ from rfl)
  have hmark := hunary.step (a := .mark) trivial (show (Action.run _ _).outcome {} = _ from rfl)
  have hcopy := hmark.step (a := .command (.copy 2 1)) trivial
    (show (Action.run _ _).outcome {} = _ from rfl)
  have hrelease := hcopy.step (a := .command (.release 1)) trivial
    (show (Action.run _ _).outcome {} = _ from rfl)
  have hcut := hrelease.step (a := .resetTo _) (Or.inr (List.mem_cons_self ..))
    (show (Action.run _ _).outcome {} = _ from rfl)
  have hagain := hcut.step (a := .command (.input 3 7)) trivial
    (show (Action.run _ _).outcome {} = _ from rfl)
  obtain ⟨-, hheld, hnodup, -, hactions⟩ := identifiers_have_one_owner hagain
  refine ⟨_, _, hagain, rfl, rfl, rfl, (hheld 2 (by decide)).1, hnodup,
    ((hactions (.command (.markOutput 2)) trivial).1 trivial).resolve_right ?_⟩
  rintro ⟨⟨-, hlargest⟩, -⟩
  exact absurd hlargest (by decide)

end Autodiff
