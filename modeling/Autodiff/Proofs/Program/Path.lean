import Autodiff.Proofs.Program.Ownership
import Autodiff.Proofs.Tape.Plain

/-!
# Paths

A path is a run of a program together with the statements that it records.  What one command keeps
is kept along the whole of a path.
-/

namespace Autodiff

/-! ## Identifiers that a recording names -/

def Statement.Names {F : Type} (i : Nat) (x : Statement F) : Prop :=
  x.Assigns i ∨ i ∈ x.registered

theorem Statement.Names.le_largest {F : Type} {i : Nat} {x : Statement F} (h : x.Names i) :
    i ≤ x.largest := by
  cases x with
  | input t =>
    rcases h with h | h
    · exact h.elim
    · exact Nat.le_of_eq (List.mem_singleton.1 h)
  | block token largest fixed dynamic =>
    rcases h with h | h
    · exact h.elim
    · exact absurd h List.not_mem_nil
  | normal t entries =>
    rcases h with (rfl | ⟨e, he, rfl⟩) | h
    · exact target_le_largest
    · exact entry_le_largest he
    · exact absurd h List.not_mem_nil

namespace Recording

variable {F : Type} {r : Recording F} {ss : List (Statement F)} {i : Nat}

/-- Some assignment of the recording names the identifier. -/
def Assigns (r : Recording F) (i : Nat) : Prop :=
  (∃ x ∈ r.statements.toList, x.1 = i ∧ x.2 ≠ .input ∧ x.2 ≠ .block) ∨
    ∃ e ∈ r.partials.toList, e.2 = i

instance (r : Recording F) (i : Nat) : Decidable (r.Assigns i) :=
  inferInstanceAs (Decidable (_ ∨ _))

def Names (r : Recording F) (i : Nat) : Prop :=
  r.Assigns i ∨ (i, .input) ∈ r.statements.toList

instance (r : Recording F) (i : Nat) : Decidable (r.Names i) :=
  inferInstanceAs (Decidable (_ ∨ _))

-- What a statement names is looked up in the streams; nobody reads them statement by statement.
theorem Holds.assigns (h : r.Holds ss) {x : Statement F} (hx : x ∈ ss) (hi : x.Assigns i) :
    r.Assigns i := by
  cases x with
  | input t => exact absurd hi id
  | block token largest fixed dynamic => exact absurd hi id
  | normal t entries =>
    rcases hi with rfl | ⟨e, he, rfl⟩
    · left
      refine ⟨(t, .normal entries.length), ?_, rfl, Kind.noConfusion, Kind.noConfusion⟩
      rw [h.statements]
      exact List.mem_map.2 ⟨_, hx, rfl⟩
    · right
      refine ⟨e, ?_, rfl⟩
      rw [h.partials]
      exact List.mem_flatMap.2 ⟨_, hx, he⟩

theorem Holds.names (h : r.Holds ss) {x : Statement F} (hx : x ∈ ss) (hi : x.Names i) :
    r.Names i := by
  rcases hi with hi | hi
  · exact Or.inl (h.assigns hx hi)
  · cases x with
    | input t =>
      right
      rw [h.statements]
      exact List.mem_map.2 ⟨_, hx, by rw [List.mem_singleton.1 hi]; rfl⟩
    | normal t entries => exact absurd hi List.not_mem_nil
    | block token largest fixed dynamic => exact absurd hi List.not_mem_nil

end Recording

section Records

variable {F : Type} {s : Scheme}

/-- The identifier that a supply is about to issue, unless none is left. -/
def Supply.next (supply : Supply s) : List Nat :=
  match supply.generate with
  | .ok (i, _) => [i]
  | .error _ => []

/-- The identifier that a command is about to register. -/
def Command.registered (c : Command F) (m : Machine F s) : List Nat :=
  match c with
  | input _ _ => if m.tape.active then m.tape.supply.next else []
  | _ => []

theorem Command.registered_cases (c : Command F) (m : Machine F s) :
    c.registered m = [] ∨ ∃ i, c.registered m = [i] := by
  unfold registered Supply.next
  split
  · split
    · split
      · exact Or.inr ⟨_, rfl⟩
      · exact Or.inl rfl
    · exact Or.inl rfl
  · exact Or.inl rfl

/-- The identifier that a command registers is not yet named by the recording. -/
def Command.Fresh (c : Command F) (m : Machine F s) : Prop :=
  ∀ i ∈ c.registered m, ¬m.tape.recording.Names i

instance (c : Command F) (m : Machine F s) : Decidable (c.Fresh m) :=
  inferInstanceAs (Decidable (∀ i ∈ c.registered m, ¬m.tape.recording.Names i))

theorem Command.registered_eq_singleton {c : Command F} {m : Machine F s} {i : Nat}
    (h : i ∈ c.registered m) : c.registered m = [i] := by
  rcases c.registered_cases m with hnone | ⟨k, hk⟩
  · rw [hnone] at h
    exact absurd h List.not_mem_nil
  · rw [hk] at h ⊢
    rw [List.mem_singleton.1 h]

theorem Primitive.Change.plain [One F] {m : Machine F s} {p : Primitive F} {name : Nat}
    {a : Variable F} {δ : List (Statement F)} (h : p.Change m name a δ) :
    ∀ x ∈ δ, x.kind ≠ .block := by
  cases h <;> simp [Statement.kind]

/-! ## Machines and what they have recorded -/

variable [Zero F] [One F] [FixedWidth F]

/-- The statements `ss`, none of them a block, are what is on the tape of the machine. -/
structure Machine.Records (m : Machine F s) (ss : List (Statement F)) : Prop where
  owned : m.Owned
  reached : Reached (default : Library F) m.tape { statements := ss }
  plain : ∀ x ∈ ss, x.kind ≠ .block
  inputs : m.inputs = ss.flatMap Statement.registered

theorem Machine.records_start {settings : Settings} {v : Adjoints F} {t : Tape F s}
    (h : Tape.create settings v = .ok t) : (start t).Records [] where
  owned := owned_start (Tape.create_cases h).2.2.1
  reached := .create h
  plain _ hx := absurd hx List.not_mem_nil
  inputs := rfl

theorem Primitive.Step.records {m m' : Machine F s} {p : Primitive F} {name : Nat} {a : Variable F}
    {δ ss : List (Statement F)} (h : p.Step m m' name a δ) (hm : m.Records ss) :
    m'.Records (ss ++ δ) where
  owned := h.owned
  reached := h.reached hm.reached
  plain x hx := (List.mem_append.1 hx).elim (hm.plain x) (h.change.plain x)
  inputs := by rw [h.inputs, hm.inputs, List.flatMap_append]

namespace Machine.Records

variable {m : Machine F s} {ss : List (Statement F)}

theorem holds (h : m.Records ss) : m.tape.recording.Holds ss := h.reached.aligned.spells.holds

theorem exists_evaluateAll [Add F] [Mul F] [BEq F] (h : m.Records ss) (v : Adjoints F)
    (d : Direction) :
    ∃ w, (Tape.evaluateAll { m.tape with adjoints := v } d).Yields { m.tape with adjoints := w } ∧
      m.tape.largestIdentifier < w.size ∧ w.slot = Statement.effects d ss v.slot :=
  Tape.exists_evaluateAll (h.reached.setVector v).aligned h.plain d

theorem identifier_le (h : m.Records ss) {x : Nat} (hx : m.identifier x ≠ passive) :
    m.identifier x ≤ m.tape.largestIdentifier :=
  Nat.le_trans (h.owned.lent x hx).1 (Nat.le_max_left ..)

theorem largest_le (h : m.Records ss) {x : Statement F} (hx : x ∈ ss) :
    x.largest ≤ m.tape.largestIdentifier :=
  Nat.le_trans (h.reached.aligned.spells.largest x hx) (Nat.le_max_right ..)

theorem name_le (h : m.Records ss) {x : Statement F} (hx : x ∈ ss) {i : Nat} (hi : x.Names i) :
    i ≤ m.tape.largestIdentifier :=
  Nat.le_trans hi.le_largest (h.largest_le hx)

theorem input_le (h : m.Records ss) {i : Nat} (hi : i ∈ m.inputs) :
    i ≤ m.tape.largestIdentifier := by
  rw [h.inputs] at hi
  obtain ⟨x, hx, hregistered⟩ := List.mem_flatMap.1 hi
  exact h.name_le hx (Or.inr hregistered)

end Machine.Records

end Records

section

variable {F : Type} [Zero F] [One F] [Add F] [Sub F] [Mul F] [Div F] [Neg F] [IntCast F]
  [Elementary F] {s : Scheme}

theorem yields_runAll_cons {c : Command F} {cs : List (Command F)} {m m₁ m' : Machine F s}
    (hc : (c.run m).Yields m₁) (hcs : (runAll cs m₁).Yields m') :
    (runAll (c :: cs) m).Yields m' := by
  unfold runAll
  rw [List.foldlM_cons]
  exact hc.bind hcs

/-- `P` holds of every command of a program and of the machine on which it runs. -/
def Throughout (P : Command F → Machine F s → Prop) : List (Command F) → Machine F s → Prop
  | [], _ => True
  | c :: cs, m => P c m ∧ ∀ m₁, (c.run m).Yields m₁ → Throughout P cs m₁

theorem Throughout.imp {P Q : Command F → Machine F s → Prop} (hPQ : ∀ c m, P c m → Q c m)
    {cs : List (Command F)} {m : Machine F s} (h : Throughout P cs m) : Throughout Q cs m := by
  induction cs generalizing m with
  | nil => trivial
  | cons c cs ih => exact ⟨hPQ c m h.1, fun m₁ hm₁ => ih (h.2 m₁ hm₁)⟩

/-- Whether a property holds throughout, found out by running the program. -/
def Throughout.check (P : Command F → Machine F s → Prop) [∀ c m, Decidable (P c m)] :
    List (Command F) → Machine F s → Bool
  | [], _ => true
  | c :: cs, m => decide (P c m) &&
    match ((c.run m).outcome {}).1 with
    | .ok m₁ => check P cs m₁
    | .error _ => true

theorem throughout_of_check {P : Command F → Machine F s → Prop} [∀ c m, Decidable (P c m)]
    {cs : List (Command F)} {m : Machine F s} (h : Throughout.check P cs m = true) :
    Throughout P cs m := by
  induction cs generalizing m with
  | nil => trivial
  | cons c cs ih =>
    rw [Throughout.check, Bool.and_eq_true, decide_eq_true_iff] at h
    refine ⟨h.1, fun m₁ hm₁ => ih ?_⟩
    have hrest := h.2
    rw [hm₁ {}] at hrest
    exact hrest

theorem Primitive.Change.registered_eq {m : Machine F s} {c : Command F} {name : Nat}
    {a : Variable F} {δ : List (Statement F)} (h : (c.primitive m.value).Change m name a δ) :
    δ.flatMap Statement.registered = c.registered m := by
  cases c with
  | input name x => cases h <;> simp [Command.registered, Supply.next, Statement.registered, *]
  | unary | binary | unaryInto | binaryInto | apply | applyWith | copy | assign | constant
  | assignConstant | markOutput | release | setActive => cases h <;> rfl

/-! ## Paths -/

variable [FixedWidth F]

/-- The statements that a program records between two machines. -/
inductive Path : List (Command F) → Machine F s → List (Statement F) → Machine F s → Prop
  | nil {m : Machine F s} : Path [] m [] m
  | cons {c : Command F} {cs : List (Command F)} {m m₁ m' : Machine F s} {name : Nat}
      {a : Variable F} {δ δs : List (Statement F)} :
    (c.run m).Yields m₁ → (c.primitive m.value).Step m m₁ name a δ → Path cs m₁ δs m' →
    Path (c :: cs) m (δ ++ δs) m'

namespace Path

variable {cs : List (Command F)} {m m' : Machine F s} {δs : List (Statement F)}

theorem yields (h : Path cs m δs m') : (runAll cs m).Yields m' := by
  induction h with
  | nil => exact Run.yields_pure _
  | cons hyields _ _ ih => exact yields_runAll_cons hyields ih

theorem append_inv {before after : List (Command F)} (h : Path (before ++ after) m δs m') :
    ∃ m₁ δ₁ δ₂, δs = δ₁ ++ δ₂ ∧ Path before m δ₁ m₁ ∧ Path after m₁ δ₂ m' := by
  induction before generalizing m δs with
  | nil => exact ⟨m, [], δs, rfl, .nil, h⟩
  | cons c before ih =>
    cases h with
    | cons hyields hstep hpath =>
      obtain ⟨m₁, δ₁, δ₂, rfl, hbefore, hafter⟩ := ih hpath
      exact ⟨m₁, _ ++ δ₁, δ₂, (List.append_assoc ..).symm, .cons hyields hstep hbefore, hafter⟩

theorem owned (h : Path cs m δs m') (hm : m.Owned) : m'.Owned := by
  induction h with
  | nil => exact hm
  | cons _ hstep _ ih => exact ih hstep.owned

theorem inputs (h : Path cs m δs m') :
    m'.inputs = m.inputs ++ δs.flatMap Statement.registered := by
  induction h with
  | nil => exact (List.append_nil _).symm
  | cons _ hstep _ ih => rw [ih, hstep.inputs, List.flatMap_append, List.append_assoc]

theorem adjoints (h : Path cs m δs m') : m'.tape.adjoints = m.tape.adjoints := by
  induction h with
  | nil => rfl
  | cons _ hstep _ ih => rw [ih, hstep.adjoints]

end Path

/-! ### Programs that come to their end -/

/-- The identifiers do not run out while the program runs. -/
def Machine.Affords (m : Machine F s) (cs : List (Command F)) : Prop :=
  ¬(runAll cs m).Fails (.outOfIdentifiers s)

section Affords

variable {cs : List (Command F)} {m : Machine F s}

/-- A program whose operations fit comes to its end, or there are not enough identifiers for as many
commands. -/
theorem exists_path_or_fails (hcs : ∀ c ∈ cs, c.Fits) (hm : m.Owned) :
    (∃ δs m', Path cs m δs m') ∨ ((runAll cs m).Fails (.outOfIdentifiers s) ∧
      identifierLimit ≤ m.tape.supply.largest + cs.length) := by
  induction cs generalizing m with
  | nil => exact Or.inl ⟨[], m, .nil⟩
  | cons c cs ih =>
    have hrun := Command.run_eq (hcs c (List.mem_cons_self ..)) m
    simp only [runAll, List.foldlM_cons, List.length_cons]
    -- The command changes the variables, so it is run by what it comes to on this machine.
    rcases Primitive.ends hm (c.fits_primitive m.value) with
      ⟨m₁, name, a, δ, hyields, hstep⟩ | ⟨hexhausted, hfails⟩
    · rw [← hrun] at hyields
      have hlargest := hstep.largest
      rcases ih (fun c hc => hcs c (List.mem_cons_of_mem _ hc)) hstep.owned with
        ⟨δs, m', hpath⟩ | ⟨hfails, hle⟩
      · exact Or.inl ⟨δ ++ δs, m', .cons hyields hstep hpath⟩
      · exact Or.inr ⟨hyields.bind_fails hfails, by omega⟩
    · rw [← hrun] at hfails
      have hlargest := hexhausted.2
      exact Or.inr ⟨hfails.bind _, by omega⟩

theorem Machine.Affords.exists_path (h : m.Affords cs) (hcs : ∀ c ∈ cs, c.Fits) (hm : m.Owned) :
    ∃ δs m', Path cs m δs m' :=
  (exists_path_or_fails hcs hm).resolve_right fun hfails => h hfails.1

/-- Each command takes one identifier at most. -/
theorem Machine.affords_of_length (hcs : ∀ c ∈ cs, c.Fits) (hm : m.Owned)
    (hlength : m.tape.supply.largest + cs.length < identifierLimit) : m.Affords cs := by
  rcases exists_path_or_fails hcs hm with ⟨δs, m', hpath⟩ | ⟨-, hle⟩
  · exact hpath.yields.not_fails _
  · exact absurd hlength (Nat.not_lt.2 hle)

/-- On a new tape the identifiers last for any program that has fewer commands than there are of
them. -/
theorem Machine.affords_of_create {settings : Settings} {v : Adjoints F} {t : Tape F s}
    (h : Tape.create settings v = .ok t) (hcs : ∀ c ∈ cs, c.Fits)
    (hlength : cs.length < identifierLimit) : (start t).Affords cs := by
  have hsupply := (Tape.create_cases h).2.2.1
  refine affords_of_length hcs (owned_start hsupply) ?_
  show t.supply.largest + cs.length < identifierLimit
  rwa [hsupply, Supply.largest_fresh, Nat.zero_add]

end Affords

theorem Path.records {cs : List (Command F)} {m m' : Machine F s} {δs ss : List (Statement F)}
    (h : Path cs m δs m') (hm : m.Records ss) : m'.Records (ss ++ δs) := by
  induction h generalizing ss with
  | nil =>
    rw [List.append_nil]
    exact hm
  | cons _ hstep _ ih =>
    rw [← List.append_assoc]
    exact ih (hstep.records hm)

end

end Autodiff
