import Autodiff.Proofs.Program.Grounded
import Autodiff.Proofs.Program.Reuse

/-!
# Stale slots

What earlier sweeps left in a vector can be found in the slots of inputs alone.  A sweep in reverse
empties the slot of every target, and no statement before the first one that names an identifier
fills its slot again.  A forward sweep overwrites the slot of every target before a statement reads
it.  Only inputs have slots that no sweep writes on its own.
-/

namespace Autodiff

open Statement

/-! ## Names -/

namespace Statement

variable {F : Type} {x : Statement F} {i n : Nat}

theorem names_of_mem_defined (h : i ∈ x.defined) : x.Names i := by
  cases x with
  | input t => exact Or.inr h
  | normal t entries => exact Or.inl (Or.inl (List.mem_singleton.1 h).symm)
  | block token largest fixed dynamic => exact absurd h List.not_mem_nil

/-- A vector that has the slots which a statement names has all that the statement needs. -/
theorem largest_lt_of_names (hx : x.kind ≠ .block) (h : ∀ i, x.Names i → i < n) :
    x.largest < n := by
  cases x with
  | input t => exact h t (Or.inr (List.mem_singleton_self t))
  | block token largest fixed dynamic => exact absurd rfl hx
  | normal t entries =>
    have ht : t < n := h t (Or.inl (Or.inl rfl))
    have hentries : ∀ e ∈ entries, e.2 ≤ n - 1 := fun e he =>
      Nat.le_sub_one_of_lt (h e.2 (Or.inl (Or.inr ⟨e, he, rfl⟩)))
    have hlargest : entries.foldl (fun n e => max n e.2) t ≤ n - 1 :=
      (foldl_max_le_iff _ _ _ _).2 ⟨Nat.le_sub_one_of_lt ht, hentries⟩
    show (entries.map fun e => e.2).foldl max t < n
    rw [List.foldl_map]
    omega

end Statement

namespace Recording

variable {F : Type} {r : Recording F} {ss : List (Statement F)} {i : Nat}

/-- Some statement of the recording makes the identifier that of an input. -/
def Registers (r : Recording F) (i : Nat) : Prop := (i, .input) ∈ r.statements.toList

instance (r : Recording F) (i : Nat) : Decidable (r.Registers i) :=
  inferInstanceAs (Decidable (_ ∈ _))

theorem Holds.registers (h : r.Holds ss) (hi : i ∈ ss.flatMap registered) : r.Registers i := by
  obtain ⟨x, hx, hi⟩ := List.mem_flatMap.1 hi
  cases x with
  | input t =>
    rw [Registers, h.statements]
    exact List.mem_map.2 ⟨_, hx, by rw [List.mem_singleton.1 hi]; rfl⟩
  | normal t entries => exact absurd hi List.not_mem_nil
  | block token largest fixed dynamic => exact absurd hi List.not_mem_nil

/-- The vector has a slot for every identifier that the recording names. -/
def Covers (r : Recording F) (v : Adjoints F) : Prop := ∀ i, r.Names i → i < v.size

theorem Holds.largest_lt (h : r.Holds ss) (hplain : ∀ x ∈ ss, x.kind ≠ .block) {v : Adjoints F}
    (hv : r.Covers v) : ∀ x ∈ ss, x.largest < v.size := fun x hx =>
  largest_lt_of_names (hplain x hx) fun i hi => hv i (h.names hx hi)

end Recording

/-! ## Sweeps in reverse -/

namespace Statement

variable {F : Type} [Zero F] [Add F] [Mul F] [BEq F] {known : List Nat} {ss : List (Statement F)}
  {x : Statement F} {i : Nat}

/-- A target is no argument of the statement that first names it. -/
theorem effect_reverse_eq_zero (hi : x.Names i) (hinput : i ∉ x.registered)
    (hentries : ∀ e ∈ x.entries, e.2 ≠ i) (u : Nat → F) : x.effect .reverse u i = 0 := by
  cases x with
  | input t => exact absurd (hi.resolve_left id) hinput
  | block token largest fixed dynamic => exact absurd (hi.resolve_left id) hinput
  | normal t entries =>
    rcases hi.resolve_right hinput with rfl | ⟨e, he, heq⟩
    · show (if u t != 0 then scattered (u t) entries (Function.update u t 0)
        else Function.update u t 0) t = 0
      have hne : ∀ e ∈ entries, e.2 ≠ t := hentries
      split
      · rw [scattered_of_ne hne, Function.update_self]
      · rw [Function.update_self]
    · exact absurd heq (hentries e he)

theorem Grounded.effects_reverse_eq_zero (h : Grounded known ss) (hknown : i ∉ known)
    (hinput : i ∉ ss.flatMap registered) (hi : ∃ x ∈ ss, x.Names i) (u : Nat → F) :
    effects .reverse ss u i = 0 := by
  induction ss generalizing known with
  | nil =>
    obtain ⟨y, hy, -⟩ := hi
    exact absurd hy List.not_mem_nil
  | cons x ss ih =>
    rw [List.flatMap_cons, List.mem_append, not_or] at hinput
    rw [effects_reverse_cons]
    by_cases hx : x.Names i
    -- All arguments are known, so this is the target, whatever the statements behind left there.
    · exact effect_reverse_eq_zero hx hinput.1 (fun e he heq => hknown (heq ▸ h.1 e he)) _
    · have hrest : ∃ y ∈ ss, y.Names i := by
        obtain ⟨y, hy, hyi⟩ := hi
        rcases List.mem_cons.1 hy with rfl | hy
        · exact absurd hyi hx
        · exact ⟨y, hy, hyi⟩
      have hnew : i ∉ known ++ x.defined := fun hmem =>
        (List.mem_append.1 hmem).elim hknown fun hdefined => hx (names_of_mem_defined hdefined)
      rw [effect_of_not_assigns fun hassigns => hx (Or.inl hassigns)]
      exact ih h.2 hnew hinput.2 hrest

end Statement

/-- What sweeps in reverse over a recording make of the vector `v`: slots that it names are empty
unless they belong to inputs, and the others are as they were. -/
structure Recording.Empties {F : Type} [Zero F] (r : Recording F) (v w : Adjoints F) : Prop where
  grown : v.size ≤ w.size
  emptied : ∀ i, r.Names i → ¬r.Registers i → w[i]? = some 0
  kept : ∀ i, ¬r.Names i → w.slot i = v.slot i

theorem Recording.Empties.after {F : Type} [Zero F] {r : Recording F} {v v₁ w : Adjoints F}
    (h : r.Empties v₁ w) (hsize : v.size ≤ v₁.size)
    (hslot : ∀ i, ¬r.Names i → v₁.slot i = v.slot i) : r.Empties v w where
  grown := Nat.le_trans hsize h.grown
  emptied := h.emptied
  kept i hi := (h.kept i hi).trans (hslot i hi)

/-! ## Rounds -/

section Rounds

variable {F : Type} [Zero F] [One F] [FixedWidth F] {s : Scheme} {m : Machine F s}
  {ss : List (Statement F)}

/-- Seed the named variables one after another. -/
def Machine.seedAll (m : Machine F s) (seeds : List (Nat × F)) (t : Tape F s) :
    Except Fault (Tape F s) :=
  seeds.foldlM (fun t e => t.seedOf (m.variableOf e.1) e.2) t

/-- Seed variables and sweep the whole tape in reverse. -/
def Machine.round [Add F] [Mul F] [BEq F] (m : Machine F s) (seeds : List (Nat × F))
    (t : Tape F s) : Run (Tape F s) := do
  let t ← m.seedAll seeds t
  t.evaluateAll .reverse

omit [One F] [FixedWidth F] in
theorem Tape.exists_seedOf (t : Tape F s) (a : Variable F) (x : F) :
    ∃ v, t.seedOf a x = .ok { t with adjoints := v } ∧ t.adjoints.size ≤ v.size ∧
      ∀ i, (a.identifier ≠ passive → a.identifier ≠ i) → v.slot i = t.adjoints.slot i := by
  by_cases ha : a.identifier = passive
  · exact ⟨t.adjoints, by rw [seedOf, seed, if_pos ha]; rfl, Nat.le_refl _, fun i _ => rfl⟩
  · obtain ⟨v, hput, hsize, hslot⟩ := t.adjoints.exists_put_ensure a.identifier x
    refine ⟨v, ?_, ?_, fun i hi => ?_⟩
    · simp only [seedOf, seed, if_neg ha, hput]
      rfl
    · rw [hsize]
      exact t.adjoints.le_ensuredSize a.identifier
    · rw [hslot, Function.update_of_ne (hi ha).symm]

omit [One F] [FixedWidth F] in
theorem Machine.exists_seedAll (m : Machine F s) (seeds : List (Nat × F)) (v : Adjoints F) :
    ∃ w, m.seedAll seeds { m.tape with adjoints := v } = .ok { m.tape with adjoints := w } ∧
      v.size ≤ w.size ∧
      ∀ i, (∀ x, m.identifier x ≠ passive → m.identifier x ≠ i) → w.slot i = v.slot i := by
  induction seeds generalizing v with
  | nil => exact ⟨v, rfl, Nat.le_refl _, fun i _ => rfl⟩
  | cons e seeds ih =>
    obtain ⟨v₁, hseed, hsize, hslot⟩ :=
      Tape.exists_seedOf { m.tape with adjoints := v } (m.variableOf e.1) e.2
    obtain ⟨w, hseeds, hsize', hslot'⟩ := ih v₁
    refine ⟨w, ?_, Nat.le_trans hsize hsize', fun i hi => ?_⟩
    · rw [seedAll, List.foldlM_cons, hseed]
      exact hseeds
    · rw [hslot' i hi, hslot i (hi e.1)]

namespace Machine.Records

variable [Add F] [Mul F] [BEq F]

theorem exists_emptied (h : m.Records ss) (hgrounded : Grounded [] ss) (v : Adjoints F) :
    ∃ w, (Tape.evaluateAll { m.tape with adjoints := v } .reverse).Yields
        { m.tape with adjoints := w } ∧ m.tape.recording.Empties v w := by
  have haligned := (h.reached.setVector v).aligned
  have henough := Adjoints.lt_size_ensure v m.tape.largestIdentifier
  obtain ⟨w, hyields, hsize, hslot⟩ := Tape.exists_evaluate haligned h.plain .reverse .automatic
    fun x hx => Nat.lt_of_le_of_lt (h.largest_le hx) henough
  refine ⟨w, hyields, ?_, fun i hi hinput => ?_, fun i hi => ?_⟩
  · rw [hsize]
    exact Tape.size_le_prepare { m.tape with adjoints := v } .automatic
  · obtain ⟨x, hx, hxi⟩ := h.holds.exists_names hi
    have hlt : i < w.size := hsize ▸ Nat.lt_of_le_of_lt (h.name_le hx hxi) henough
    have hzero : w.slot i = 0 := by
      rw [hslot]
      exact hgrounded.effects_reverse_eq_zero List.not_mem_nil
        (fun hmem => hinput (h.holds.registers hmem)) ⟨x, hx, hxi⟩ _
    rw [Adjoints.getElem?_eq_slot hlt, hzero]
  · rw [hslot]
    exact effects_of_not_assigns (fun x hx hxi => hi (h.holds.names hx (Or.inl hxi))) _ _

theorem exists_round (h : m.Records ss) (hgrounded : Grounded [] ss)
    (hknown : m.Known (ss.flatMap defined)) (seeds : List (Nat × F)) (v : Adjoints F) :
    ∃ w, (m.round seeds { m.tape with adjoints := v }).Yields { m.tape with adjoints := w } ∧
      m.tape.recording.Empties v w := by
  obtain ⟨v₁, hseeds, hsize, hslot⟩ := m.exists_seedAll seeds v
  obtain ⟨w, hsweep, hempties⟩ := h.exists_emptied hgrounded v₁
  refine ⟨w, (Run.yields_liftM hseeds).bind hsweep, hempties.after hsize fun i hi => ?_⟩
  -- Seeds go to active variables, and the recording names the identifiers of all of them.
  refine hslot i fun x hx heq => hi ?_
  obtain ⟨y, hy, hdefined⟩ := List.mem_flatMap.1 (hknown x hx)
  exact heq ▸ h.holds.names hy (names_of_mem_defined hdefined)

/-- However many rounds there are, nothing but the slots of inputs is left filled. -/
theorem exists_rounds (h : m.Records ss) (hgrounded : Grounded [] ss)
    (hknown : m.Known (ss.flatMap defined)) (seeds : List (Nat × F))
    (rounds : List (List (Nat × F))) (v : Adjoints F) :
    ∃ w, ((seeds :: rounds).foldlM (fun t seeds => m.round seeds t)
        { m.tape with adjoints := v }).Yields { m.tape with adjoints := w } ∧
      m.tape.recording.Empties v w := by
  induction rounds generalizing seeds v with
  | nil =>
    obtain ⟨w, hyields, hempties⟩ := h.exists_round hgrounded hknown seeds v
    exact ⟨w, hyields.bind (Run.yields_pure _), hempties⟩
  | cons next rounds ih =>
    obtain ⟨v₁, hyields, hempties⟩ := h.exists_round hgrounded hknown seeds v
    obtain ⟨w, hrest, hempties'⟩ := ih next v₁
    exact ⟨w, hyields.bind hrest, hempties'.after hempties.grown hempties.kept⟩

end Machine.Records

end Rounds

/-! ## Forward sweeps -/

namespace Statement

variable {F : Type} [Zero F] [Add F] [Mul F] [BEq F] {known : List Nat} {ss : List (Statement F)}
  {x : Statement F} {i : Nat} {u u' : Nat → F}

/-- Only the slot of a new value may have been different before. -/
theorem effect_forward_congr (hentries : ∀ e ∈ x.entries, u e.2 = u' e.2)
    (hi : i ∉ x.defined ∨ i ∈ x.registered → u i = u' i) :
    x.effect .forward u i = x.effect .forward u' i := by
  cases x with
  | input t =>
    apply hi
    by_cases hmem : i ∈ [t]
    · exact Or.inr hmem
    · exact Or.inl hmem
  | block token largest fixed dynamic => exact hi (Or.inl List.not_mem_nil)
  | normal t entries =>
    show Function.update u t (gathered u entries 0) i =
      Function.update u' t (gathered u' entries 0) i
    have hsame : ∀ e ∈ entries, u e.2 = u' e.2 := hentries
    rw [gathered_congr hsame, Function.update_apply, Function.update_apply]
    split
    · rfl
    · next hne => exact hi (Or.inl fun hmem => hne (List.mem_singleton.1 hmem))

theorem Grounded.effects_forward_congr (h : Grounded known ss) (hknown : ∀ i ∈ known, u i = u' i)
    (hinput : ∀ i ∈ ss.flatMap registered, u i = u' i) :
    ∀ i ∈ known ++ ss.flatMap defined, effects .forward ss u i = effects .forward ss u' i := by
  induction ss generalizing known u u' with
  | nil =>
    rw [List.flatMap_nil, List.append_nil]
    simpa only [effects_nil] using hknown
  | cons x ss ih =>
    have hentries : ∀ e ∈ x.entries, u e.2 = u' e.2 := fun e he => hknown e.2 (h.1 e he)
    have hhere : ∀ i ∈ x.registered, u i = u' i := fun i hi =>
      hinput i (List.mem_append_left _ hi)
    have hlater : ∀ i ∈ ss.flatMap registered, u i = u' i := fun i hi =>
      hinput i (List.mem_append_right _ hi)
    rw [List.flatMap_cons, ← List.append_assoc]
    apply ih h.2
    · intro i hi
      refine effect_forward_congr hentries fun hold => ?_
      rcases List.mem_append.1 hi with hmem | hmem
      · exact hknown i hmem
      · exact hhere i (hold.resolve_left (not_not_intro hmem))
    -- Inputs that are still to come keep what they have until then.
    · exact fun i hi => effect_forward_congr hentries fun _ => hlater i hi

end Statement

/-- Both vectors have the slots that the recording names, and the same in each of them. -/
def Recording.Agrees {F : Type} (r : Recording F) (w w' : Adjoints F) : Prop :=
  ∀ i, r.Names i → ∃ y, w[i]? = some y ∧ w'[i]? = some y

section Sweeps

variable {F : Type} [Zero F] [One F] [Add F] [Mul F] [BEq F] [FixedWidth F] {s : Scheme}

namespace Machine.Records

variable {m : Machine F s} {ss : List (Statement F)} {v v' w w' : Adjoints F}

/-- What forward sweeps leave in two vectors that have the same in the slots of inputs. -/
theorem agrees_swept (h : m.Records ss) (hgrounded : Grounded [] ss)
    (hv : m.tape.recording.Covers v) (hv' : m.tape.recording.Covers v')
    (hinput : ∀ i, m.tape.recording.Registers i → v[i]? = v'[i]?) (hsize : v.size ≤ w.size)
    (hsize' : v'.size ≤ w'.size) (hslot : w.slot = effects .forward ss v.slot)
    (hslot' : w'.slot = effects .forward ss v'.slot) : m.tape.recording.Agrees w w' := by
  have hinputs : ∀ i ∈ ss.flatMap registered, v.slot i = v'.slot i := by
    intro i hi
    rw [Adjoints.slot, Adjoints.slot, Array.getD_eq_getD_getElem?, Array.getD_eq_getD_getElem?,
      hinput i (h.holds.registers hi)]
  intro i hi
  obtain ⟨x, hx, hxi⟩ := h.holds.exists_names hi
  have hsame : w.slot i = w'.slot i := by
    rw [hslot, hslot']
    exact hgrounded.effects_forward_congr (fun i hi => absurd hi List.not_mem_nil) hinputs i
      (hgrounded.mem_of_names hx hxi)
  refine ⟨w.slot i, Adjoints.getElem?_eq_slot (Nat.lt_of_lt_of_le (hv i hi) hsize), ?_⟩
  rw [hsame]
  exact Adjoints.getElem?_eq_slot (Nat.lt_of_lt_of_le (hv' i hi) hsize')

theorem exists_agreeing_with (h : m.Records ss) (hgrounded : Grounded [] ss)
    (hv : m.tape.recording.Covers v) (hv' : m.tape.recording.Covers v')
    (hinput : ∀ i, m.tape.recording.Registers i → v[i]? = v'[i]?) :
    ∃ w w', (m.tape.evaluateWith .forward .zero m.tape.position v).Yields w ∧
      (m.tape.evaluateWith .forward .zero m.tape.position v').Yields w' ∧
      m.tape.recording.Agrees w w' := by
  have hlt := h.holds.largest_lt h.plain hv
  have hlt' := h.holds.largest_lt h.plain hv'
  obtain ⟨w, hyields, hsize, hslot⟩ :=
    Tape.exists_evaluateWith h.reached.aligned h.plain .forward hlt
  obtain ⟨w', hyields', hsize', hslot'⟩ :=
    Tape.exists_evaluateWith h.reached.aligned h.plain .forward hlt'
  exact ⟨w, w', hyields, hyields', h.agrees_swept hgrounded hv hv' hinput (Nat.le_of_eq hsize.symm)
    (Nat.le_of_eq hsize'.symm) hslot hslot'⟩

theorem exists_evaluated (h : m.Records ss) (hv : m.tape.recording.Covers v)
    (management : Management) :
    ∃ w, (Tape.evaluate { m.tape with adjoints := v } .forward .zero m.tape.position
        management).Yields { m.tape with adjoints := w } ∧ v.size ≤ w.size ∧
      w.slot = effects .forward ss v.slot := by
  have haligned := (h.reached.setVector v).aligned
  have hprepare := Tape.size_le_prepare { m.tape with adjoints := v } management
  obtain ⟨w, hyields, hsize, hslot⟩ := Tape.exists_evaluate haligned h.plain .forward management
    fun x hx => Nat.lt_of_lt_of_le (h.holds.largest_lt h.plain hv x hx) hprepare
  exact ⟨w, hyields, hsize ▸ hprepare, hslot⟩

end Machine.Records

end Sweeps

/-! ## Programs -/

section Program

variable {F : Type} [One F] {s : Scheme}

theorem Primitive.Change.defined_ne_passive {m : Machine F s} {p : Primitive F} {name : Nat}
    {a : Variable F} {δ : List (Statement F)} (h : p.Change m name a δ) :
    ∀ i ∈ δ.flatMap defined, i ≠ passive := by
  intro i hi
  cases h with
  | input _ _ hne => exact List.mem_singleton.1 hi ▸ hne
  | store _ _ hne => exact List.mem_singleton.1 hi ▸ hne
  | output _ _ hne => exact List.mem_singleton.1 hi ▸ hne
  | passiveInput | passiveStore | drop | passiveOutput | setActive =>
    exact absurd hi List.not_mem_nil

variable [Zero F] [Add F] [Sub F] [Mul F] [Div F] [Neg F] [IntCast F] [Elementary F]
  [FixedWidth F] {cs : List (Command F)}

theorem Path.defined_ne_passive {m m' : Machine F s} {δs : List (Statement F)}
    (h : Path cs m δs m') : ∀ i ∈ δs.flatMap defined, i ≠ passive := by
  induction h with
  | nil => exact fun i hi => absurd hi List.not_mem_nil
  | cons _ hstep _ ih =>
    intro i hi
    rw [List.flatMap_append] at hi
    rcases List.mem_append.1 hi with hi | hi
    · exact hstep.change.defined_ne_passive i hi
    · exact ih i hi

/-- A program for which the identifiers of a new tape last comes to its end, and records nothing
about the passive identifier. -/
theorem exists_recorded {c : Settings} {u : Adjoints F} {t : Tape F s}
    (ht : Tape.create c u = .ok t) (hcs : ∀ c ∈ cs, c.Fits)
    (hids : (Machine.start t).Affords cs) :
    ∃ (ss : List (Statement F)) (m : Machine F s), (runAll cs (.start t)).Yields m ∧
      m.Records ss ∧ Grounded [] ss ∧ m.Known (ss.flatMap defined) ∧
      ¬m.tape.recording.Names passive := by
  have hstart := Machine.records_start ht
  obtain ⟨ss, m, hpath⟩ := hids.exists_path hcs hstart.owned
  have hrecords := hpath.records hstart
  obtain ⟨hgrounded, hknown⟩ := hpath.grounded (Machine.known_start t)
  refine ⟨ss, m, hpath.yields, hrecords, hgrounded, hknown, fun hnames => ?_⟩
  obtain ⟨x, hx, hi⟩ := hrecords.holds.exists_names hnames
  exact hpath.defined_ne_passive passive (hgrounded.mem_of_names hx hi) rfl

variable [BEq F]

/-- A program for which the identifiers last comes to its end on a new tape.  A sweep in reverse
over all that it recorded empties every slot that the recording names but those of inputs, whatever
the vector held, and leaves every other slot alone.  So do any number of rounds in which variables
are seeded before the sweep: what they leave for the next one is in the slots of inputs only. -/
theorem reverse_sweeps_fill_input_slots_only {c : Settings} {u : Adjoints F} {t : Tape F s}
    (ht : Tape.create c u = .ok t) (hcs : ∀ c ∈ cs, c.Fits)
    (hids : (Machine.start t).Affords cs) :
    ∃ m : Machine F s, (runAll cs (.start t)).Yields m ∧ ¬m.tape.recording.Names passive ∧
      ∀ v : Adjoints F,
        (∃ w, (Tape.evaluateAll { m.tape with adjoints := v } .reverse).Yields
            { m.tape with adjoints := w } ∧ m.tape.recording.Empties v w) ∧
        ∀ (seeds : List (Nat × F)) (rounds : List (List (Nat × F))),
          ∃ w, ((seeds :: rounds).foldlM (fun t seeds => m.round seeds t)
              { m.tape with adjoints := v }).Yields { m.tape with adjoints := w } ∧
            m.tape.recording.Empties v w := by
  obtain ⟨ss, m, hyields, hrecords, hgrounded, hknown, hpassive⟩ := exists_recorded ht hcs hids
  exact ⟨m, hyields, hpassive, fun v => ⟨hrecords.exists_emptied hgrounded v,
    fun seeds rounds => hrecords.exists_rounds hgrounded hknown seeds rounds v⟩⟩

/-- The product on a new tape that uses identifiers again: both assignments have the target 3. -/
theorem exists_tape_twice : ∃ t : Tape Int .reuse,
    Tape.create ⟨2, 1, 1, 1, 3, true⟩ #[] = .ok t ∧
    ∀ m, (runAll product (.start t)).Yields m →
      m.tape.recording.Names 3 ∧ m.tape.recording.Covers #[0, 0, 0, 0] ∧
      ∀ i, m.tape.recording.Registers i → i = 1 ∨ i = 2 := by
  have hrun : ∃ t : Tape Int .reuse, Tape.create ⟨2, 1, 1, 1, 3, true⟩ #[] = .ok t ∧
      ((runAll product (.start t)).outcome {}).1.map (fun m =>
        (m.tape.recording.statements.toList, m.tape.recording.partials.toList)) =
        .ok ([(1, .input), (2, .input), (3, .normal 1), (3, .normal 2)],
          [(-1, 1), (7, 1), (5, 2)]) :=
    ⟨_, rfl, by decide +kernel⟩
  obtain ⟨t, hcreate, hrun⟩ := hrun
  refine ⟨t, hcreate, fun m hm => ?_⟩
  rw [hm {}] at hrun
  obtain ⟨hstatements, hpartials⟩ := Prod.mk.inj (Except.ok.inj hrun)
  unfold Recording.Covers Recording.Names Recording.Assigns Recording.Registers
  rw [hstatements, hpartials]
  refine ⟨by decide, fun i hi => ?_, fun i hi => by simpa using hi⟩
  rcases hi with (⟨item, hitem, rfl, -⟩ | ⟨e, he, rfl⟩) | hinput
  · revert item
    decide
  · revert e
    decide
  · have hone : i = 1 ∨ i = 2 := by simpa using hinput
    rcases hone with rfl | rfl <;> decide

/-- The result is seeded twice without clearing anything in between. -/
theorem reverse_sweeps_fill_input_slots_only_of_product :
    ∃ (t : Tape Int .reuse) (m : Machine Int .reuse) (w w' : Adjoints Int),
      Tape.create ⟨2, 1, 1, 1, 3, true⟩ #[] = .ok t ∧ (∀ c ∈ product, c.Fits) ∧
      (runAll product (.start t)).Yields m ∧
      (Tape.evaluateAll { m.tape with adjoints := #[9, 8, 7, 6, 5] } .reverse).Yields
        { m.tape with adjoints := w } ∧ w[3]? = some 0 ∧ w.slot 0 = 9 ∧
      ([[(3, 1)], [(3, 1)]].foldlM (fun t seeds => m.round seeds t)
        { m.tape with adjoints := #[9, 8, 7, 6, 5] }).Yields { m.tape with adjoints := w' } ∧
      w'[3]? = some 0 ∧ w'.slot 0 = 9 := by
  obtain ⟨t, hcreate, hrun⟩ := exists_tape_twice
  have hfits : ∀ c ∈ product, c.Fits := by
    simp [product, Command.Fits, Operation.isBinary]
  obtain ⟨m, hm, hpassive, hall⟩ := reverse_sweeps_fill_input_slots_only hcreate hfits
    (Machine.affords_of_create hcreate hfits (by decide))
  obtain ⟨hnames, -, hinputs⟩ := hrun m hm
  have hinput : ¬m.tape.recording.Registers 3 := fun h => absurd (hinputs 3 h) (by decide)
  obtain ⟨⟨w, hsweep, hempties⟩, hrounds⟩ := hall #[9, 8, 7, 6, 5]
  obtain ⟨w', hsweeps, hempties'⟩ := hrounds [(3, 1)] [[(3, 1)]]
  exact ⟨t, m, w, w', hcreate, hfits, hm, hsweep, hempties.emptied 3 hnames hinput,
    hempties.kept 0 hpassive, hsweeps, hempties'.emptied 3 hnames hinput, hempties'.kept 0 hpassive⟩

/-- A program for which the identifiers last comes to its end on a new tape.  A forward sweep over
all that it recorded leaves the same in every slot that the recording names for any two vectors that
have these slots and hold the same in those of inputs, be they vectors of the caller's or of the
tape's. -/
theorem forward_sweeps_ignore_stale_slots {c : Settings} {u : Adjoints F} {t : Tape F s}
    (ht : Tape.create c u = .ok t) (hcs : ∀ c ∈ cs, c.Fits)
    (hids : (Machine.start t).Affords cs) :
    ∃ m : Machine F s, (runAll cs (.start t)).Yields m ∧
      ∀ v v' : Adjoints F, m.tape.recording.Covers v → m.tape.recording.Covers v' →
        (∀ i, m.tape.recording.Registers i → v[i]? = v'[i]?) →
        (∃ w w', (m.tape.evaluateWith .forward .zero m.tape.position v).Yields w ∧
          (m.tape.evaluateWith .forward .zero m.tape.position v').Yields w' ∧
          m.tape.recording.Agrees w w') ∧
        ∀ management, ∃ w w',
          (Tape.evaluate { m.tape with adjoints := v } .forward .zero m.tape.position
            management).Yields { m.tape with adjoints := w } ∧
          (Tape.evaluate { m.tape with adjoints := v' } .forward .zero m.tape.position
            management).Yields { m.tape with adjoints := w' } ∧
          m.tape.recording.Agrees w w' := by
  obtain ⟨ss, m, hyields, hrecords, hgrounded, -, -⟩ := exists_recorded ht hcs hids
  refine ⟨m, hyields, fun v v' hv hv' hinput => ?_⟩
  refine ⟨hrecords.exists_agreeing_with hgrounded hv hv' hinput, fun management => ?_⟩
  obtain ⟨w, hsweep, hsize, hslot⟩ := hrecords.exists_evaluated hv management
  obtain ⟨w', hsweep', hsize', hslot'⟩ := hrecords.exists_evaluated hv' management
  exact ⟨w, w', hsweep, hsweep',
    hrecords.agrees_swept hgrounded hv hv' hinput hsize hsize' hslot hslot'⟩

/-- Two vectors that have the same in the slots 1 and 2. -/
theorem forward_sweeps_ignore_stale_slots_of_product :
    ∃ (t : Tape Int .reuse) (m : Machine Int .reuse) (w w' : Adjoints Int) (y : Int),
      Tape.create ⟨2, 1, 1, 1, 3, true⟩ #[] = .ok t ∧ (∀ c ∈ product, c.Fits) ∧
      (runAll product (.start t)).Yields m ∧
      m.tape.recording.Covers #[9, 1, 0, 6] ∧ m.tape.recording.Covers #[4, 1, 0, 2] ∧
      (∀ i, m.tape.recording.Registers i →
        (#[9, 1, 0, 6] : Adjoints Int)[i]? = (#[4, 1, 0, 2] : Adjoints Int)[i]?) ∧
      (m.tape.evaluateWith .forward .zero m.tape.position #[9, 1, 0, 6]).Yields w ∧
      (m.tape.evaluateWith .forward .zero m.tape.position #[4, 1, 0, 2]).Yields w' ∧
      w[3]? = some y ∧ w'[3]? = some y := by
  obtain ⟨t, hcreate, hrun⟩ := exists_tape_twice
  have hfits : ∀ c ∈ product, c.Fits := by
    simp [product, Command.Fits, Operation.isBinary]
  obtain ⟨m, hm, hall⟩ := forward_sweeps_ignore_stale_slots hcreate hfits
    (Machine.affords_of_create hcreate hfits (by decide))
  obtain ⟨hnames, hcovers, hinputs⟩ := hrun m hm
  have hinput : ∀ i, m.tape.recording.Registers i →
      (#[9, 1, 0, 6] : Adjoints Int)[i]? = (#[4, 1, 0, 2] : Adjoints Int)[i]? := by
    intro i hi
    rcases hinputs i hi with rfl | rfl <;> rfl
  obtain ⟨⟨w, w', hsweep, hsweep', hagrees⟩, -⟩ :=
    hall #[9, 1, 0, 6] #[4, 1, 0, 2] hcovers hcovers hinput
  obtain ⟨y, hy, hy'⟩ := hagrees 3 hnames
  exact ⟨t, m, w, w', y, hcreate, hfits, hm, hcovers, hcovers, hinput, hsweep, hsweep', hy, hy'⟩

end Program

end Autodiff
