import Autodiff.Proofs.Program.Command
import Autodiff.Proofs.Tape.Erasing

/-!
# Ownership of identifiers

An identifier that is out belongs to at most one variable, so what a program gives back is never
refused and what it is given belongs to nobody else.  A command whose operation fits therefore comes
to its end unless no identifier is left for it.  It changes one variable and records at most one
statement.
-/

namespace Autodiff

/-! ## What a supply has given out -/

namespace Supply

variable {s : Scheme}

/-- The identifier was issued and not taken back. -/
def Lent (supply : Supply s) (i : Nat) : Prop := i ≤ supply.largest ∧ i ∉ supply.unused

/-- What lies in stock was issued before, once, and there are identifiers for all that was. -/
structure Sound (supply : Supply s) : Prop where
  unused : ∀ i ∈ supply.unused, i ≠ passive ∧ i ≤ supply.largest
  nodup : supply.unused.Nodup
  bounded : supply.largest < identifierLimit

theorem sound_fresh (s : Scheme) : (fresh s).Sound := by
  refine ⟨by simp, by simp, ?_⟩
  rw [largest_fresh]
  decide

theorem generate_spec {supply supply' : Supply s} {i : Nat} (h : supply.Sound)
    (hg : supply.generate = .ok (i, supply')) :
    i ≠ passive ∧ ¬supply.Lent i ∧ supply'.Sound ∧
      ∀ k, supply'.Lent k ↔ supply.Lent k ∨ k = i := by
  obtain ⟨hunused, hnodup, hbounded⟩ := h
  rcases generate_cases hg with ⟨hnone, rfl, hlt, hlargest, hnone'⟩ | ⟨hstock, hlargest⟩
  -- Nothing is in stock, so the supply counts on.
  · refine ⟨Nat.succ_ne_zero _, fun hlent => Nat.not_succ_le_self _ hlent.1,
      ⟨by simp [hnone'], by simp [hnone'], hlargest ▸ hlt⟩, fun k => ?_⟩
    simp only [Lent, hnone, hnone', hlargest, List.not_mem_nil, not_false_eq_true, and_true]
    omega
  -- What is handed out was in stock once and is not there any more.
  · rw [hstock] at hunused hnodup
    obtain ⟨hfirst, hle⟩ := hunused i (List.mem_cons_self ..)
    obtain ⟨hnot, hrest⟩ := List.nodup_cons.1 hnodup
    refine ⟨hfirst, fun hlent => hlent.2 (hstock ▸ List.mem_cons_self ..),
      ⟨fun k hk => hlargest ▸ hunused k (List.mem_cons_of_mem _ hk), hrest, hlargest ▸ hbounded⟩,
      fun k => ?_⟩
    simp only [Lent, hlargest, hstock, List.mem_cons, not_or]
    constructor
    · rintro ⟨hk, hmem⟩
      by_cases heq : k = i
      · exact Or.inr heq
      · exact Or.inl ⟨hk, heq, hmem⟩
    · rintro (⟨hk, -, hmem⟩ | rfl)
      · exact ⟨hk, hmem⟩
      · exact ⟨hle, hnot⟩

theorem release_passive (supply : Supply s) : supply.release passive = .ok supply := by
  cases supply with
  | linear count => rfl
  | reuse largest unused => simp [release]

theorem release_spec {supply : Supply s} (h : supply.Sound) {i : Nat} (hi : supply.Lent i) :
    ∃ supply', supply.release i = .ok supply' ∧ supply'.Sound ∧
      ∀ k, k ≠ i → (supply'.Lent k ↔ supply.Lent k) := by
  cases supply with
  | linear count => exact ⟨.linear count, rfl, h, fun k _ => Iff.rfl⟩
  | reuse largest unused =>
    obtain ⟨hle, hnot⟩ := hi
    by_cases hpassive : i = passive
    · rw [hpassive, release_passive]
      exact ⟨_, rfl, h, fun k _ => Iff.rfl⟩
    -- Being out is what all three refusals of a reusing supply are checked against.
    · refine ⟨.reuse largest (i :: unused), ?_, ⟨fun k hk => ?_, ?_, h.bounded⟩, fun k hk => ?_⟩
      · have hlt : ¬largest < i := Nat.not_lt.2 hle
        have hmem : i ∉ unused := hnot
        simp only [release, if_neg hpassive, if_neg hlt, if_neg hmem]
      · rcases List.mem_cons.1 hk with rfl | hk
        · exact ⟨hpassive, hle⟩
        · exact h.unused k hk
      · exact List.nodup_cons.2 ⟨hnot, h.nodup⟩
      · simp [Lent, Supply.largest, Supply.unused, hk]

theorem claim_spec {supply supply' : Supply s} {old i : Nat} (h : supply.Sound)
    (hold : old = passive ∨ supply.Lent old) (hc : supply.claim old = .ok (i, supply')) :
    i ≠ passive ∧ (i = old ∨ ¬supply.Lent i) ∧ supply'.Sound ∧
      ∀ k, supply'.Lent k ↔ supply.Lent k ∨ k = i := by
  rcases claim_cases hc with hg | ⟨-, hne, rfl, rfl⟩
  · obtain ⟨hne, hnot, hsound, hlent⟩ := generate_spec h hg
    exact ⟨hne, Or.inr hnot, hsound, hlent⟩
  -- A live identifier is kept; only the passive one is replaced by a new one.
  · have hlent := hold.resolve_left hne
    refine ⟨hne, Or.inl rfl, h, fun k => ⟨Or.inl, ?_⟩⟩
    rintro (hk | rfl)
    · exact hk
    · exact hlent

end Supply

/-! ## What a tape records -/

namespace Tape

variable {F : Type} [Zero F] [One F] [FixedWidth F] {s : Scheme} {t : Tape F s}

/-- `t'` is the tape `t` with one more statement and another supply. -/
structure Grows (t t' : Tape F s) (supply : Supply s) (x : Statement F) : Prop where
  supply : t'.supply = supply
  active : t'.active = t.active
  adjoints : t'.adjoints = t.adjoints
  reached : ∀ {lib : Library F} {h : History F}, Reached lib t h → Reached lib t' (h.extend [x])

theorem exists_registerInput (hactive : t.active = true) {i : Nat} {supply : Supply s}
    (hg : t.supply.generate = .ok (i, supply)) :
    ∃ t', t.registerInput.Yields (i, t') ∧ t.Grows t' supply (.input i) := by
  have houtcome := outcome_registerInput_active hactive
  rw [hg] at houtcome
  refine ⟨_, fun j => congrArg Prod.fst (houtcome j), ⟨rfl, rfl, rfl, fun hr => ?_⟩⟩
  have hreached := hr.step (.registerInput (houtcome {}))
  rw [newInput, if_pos hactive] at hreached
  exact hreached

omit [Zero F] [One F] [FixedWidth F] in
theorem fails_registerInput (hactive : t.active = true) {e : Fault}
    (hg : t.supply.generate = .error e) : t.registerInput.Fails e := by
  intro j
  rw [outcome_registerInput_active hactive, hg]
  rfl

variable {arguments entries : List (F × Nat)} {target : Nat}

theorem exists_store (hactive : t.active = true)
    (hentries : (arguments.filter fun e => e.2 != passive) = entries) (hne : entries ≠ [])
    (hle : entries.length ≤ maxArguments) {i : Nat} {supply : Supply s}
    (hc : t.supply.claim target = .ok (i, supply)) :
    ∃ t', (t.store target arguments).Yields (i, t') ∧ t.Grows t' supply (.normal i entries) := by
  have houtcome := outcome_store_active hactive hentries hne hle target
  rw [hc] at houtcome
  refine ⟨_, fun j => congrArg Prod.fst (houtcome j), ⟨rfl, rfl, rfl, fun hr => ?_⟩⟩
  have hreached := hr.step (.store (houtcome {}))
  have hguard : (!t.active || entries.isEmpty) = false := by
    rw [hactive, List.isEmpty_eq_false_iff.2 hne]
    rfl
  simp only [newAssignment, hentries, hguard, Bool.false_eq_true, ↓reduceIte] at hreached
  exact hreached

omit [Zero F] [One F] [FixedWidth F] in
theorem fails_store (hactive : t.active = true)
    (hentries : (arguments.filter fun e => e.2 != passive) = entries) (hne : entries ≠ [])
    (hle : entries.length ≤ maxArguments) {e : Fault} (hc : t.supply.claim target = .error e) :
    (t.store target arguments).Fails e := by
  intro j
  rw [outcome_store_active hactive hentries hne hle, hc]
  rfl

end Tape

/-! ## What a machine owns -/

/-- Active variables have identifiers that are out, each its own. -/
structure Machine.Owned {F : Type} {s : Scheme} (m : Machine F s) : Prop where
  sound : m.tape.supply.Sound
  lent : ∀ x, m.identifier x ≠ passive → m.tape.supply.Lent (m.identifier x)
  distinct : ∀ x y, m.identifier x = m.identifier y → m.identifier x ≠ passive → x = y

namespace Machine

variable {F : Type} {s : Scheme} {m : Machine F s}

theorem owned_start [Zero F] {t : Tape F s} (h : t.supply = .fresh s) : (start t).Owned where
  sound := by
    show t.supply.Sound
    rw [h]
    exact Supply.sound_fresh s
  lent x hx := absurd rfl hx
  distinct x y _ hx := absurd rfl hx

theorem Owned.bind (h : m.Owned) {name : Nat} {a : Variable F} {t : Tape F s}
    (hsound : t.supply.Sound)
    (hothers : ∀ y, y ≠ name → m.identifier y ≠ passive → t.supply.Lent (m.identifier y))
    (ha : a.identifier ≠ passive →
      t.supply.Lent a.identifier ∧ ∀ y, y ≠ name → m.identifier y ≠ a.identifier) :
    (m.bind name a t).Owned := by
  refine ⟨hsound, fun x hx => ?_, fun x y hxy hx => ?_⟩
  · by_cases hname : x = name
    · rw [hname, identifier_bind_self] at hx ⊢
      exact (ha hx).1
    · rw [identifier_bind_of_ne m hname] at hx ⊢
      exact hothers x hname hx
  · by_cases hxname : x = name <;> by_cases hyname : y = name
    · rw [hxname, hyname]
    -- In the mixed cases the new variable would share the identifier of another one.
    · rw [hxname, identifier_bind_self] at hxy hx
      rw [identifier_bind_of_ne m hyname] at hxy
      exact absurd hxy.symm ((ha hx).2 y hyname)
    · rw [hyname, identifier_bind_self, identifier_bind_of_ne m hxname] at hxy
      rw [identifier_bind_of_ne m hxname] at hx
      exact absurd hxy ((ha (hxy ▸ hx)).2 x hxname)
    · rw [identifier_bind_of_ne m hxname, identifier_bind_of_ne m hyname] at hxy
      rw [identifier_bind_of_ne m hxname] at hx
      exact h.distinct x y hxy hx

/-- A new identifier is nobody's. -/
theorem Owned.ne_of_not_lent (h : m.Owned) {i : Nat} (hi : i ≠ passive)
    (hnot : ¬m.tape.supply.Lent i) (y : Nat) : m.identifier y ≠ i := by
  intro heq
  apply hnot
  rw [← heq] at hi ⊢
  exact h.lent y hi

/-- An identifier that was the variable's own before or nobody's is not that of another one. -/
theorem Owned.ne_target (h : m.Owned) {name i : Nat} (hi : i ≠ passive)
    (hwhose : i = m.identifier name ∨ ¬m.tape.supply.Lent i) {y : Nat} (hy : y ≠ name) :
    m.identifier y ≠ i := by
  rcases hwhose with heq | hnot
  · intro hsame
    exact hy (h.distinct y name (hsame.trans heq) (hsame ▸ hi))
  · exact h.ne_of_not_lent hi hnot y

theorem Owned.bind_constant [Zero F] (h : m.Owned) {name : Nat} {x : F} {t : Tape F s}
    (hsound : t.supply.Sound)
    (hothers : ∀ y, y ≠ name → m.identifier y ≠ passive → t.supply.Lent (m.identifier y)) :
    (m.bind name (.constant x) t).Owned :=
  h.bind hsound hothers fun hne => absurd rfl hne

/-- The variable comes out with an identifier that is out from now on, and that was its own before
or nobody's. -/
theorem Owned.bind_issued (h : m.Owned) {name i : Nat} {x : F} {t : Tape F s} (hi : i ≠ passive)
    (hwhose : i = m.identifier name ∨ ¬m.tape.supply.Lent i) (hsound : t.supply.Sound)
    (hlent : ∀ k, t.supply.Lent k ↔ m.tape.supply.Lent k ∨ k = i) :
    (m.bind name ⟨x, i⟩ t).Owned := by
  apply h.bind hsound
  · intro y _ hy
    exact (hlent _).2 (Or.inl (h.lent y hy))
  · intro _
    exact ⟨(hlent _).2 (Or.inr rfl), fun y hy => h.ne_target hi hwhose hy⟩

end Machine

/-! ## What a command changes -/

/-- The identifier of a statement that registers an input. -/
def Statement.registered {F : Type} : Statement F → List Nat
  | .input t => [t]
  | _ => []

namespace Primitive

variable {F : Type} {s : Scheme}

/-- Whether the tape is active behind a command. -/
def activity (active : Bool) : Primitive F → Bool
  | setActive active => active
  | _ => active

/-- There are not too many operands for a statement. -/
def Fits : Primitive F → Prop
  | store _ _ _ operands => operands.length ≤ maxArguments
  | _ => True

/-- The operands that have an identifier. -/
def entries (m : Machine F s) (operands : List (F × Nat)) : List (F × Nat) :=
  (arguments m operands).filter fun e => e.2 != passive

theorem entries_eq_map (m : Machine F s) (operands : List (F × Nat)) :
    entries m operands = (operands.filter fun e => m.identifier e.2 != passive).map fun e =>
      (e.1, m.identifier e.2) := by
  rw [entries, arguments, List.filter_map]
  rfl

theorem entries_cons_passive {m : Machine F s} {e : F × Nat} (h : m.identifier e.2 = passive)
    (operands : List (F × Nat)) : entries m (e :: operands) = entries m operands := by
  simp [entries, arguments, h]

theorem entries_cons_active {m : Machine F s} {e : F × Nat} (h : m.identifier e.2 ≠ passive)
    (operands : List (F × Nat)) :
    entries m (e :: operands) = (e.1, m.identifier e.2) :: entries m operands := by
  simp [entries, arguments, h]

theorem mem_entries {m : Machine F s} {operands : List (F × Nat)} {e : F × Nat} :
    e ∈ entries m operands ↔
      ∃ o ∈ operands, m.identifier o.2 ≠ passive ∧ (o.1, m.identifier o.2) = e := by
  rw [entries_eq_map]
  simp only [List.mem_map, List.mem_filter, bne_iff_ne, and_assoc]

/-- Which variable a command changes, what it becomes, and what is recorded. -/
inductive Change [One F] (m : Machine F s) :
    Primitive F → Nat → Variable F → List (Statement F) → Prop
  | input {name i : Nat} {x : F} {supply : Supply s} : m.tape.active = true →
    m.tape.supply.generate = .ok (i, supply) → i ≠ passive → ¬m.tape.supply.Lent i →
    Change m (.input name x) name ⟨x, i⟩ [.input i]
  | passiveInput {name : Nat} {x : F} : m.tape.active = false →
    Change m (.input name x) name (.constant x) []
  | store {name i : Nat} {x : F} {overwrites : Bool} {operands : List (F × Nat)} :
    m.tape.active = true → entries m operands ≠ [] → i ≠ passive →
    (i = m.identifier name ∨ ¬m.tape.supply.Lent i) →
    Change m (.store name x overwrites operands) name ⟨x, i⟩ [.normal i (entries m operands)]
  | passiveStore {name : Nat} {x : F} {overwrites : Bool} {operands : List (F × Nat)} :
    m.tape.active = false ∨ entries m operands = [] →
    Change m (.store name x overwrites operands) name (.constant x) []
  | drop {name : Nat} {x : F} {releases : Bool} :
    Change m (.drop name x releases) name (.constant x) []
  | output {name i : Nat} : m.tape.active = true → m.identifier name ≠ passive → i ≠ passive →
    ¬m.tape.supply.Lent i →
    Change m (.output name) name ⟨m.value name, i⟩ [.normal i (entries m [(1, name)])]
  | passiveOutput {name : Nat} : m.tape.active = false ∨ m.identifier name = passive →
    Change m (.output name) name (m.variableOf name) []
  /-- No variable is changed. -/
  | setActive {active : Bool} : Change m (.setActive active) 0 (m.variableOf 0) []

/-- What a command has done when it comes to its end. -/
structure Step [Zero F] [One F] [FixedWidth F] (m : Machine F s) (p : Primitive F)
    (m' : Machine F s) (name : Nat) (a : Variable F) (δ : List (Statement F)) : Prop where
  change : p.Change m name a δ
  variableOf : m'.variableOf = Function.update m.variableOf name a
  inputs : m'.inputs = m.inputs ++ δ.flatMap Statement.registered
  active : m'.tape.active = p.activity m.tape.active
  adjoints : m'.tape.adjoints = m.tape.adjoints
  largest : m'.tape.supply.largest ≤ m.tape.supply.largest + 1
  owned : m'.Owned
  reached : ∀ {lib : Library F} {h : History F}, Reached lib m.tape h →
    Reached lib m'.tape (h.extend δ)

/-- The command comes to its end, unless it needs an identifier and none is left. -/
def Ends [Zero F] [One F] [FixedWidth F] (m : Machine F s) (p : Primitive F) : Prop :=
  (∃ m' name a δ, (p.run m).Yields m' ∧ p.Step m m' name a δ) ∨
    (m.tape.supply.Exhausted ∧ (p.run m).Fails (.outOfIdentifiers s))

/-! ## Every command comes to its end -/

/-- The identifier that is handed over to the tape together with an assignment. -/
def handed (m : Machine F s) (name : Nat) (overwrites : Bool) : Nat :=
  if overwrites then m.identifier name else passive

theorem handed_eq_or_lent {m : Machine F s} (hm : m.Owned) (name : Nat) (overwrites : Bool) :
    handed m name overwrites = passive ∨
      (handed m name overwrites = m.identifier name ∧
        m.tape.supply.Lent (handed m name overwrites)) := by
  unfold handed
  cases overwrites with
  | false => exact Or.inl rfl
  | true =>
    by_cases hpassive : m.identifier name = passive
    · exact Or.inl hpassive
    · exact Or.inr ⟨rfl, hm.lent name hpassive⟩

theorem release_handed {m : Machine F s} (hm : m.Owned) (name : Nat) (overwrites : Bool) :
    ∃ t, m.tape.release (handed m name overwrites) = .ok t ∧ t.active = m.tape.active ∧
      t.adjoints = m.tape.adjoints ∧ t.supply.largest ≤ m.tape.supply.largest + 1 ∧
      t.supply.Sound ∧
      ∀ y, y ≠ name → m.identifier y ≠ passive → t.supply.Lent (m.identifier y) := by
  rcases handed_eq_or_lent hm name overwrites with hpassive | ⟨heq, hlent⟩
  · rw [hpassive]
    refine ⟨m.tape, ?_, rfl, rfl, Nat.le_succ _, hm.sound, fun y _ hy => hm.lent y hy⟩
    rw [Tape.release_eq_ok_iff]
    exact ⟨_, Supply.release_passive _, rfl⟩
  · obtain ⟨supply, hrelease, hsound, hothers⟩ := Supply.release_spec hm.sound hlent
    refine ⟨{ m.tape with supply := supply }, Tape.release_eq_ok_iff.2 ⟨supply, hrelease, rfl⟩,
      rfl, rfl, ?_, hsound, fun y hy hne => ?_⟩
    · show supply.largest ≤ _
      rw [Supply.largest_release hrelease]
      exact Nat.le_succ _
    -- Another variable does not have the identifier that was taken back.
    · apply (hothers (m.identifier y) ?_).2 (hm.lent y hne)
      rw [heq]
      intro hsame
      exact hy (hm.distinct y name hsame hne)

variable [Zero F] [One F] [FixedWidth F] {m : Machine F s}

theorem input_ends (hm : m.Owned) (name : Nat) (x : F) : (input name x).Ends m := by
  by_cases hactive : m.tape.active = true
  · rcases m.tape.supply.generate_total with ⟨i, supply, hg⟩ | ⟨hexhausted, hg⟩
    -- The tape is active: the input is given a new identifier, which nobody has.
    · obtain ⟨hne, hnot, hsound, hlent⟩ := Supply.generate_spec hm.sound hg
      obtain ⟨t, hyields, hgrows⟩ := Tape.exists_registerInput hactive hg
      obtain rfl := hgrows.supply
      have howned : (m.bind name ⟨x, i⟩ t).Owned :=
        hm.bind_issued hne (Or.inr hnot) hsound hlent
      refine Or.inl ⟨{ m.bind name ⟨x, i⟩ t with inputs := m.inputs ++ [i] }, name, _, _,
        hyields.bind ?_, .input hactive hg hne hnot, rfl, rfl, hgrows.active, hgrows.adjoints,
        Supply.largest_generate_le hg, ⟨howned.sound, howned.lent, howned.distinct⟩,
        hgrows.reached⟩
      have hguard : (i != passive) = true := by simpa using hne
      simp only [hguard, ↓reduceIte]
      exact Run.yields_pure _
    · exact Or.inr ⟨hexhausted, (Tape.fails_registerInput hactive hg).bind _⟩
  -- The tape is passive and stays as it is.
  · have hpassive : m.tape.active = false := Bool.not_eq_true _ ▸ hactive
    have hyields : m.tape.registerInput.Yields (passive, m.tape) := by
      intro j
      rw [Tape.outcome_registerInput_passive hpassive]
    refine Or.inl ⟨m.bind name (.constant x) m.tape, name, _, _, hyields.bind ?_,
      .passiveInput hpassive, rfl, (List.append_nil _).symm, rfl, rfl, Nat.le_succ _, ?_,
      fun hr => ?_⟩
    · exact Run.yields_pure _
    · exact hm.bind_constant hm.sound fun y _ hy => hm.lent y hy
    · rw [History.extend_nil]
      exact hr

theorem store_ends (hm : m.Owned) (name : Nat) (x : F) (overwrites : Bool)
    {operands : List (F × Nat)} (hle : operands.length ≤ maxArguments) :
    (store name x overwrites operands).Ends m := by
  by_cases hpassive : m.tape.active = false ∨ entries m operands = []
  -- Nothing is recorded, and the identifier handed over is taken back.
  · obtain ⟨t, hrelease, hactive, hadjoints, hlargest, hsound, hothers⟩ :=
      release_handed hm name overwrites
    have hyields : (m.tape.store (handed m name overwrites) (arguments m operands)).Yields
        (passive, t) := by
      intro j
      rw [Tape.outcome_store_passive hpassive, hrelease]
      rfl
    refine Or.inl ⟨m.bind name (.constant x) t, name, _, _, hyields.bind (Run.yields_pure _),
      .passiveStore hpassive, rfl, (List.append_nil _).symm, hactive, hadjoints, hlargest, ?_,
      fun hr => ?_⟩
    · exact hm.bind_constant hsound hothers
    · rw [History.extend_nil]
      exact hr.step (.release hrelease)
  · obtain ⟨hactive, hne⟩ := not_or.1 hpassive
    rw [Bool.not_eq_false] at hactive
    have hlength : (entries m operands).length ≤ maxArguments := by
      apply Nat.le_trans (List.length_filter_le ..)
      rw [arguments, List.length_map]
      exact hle
    have hentries : (arguments m operands).filter (fun e => e.2 != passive) = entries m operands :=
      rfl
    rcases m.tape.supply.claim_total (handed m name overwrites) with
      ⟨i, supply, hc⟩ | ⟨hexhausted, hc⟩
    · have hhanded := handed_eq_or_lent hm name overwrites
      obtain ⟨hclaimed, horigin, hsound, hlent⟩ :=
        Supply.claim_spec hm.sound (hhanded.imp_right And.right) hc
      obtain ⟨t, hyields, hgrows⟩ := Tape.exists_store hactive hentries hne hlength hc
      obtain rfl := hgrows.supply
      -- The identifier is the one that `name` had, or nobody has it.
      have hwhose : i = m.identifier name ∨ ¬m.tape.supply.Lent i := by
        rcases horigin with heq | hnot
        · rcases hhanded with hzero | ⟨hown, -⟩
          · exact absurd (heq.trans hzero) hclaimed
          · exact Or.inl (heq.trans hown)
        · exact Or.inr hnot
      exact Or.inl ⟨m.bind name ⟨x, i⟩ t, name, _, _, hyields.bind (Run.yields_pure _),
        .store hactive hne hclaimed hwhose, rfl, (List.append_nil _).symm, hgrows.active,
        hgrows.adjoints, Supply.largest_claim_le hc,
        hm.bind_issued hclaimed hwhose hsound hlent, hgrows.reached⟩
    · exact Or.inr ⟨hexhausted, (Tape.fails_store hactive hentries hne hlength hc).bind _⟩

theorem drop_ends (hm : m.Owned) (name : Nat) (x : F) (releases : Bool) :
    (drop name x releases).Ends m := by
  obtain ⟨t, hrelease, hactive, hadjoints, hlargest, hsound, hothers⟩ :=
    release_handed hm name releases
  have hretire : retire m name releases = .ok t := by
    rw [← hrelease]
    cases releases with
    | false =>
      symm
      exact Tape.release_eq_ok_iff.2 ⟨_, Supply.release_passive _, rfl⟩
    | true => rfl
  refine Or.inl ⟨m.bind name (.constant x) t, name, _, _, ?_, .drop, rfl, (List.append_nil _).symm,
    hactive, hadjoints, hlargest, ?_, fun hr => ?_⟩
  · exact (Run.yields_liftM hretire).bind (Run.yields_pure _)
  · exact hm.bind_constant hsound hothers
  · rw [History.extend_nil]
    exact hr.step (.release hrelease)

theorem output_ends (hm : m.Owned) (name : Nat) : (output name).Ends m := by
  by_cases hpassive : m.identifier name = passive ∨ m.tape.active = false
  · have hrun : m.tape.registerOutput (m.identifier name) =
        pure (m.identifier name, m.tape) := by
      unfold Tape.registerOutput
      rcases hpassive with h | h <;> simp [h]
    refine Or.inl ⟨m.bind name (m.variableOf name) m.tape, name, _, _, ?_,
      .passiveOutput hpassive.symm, rfl, (List.append_nil _).symm, rfl, rfl, Nat.le_succ _, ?_,
      fun hr => ?_⟩
    · simp only [run, hrun, pure_bind]
      exact Run.yields_pure _
    · apply hm.bind hm.sound
      · exact fun y _ hy => hm.lent y hy
      · intro hne
        exact ⟨hm.lent name hne, fun y hy hsame => hy (hm.distinct y name hsame (hsame ▸ hne))⟩
    · rw [History.extend_nil]
      exact hr
  · obtain ⟨hname, hactive⟩ := not_or.1 hpassive
    rw [Bool.not_eq_false] at hactive
    have hentries : ([(1, m.identifier name)] : List (F × Nat)).filter (fun e => e.2 != passive) =
        [(1, m.identifier name)] := by
      simpa using hname
    have hlength : 1 ≤ maxArguments := by decide
    have hguard : (decide (m.identifier name = passive) || !m.tape.active) = false := by
      simp [hname, hactive]
    have hrun : (output name).run m =
        m.tape.store passive [(1, m.identifier name)] >>= fun r =>
          liftM (r.2.release (m.identifier name)) >>= fun t =>
            pure (m.bind name ⟨m.value name, r.1⟩ t) := by
      simp only [run, Tape.registerOutput, hguard, Bool.false_eq_true, ↓reduceIte, bind_assoc,
        pure_bind]
    rw [Ends, hrun]
    rcases m.tape.supply.claim_total passive with ⟨i, claimed, hc⟩ | ⟨hexhausted, hc⟩
    -- The copy is stored under a new identifier first, and the old one is taken back after that.
    · obtain ⟨hclaimed, horigin, hsound, hlent⟩ := Supply.claim_spec hm.sound (Or.inl rfl) hc
      obtain ⟨t, hyields, hgrows⟩ :=
        Tape.exists_store hactive hentries (List.cons_ne_nil _ _) hlength hc
      obtain rfl := hgrows.supply
      have hnot := horigin.resolve_left hclaimed
      have hstill (y : Nat) (hy : m.identifier y ≠ passive) : t.supply.Lent (m.identifier y) :=
        (hlent _).2 (Or.inl (hm.lent y hy))
      -- The old identifier is still out behind the store, so giving it back is not refused.
      obtain ⟨supply, hrelease, hsound', hothers⟩ := Supply.release_spec hsound (hstill name hname)
      have hgiven : t.release (m.identifier name) = .ok { t with supply := supply } :=
        Tape.release_eq_ok_iff.2 ⟨supply, hrelease, rfl⟩
      have hlargest : supply.largest ≤ m.tape.supply.largest + 1 := by
        rw [Supply.largest_release hrelease]
        exact Supply.largest_claim_le hc
      refine Or.inl ⟨m.bind name ⟨m.value name, i⟩ { t with supply := supply }, name, _, _, ?_,
        .output hactive hname hclaimed hnot, rfl, (List.append_nil _).symm, hgrows.active,
        hgrows.adjoints, hlargest, ?_, fun hr => ?_⟩
      · exact hyields.bind ((Run.yields_liftM hgiven).bind (Run.yields_pure _))
      · apply hm.bind hsound'
        · intro y hy hne
          apply (hothers _ _).2 (hstill y hne)
          intro hsame
          exact hy (hm.distinct y name hsame hne)
        · intro _
          have hother : i ≠ m.identifier name := (hm.ne_of_not_lent hclaimed hnot name).symm
          exact ⟨(hothers i hother).2 ((hlent i).2 (Or.inr rfl)),
            fun y _ => hm.ne_of_not_lent hclaimed hnot y⟩
      · rw [entries, arguments, List.map_singleton, hentries]
        exact (hgrows.reached hr).step (.release hgiven)
    · exact Or.inr ⟨hexhausted,
        (Tape.fails_store hactive hentries (List.cons_ne_nil _ _) hlength hc).bind _⟩

theorem setActive_ends (hm : m.Owned) (active : Bool) : (setActive active).Ends m := by
  refine Or.inl ⟨{ m with tape := m.tape.setActive active }, 0, _, _, Run.yields_pure _,
    .setActive, (Function.update_eq_self ..).symm, (List.append_nil _).symm, rfl, rfl,
    Nat.le_succ _, ⟨hm.sound, hm.lent, hm.distinct⟩, fun hr => ?_⟩
  rw [History.extend_nil]
  exact hr.step (.setActive active)

theorem ends (hm : m.Owned) {p : Primitive F} (hp : p.Fits) : p.Ends m := by
  cases p with
  | input name x => exact input_ends hm name x
  | store name x overwrites operands => exact store_ends hm name x overwrites hp
  | drop name x releases => exact drop_ends hm name x releases
  | output name => exact output_ends hm name
  | setActive active => exact setActive_ends hm active

end Primitive

theorem Command.fits_primitive {F : Type} [Zero F] [One F] [Add F] [Sub F] [Mul F] [Div F] [Neg F]
    [IntCast F] [Elementary F] (c : Command F) (value : Nat → F) : (c.primitive value).Fits := by
  -- No command has more than two operands.
  have hone : 1 ≤ maxArguments := by decide
  have htwo : 2 ≤ maxArguments := by decide
  cases c with
  | unary | unaryInto | apply | copy | assign => exact hone
  | binary | binaryInto | applyWith => exact htwo
  | input | constant | assignConstant | markOutput | release | setActive => trivial

end Autodiff
