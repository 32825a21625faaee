import Autodiff.Proofs.Exact
import Autodiff.Proofs.Program.Alike
import Autodiff.Proofs.Program.Apart

/-!
# Reuse of identifiers

A tape that uses identifiers again gives the gradients of a tape that never does, to the last bit,
as long as no input is given an identifier that an assignment before it names.

The sweeps in reverse are compared from the end of the program backwards.  At each point of it, the
slots of an active variable agree (`Matched.same`), and slots that belong to nobody are zero
(`Clean`): an adjoint has been handed on by the time its variable comes into being.  The slots of
inputs are the exception.  They keep what they have when the sweep passes the input, so an
identifier that was in use before brings its adjoint to the assignments of its former owner.
-/

namespace Autodiff

open Statement

/-! ## Slots without an owner -/

section Clean

variable {F : Type} [Zero F] {s : Scheme} {m m' : Machine F s} {name : Nat} {a : Variable F}
  {is is' : List Nat} {u : Nat → F}

/-- Slots that belong to no variable are zero; those of the inputs `is` may hold anything. -/
def Machine.Clean (m : Machine F s) (is : List Nat) (u : Nat → F) : Prop :=
  ∀ i, i ≠ passive → i ∉ is → (∀ x, m.identifier x ≠ i) → u i = 0

theorem Machine.Clean.lost (h : m'.Clean is u) (hm : m.Owned)
    (hvariable : m'.variableOf = Function.update m.variableOf name a)
    (hne : m.identifier name ≠ passive) (hmem : m.identifier name ∉ is)
    (ha : a.identifier ≠ m.identifier name) : u (m.identifier name) = 0 := by
  -- Behind the command nobody has the identifier that `name` had before.
  apply h _ hne hmem
  intro x hx
  rw [Machine.identifier_update hvariable] at hx
  split at hx
  · exact ha hx
  · next hname => exact hname (hm.distinct x name hx (hx ▸ hne))

/-- Before a command there is one more variable at most that a slot may belong to. -/
theorem Machine.Clean.back (h : m'.Clean is u)
    (hvariable : m'.variableOf = Function.update m.variableOf name a) (hsub : ∀ i ∈ is, i ∈ is')
    (ha : a.identifier = passive ∨ a.identifier = m.identifier name ∨ a.identifier ∈ is') :
    m.Clean is' u := by
  intro i hi hmem hnobody
  apply h i hi fun hin => hmem (hsub i hin)
  intro x hx
  rw [Machine.identifier_update hvariable] at hx
  split at hx
  · rcases ha with hpassive | hown | hin
    · exact hi (hx.symm.trans hpassive)
    · exact hnobody name (hown.symm.trans hx)
    · exact hmem (hx ▸ hin)
  · exact hnobody x hx

/-- An assignment leaves its slot at zero and adds to slots of variables alone. -/
theorem Machine.Clean.back_normal [Add F] [Mul F] [BEq F] (h : m'.Clean is u)
    (hvariable : m'.variableOf = Function.update m.variableOf name a)
    (operands : List (F × Nat)) :
    m.Clean is
      ((Statement.normal a.identifier (Primitive.entries m operands)).effect .reverse u) := by
  intro i hi hmem hnobody
  -- The slot of the target is zero now, the others were not its own.
  have hcleared : Function.update u a.identifier 0 i = 0 := by
    by_cases htarget : i = a.identifier
    · rw [htarget, Function.update_self]
    · rw [Function.update_of_ne htarget]
      apply h i hi hmem
      intro x hx
      rw [Machine.identifier_update hvariable] at hx
      split at hx
      · exact htarget hx.symm
      · exact hnobody x hx
  have hentries : ∀ e ∈ Primitive.entries m operands, e.2 ≠ i := by
    intro e he
    obtain ⟨o, -, -, rfl⟩ := Primitive.mem_entries.1 he
    exact hnobody o.2
  show (if u a.identifier != 0 then
      scattered (u a.identifier) (Primitive.entries m operands) (Function.update u a.identifier 0)
    else Function.update u a.identifier 0) i = 0
  split
  · rw [scattered_of_ne hentries, hcleared]
  · exact hcleared

end Clean

/-! ## Two vectors -/

section Matched

variable {F : Type} [Zero F] {s s' : Scheme} {l l' : Machine F s} {r r' : Machine F s'}
  {is js : List Nat} {u v : Nat → F}

/-- The vectors agree on active variables and are zero where nobody owns a slot. The identifiers
`is` and `js` are those of inputs that are still to come. -/
structure Matched (l : Machine F s) (r : Machine F s') (is js : List Nat) (u v : Nat → F) :
    Prop where
  same : ∀ x, l.identifier x ≠ passive → l.identifier x ∉ is → r.identifier x ∉ js →
    u (l.identifier x) = v (r.identifier x)
  left : l.Clean is u
  right : r.Clean js v

theorem matched_seed (hl : l.Owned) (hr : r.Owned) (h : l.Alike r) (out : Nat) (x : F) :
    Matched l r [] [] (Function.update (fun _ => 0) (l.identifier out) x)
      (Function.update (fun _ => 0) (r.identifier out) x) := by
  refine ⟨fun y hy _ _ => ?_, fun i _ _ hnobody => ?_, fun i _ _ hnobody => ?_⟩
  · by_cases heq : y = out
    · rw [heq, Function.update_self, Function.update_self]
    · have hleft : l.identifier y ≠ l.identifier out := fun hsame =>
        heq (hl.distinct y out hsame hy)
      have hright : r.identifier y ≠ r.identifier out := fun hsame =>
        heq (hr.distinct y out hsame fun hp => hy ((h.passive y).2 hp))
      rw [Function.update_of_ne hleft, Function.update_of_ne hright]
  · exact Function.update_of_ne (hnobody out).symm _ _
  · exact Function.update_of_ne (hnobody out).symm _ _

omit [Zero F] in
theorem scattered_entries_same [Add F] [Mul F] (hl : l.Owned) (hr : r.Owned) (h : l.Alike r)
    {operands : List (F × Nat)} {P : Nat → Prop} (hactive : ∀ x, P x → l.identifier x ≠ passive)
    (hoperands : ∀ e ∈ operands, l.identifier e.2 ≠ passive → P e.2)
    (hsame : ∀ x, P x → u (l.identifier x) = v (r.identifier x)) (bar : F) :
    ∀ x, P x → scattered bar (Primitive.entries l operands) u (l.identifier x) =
      scattered bar (Primitive.entries r operands) v (r.identifier x) := by
  -- The same amounts are added in the same order, so nothing is asked of the sums.
  induction operands generalizing u v with
  | nil => exact hsame
  | cons e operands ih =>
    have hrest : ∀ e ∈ operands, l.identifier e.2 ≠ passive → P e.2 := fun e he =>
      hoperands e (List.mem_cons_of_mem _ he)
    by_cases hpassive : l.identifier e.2 = passive
    · rw [Primitive.entries_cons_passive hpassive,
        Primitive.entries_cons_passive ((h.passive _).1 hpassive)]
      exact ih hrest hsame
    · have hpassive' : r.identifier e.2 ≠ passive := fun hp => hpassive ((h.passive _).2 hp)
      have he := hoperands e (List.mem_cons_self ..) hpassive
      rw [Primitive.entries_cons_active hpassive, Primitive.entries_cons_active hpassive']
      apply ih hrest
      intro x hx
      show Function.update u (l.identifier e.2) _ _ = Function.update v (r.identifier e.2) _ _
      by_cases hxe : x = e.2
      · rw [hxe, Function.update_self, Function.update_self, hsame e.2 he]
      · have hleft : l.identifier x ≠ l.identifier e.2 := fun heq =>
          hxe (hl.distinct x e.2 heq (hactive x hx))
        have hright : r.identifier x ≠ r.identifier e.2 := fun heq =>
          hxe (hr.distinct x e.2 heq fun hp => hactive x hx ((h.passive x).2 hp))
        rw [Function.update_of_ne hleft, Function.update_of_ne hright, hsame x hx]

variable {name : Nat} {a a' : Variable F}

/-- Back over a command that records no assignment and makes a new variable of `name`. -/
theorem Matched.back_quiet {is' js' : List Nat} (hm : Matched l' r' is js u v) (hl : l.Owned)
    (hr : r.Owned) (h : l.Alike r)
    (hvl : l'.variableOf = Function.update l.variableOf name a)
    (hvr : r'.variableOf = Function.update r.variableOf name a')
    (hnew : l.identifier name ≠ passive → a.identifier ≠ l.identifier name)
    (hnew' : r.identifier name ≠ passive → a'.identifier ≠ r.identifier name)
    (hsub : ∀ i ∈ is, i ∈ is') (hsub' : ∀ i ∈ js, i ∈ js')
    (ha : a.identifier = passive ∨ a.identifier ∈ is')
    (ha' : a'.identifier = passive ∨ a'.identifier ∈ js') : Matched l r is' js' u v := by
  refine ⟨fun x hx hxis hxjs => ?_, hm.left.back hvl hsub (ha.imp_right Or.inr),
    hm.right.back hvr hsub' (ha'.imp_right Or.inr)⟩
  have hxl : l.identifier x ∉ is := fun hin => hxis (hsub _ hin)
  have hxr : r.identifier x ∉ js := fun hin => hxjs (hsub' _ hin)
  have hx' : r.identifier x ≠ passive := fun hp => hx ((h.passive x).2 hp)
  by_cases hname : x = name
  -- The old variable of that name has lost its slot on both sides.
  · rw [hname] at hx hx' hxl hxr ⊢
    rw [hm.left.lost hl hvl hx hxl (hnew hx), hm.right.lost hr hvr hx' hxr (hnew' hx')]
  · have hsame := hm.same x
    rw [Machine.identifier_update hvl, if_neg hname, Machine.identifier_update hvr,
      if_neg hname] at hsame
    exact hsame hx hxl hxr

/-- Back over an assignment. No input to come has an identifier that it names. -/
theorem Matched.back_normal [Add F] [Mul F] [BEq F] (hm : Matched l' r' is js u v) (hl : l.Owned)
    (hr : r.Owned) (h : l.Alike r)
    (hvl : l'.variableOf = Function.update l.variableOf name a)
    (hvr : r'.variableOf = Function.update r.variableOf name a')
    (ha : a.identifier ≠ passive)
    (hwhose : a.identifier = l.identifier name ∨ ¬l.tape.supply.Lent a.identifier)
    (ha' : a'.identifier ≠ passive)
    (hwhose' : a'.identifier = r.identifier name ∨ ¬r.tape.supply.Lent a'.identifier)
    {operands : List (F × Nat)}
    (hapart : ∀ i ∈ is, ¬(Statement.normal a.identifier (Primitive.entries l operands)).Assigns i)
    (hapart' : ∀ i ∈ js,
      ¬(Statement.normal a'.identifier (Primitive.entries r operands)).Assigns i) :
    Matched l r is js
      ((Statement.normal a.identifier (Primitive.entries l operands)).effect .reverse u)
      ((Statement.normal a'.identifier (Primitive.entries r operands)).effect .reverse v) := by
  -- What is handed on is the same, as the target is an active variable behind the command.
  have hbar : u a.identifier = v a'.identifier := by
    have hsame := hm.same name
    rw [Machine.identifier_update hvl, if_pos rfl, Machine.identifier_update hvr,
      if_pos rfl] at hsame
    exact hsame ha (fun hin => hapart _ hin (Or.inl rfl)) fun hin => hapart' _ hin (Or.inl rfl)
  -- Behind the assignment the slot of `name` is zero on both sides, whether it is the same or not.
  have hcleared : ∀ x, l.identifier x ≠ passive ∧ l.identifier x ∉ is ∧ r.identifier x ∉ js →
      Function.update u a.identifier 0 (l.identifier x) =
        Function.update v a'.identifier 0 (r.identifier x) := by
    rintro x ⟨hx, hxl, hxr⟩
    have hx' : r.identifier x ≠ passive := fun hp => hx ((h.passive x).2 hp)
    by_cases hname : x = name
    · rw [hname] at hx hx' hxl hxr ⊢
      have hleft : Function.update u a.identifier 0 (l.identifier name) = 0 := by
        by_cases hown : l.identifier name = a.identifier
        · rw [hown, Function.update_self]
        · rw [Function.update_of_ne hown, hm.left.lost hl hvl hx hxl (Ne.symm hown)]
      have hright : Function.update v a'.identifier 0 (r.identifier name) = 0 := by
        by_cases hown : r.identifier name = a'.identifier
        · rw [hown, Function.update_self]
        · rw [Function.update_of_ne hown, hm.right.lost hr hvr hx' hxr (Ne.symm hown)]
      rw [hleft, hright]
    · have hsame := hm.same x
      rw [Machine.identifier_update hvl, if_neg hname, Machine.identifier_update hvr,
        if_neg hname] at hsame
      rw [Function.update_of_ne (hl.ne_target ha hwhose hname),
        Function.update_of_ne (hr.ne_target ha' hwhose' hname), hsame hx hxl hxr]
  -- No operand has the identifier of an input to come, as the assignment names it.
  have hoperands : ∀ e ∈ operands, l.identifier e.2 ≠ passive →
      l.identifier e.2 ≠ passive ∧ l.identifier e.2 ∉ is ∧ r.identifier e.2 ∉ js := by
    intro e he hne
    have hne' : r.identifier e.2 ≠ passive := fun hp => hne ((h.passive _).2 hp)
    refine ⟨hne, fun hin => hapart _ hin (Or.inr ?_), fun hin => hapart' _ hin (Or.inr ?_)⟩
    · exact ⟨_, Primitive.mem_entries.2 ⟨e, he, hne, rfl⟩, rfl⟩
    · exact ⟨_, Primitive.mem_entries.2 ⟨e, he, hne', rfl⟩, rfl⟩
  refine ⟨fun x hx hxl hxr => ?_, hm.left.back_normal hvl operands,
    hm.right.back_normal hvr operands⟩
  show (if u a.identifier != 0 then
      scattered (u a.identifier) (Primitive.entries l operands) (Function.update u a.identifier 0)
    else Function.update u a.identifier 0) (l.identifier x) =
    (if v a'.identifier != 0 then
      scattered (v a'.identifier) (Primitive.entries r operands) (Function.update v a'.identifier 0)
    else Function.update v a'.identifier 0) (r.identifier x)
  rw [← hbar]
  split
  · exact scattered_entries_same hl hr h (fun x hx => hx.1) hoperands hcleared _ x ⟨hx, hxl, hxr⟩
  · exact hcleared x ⟨hx, hxl, hxr⟩

theorem Matched.back [Add F] [Mul F] [BEq F] {δ δ' : List (Statement F)}
    (hm : Matched l' r' is js u v) (hl : l.Owned) (hr : r.Owned) (h : l.Alike r)
    (ht : Together l r name a a' δ δ') (hvl : l'.variableOf = Function.update l.variableOf name a)
    (hvr : r'.variableOf = Function.update r.variableOf name a')
    (hapart : ∀ x ∈ δ, ∀ i ∈ is, ¬x.Assigns i) (hapart' : ∀ x ∈ δ', ∀ i ∈ js, ¬x.Assigns i) :
    Matched l r (δ.flatMap registered ++ is) (δ'.flatMap registered ++ js)
      (effects .reverse δ u) (effects .reverse δ' v) := by
  cases ht with
  -- From here on back the new identifier is that of an input to come.
  | input hne hnot hne' hnot' =>
    exact hm.back_quiet hl hr h hvl hvr (fun _ => (hl.ne_of_not_lent hne hnot name).symm)
      (fun _ => (hr.ne_of_not_lent hne' hnot' name).symm) (fun _ => List.mem_cons_of_mem _)
      (fun _ => List.mem_cons_of_mem _) (Or.inr (List.mem_cons_self ..))
      (Or.inr (List.mem_cons_self ..))
  | normal operands hne hwhose hne' hwhose' =>
    exact hm.back_normal hl hr h hvl hvr hne hwhose hne' hwhose'
      (hapart _ (List.mem_singleton_self _)) (hapart' _ (List.mem_singleton_self _))
  | constant =>
    exact hm.back_quiet hl hr h hvl hvr (fun hne => Ne.symm hne) (fun hne => Ne.symm hne)
      (fun _ => id) (fun _ => id) (Or.inl rfl) (Or.inl rfl)
  | same =>
    rw [Function.update_eq_self] at hvl hvr
    have hleft : l'.identifier = l.identifier := by
      funext x
      rw [Machine.identifier, hvl]
      rfl
    have hright : r'.identifier = r.identifier := by
      funext x
      rw [Machine.identifier, hvr]
      rfl
    obtain ⟨hsame, hcleanl, hcleanr⟩ := hm
    unfold Machine.Clean at hcleanl hcleanr
    rw [hleft] at hsame hcleanl
    rw [hright] at hsame hcleanr
    exact ⟨hsame, hcleanl, hcleanr⟩

end Matched

/-! ## Programs -/

section Program

variable {F : Type} [Zero F] [One F] [Add F] [Sub F] [Mul F] [Div F] [Neg F] [IntCast F]
  [Elementary F] {s s' : Scheme} {cs : List (Command F)} {x : Nat}

/-- The command makes the variable `x`, overwrites it, marks it as an output or releases it. -/
def Command.Changes (x : Nat) : Command F → Prop
  | input name _ | constant name _ | unary name _ _ | binary name _ _ _ | unaryInto name _ _
  | binaryInto name _ _ _ | apply name _ | applyWith name _ _ | copy name _ | assign name _
  | assignConstant name _ | markOutput name | release name => name = x
  | setActive _ => False

theorem Primitive.Change.variableOf_eq {m : Machine F s} {c : Command F} {name : Nat}
    {a : Variable F} {δ : List (Statement F)} (h : (c.primitive m.value).Change m name a δ)
    (hc : ¬c.Changes x) : Function.update m.variableOf name a x = m.variableOf x := by
  cases c with
  | setActive =>
    cases h
    rw [Function.update_eq_self]
  | input | constant | unary | binary | unaryInto | binaryInto | apply | applyWith | copy | assign
  | assignConstant | markOutput | release =>
    cases h <;> exact Function.update_of_ne (Ne.symm hc) _ _

variable [FixedWidth F] {m m' : Machine F s} {l l' : Machine F s} {r r' : Machine F s'}
  {δs δs' : List (Statement F)}

theorem Path.variableOf_eq (h : Path cs m δs m') (hcs : ∀ c ∈ cs, ¬c.Changes x) :
    m'.variableOf x = m.variableOf x := by
  induction h with
  | nil => rfl
  | cons _ hstep _ ih =>
    rw [ih fun c hc => hcs c (List.mem_cons_of_mem _ hc), hstep.variableOf,
      hstep.change.variableOf_eq (hcs _ (List.mem_cons_self ..))]

theorem Path.not_registered (h : Path cs m δs m') (hm : m.Owned) (hcs : ∀ c ∈ cs, ¬c.Changes x)
    (hx : m.identifier x ≠ passive) : m.identifier x ∉ δs.flatMap registered := by
  induction h with
  | nil => exact List.not_mem_nil
  | @cons c cs m m₁ m' name a δ δs _ hstep hpath ih =>
    have hsame : m₁.identifier x = m.identifier x := by
      rw [Machine.identifier, hstep.variableOf,
        hstep.change.variableOf_eq (hcs _ (List.mem_cons_self ..))]
      rfl
    rw [List.flatMap_append, List.mem_append, not_or]
    constructor
    -- An identifier that is out is not issued again.
    · intro hin
      exact (hstep.change.not_lent_of_registered hin).2 (hm.lent x hx)
    · rw [← hsame] at hx ⊢
      exact ih hstep.owned (fun c hc => hcs c (List.mem_cons_of_mem _ hc)) hx

theorem Path.alike (hl : Path cs l δs l') (hr : Path cs r δs' r') (h : l.Alike r) :
    l'.Alike r' := by
  induction hl generalizing r δs' with
  | nil =>
    cases hr
    exact h
  | cons _ hstep _ ih =>
    cases hr with
    | cons _ hstep' hpath' =>
      rw [← h.value] at hstep'
      exact ih hpath' (h.step hstep hstep')

/-- Back over a whole program. -/
theorem Path.matched [BEq F] {u v : Nat → F} (hl : Path cs l δs l') (hr : Path cs r δs' r')
    (h : l.Alike r) (hownedl : l.Owned) (hownedr : r.Owned) (hapart : δs.Pairwise Apart)
    (hapart' : δs'.Pairwise Apart) (hm : Matched l' r' [] [] u v) :
    Matched l r (δs.flatMap registered) (δs'.flatMap registered) (effects .reverse δs u)
      (effects .reverse δs' v) := by
  induction hl generalizing r δs' with
  | nil =>
    cases hr
    exact hm
  | cons _ hstep _ ih =>
    cases hr with
    | cons _ hstep' hpath' =>
      rw [← h.value] at hstep'
      obtain ⟨-, hrest, hacross⟩ := List.pairwise_append.1 hapart
      obtain ⟨-, hrest', hacross'⟩ := List.pairwise_append.1 hapart'
      have hmatched := ih hpath' (h.step hstep hstep') hstep.owned hstep'.owned hrest hrest' hm
      obtain ⟨rfl, htogether⟩ := h.together hstep.change hstep'.change
      rw [List.flatMap_append, List.flatMap_append, effects_reverse_append,
        effects_reverse_append]
      apply hmatched.back hownedl hownedr h htogether hstep.variableOf hstep'.variableOf
      · intro x hx i hi hassigns
        obtain ⟨y, hy, hregistered⟩ := List.mem_flatMap.1 hi
        exact hacross x hx y hy i hregistered hassigns
      · intro x hx i hi hassigns
        obtain ⟨y, hy, hregistered⟩ := List.mem_flatMap.1 hi
        exact hacross' x hx y hy i hregistered hassigns

/-- The machine behind the registration of `x`. What follows leaves the variable alone, and what
comes before leaves its slot alone. -/
theorem Path.exists_input [BEq F] {before after : List (Command F)} {x₀ : F}
    (h : Path (before ++ .input x x₀ :: after) m δs m') (hm : m.Owned)
    (hafter : ∀ c ∈ after, ¬c.Changes x) (hapart : δs.Pairwise Apart) :
    ∃ m₁ δ₁ δ₂, Path (before ++ [.input x x₀]) m δ₁ m₁ ∧ Path after m₁ δ₂ m' ∧
      δ₂.Pairwise Apart ∧ m'.variableOf x = m₁.variableOf x ∧
      (m₁.identifier x ≠ passive → m₁.identifier x ∉ δ₂.flatMap registered ∧
        ∀ u, effects .reverse δs u (m₁.identifier x) =
          effects .reverse δ₂ u (m₁.identifier x)) := by
  rw [List.append_cons] at h
  obtain ⟨m₁, δ₁, δ₂, rfl, hbefore, hrest⟩ := h.append_inv
  have hm₁ := hbefore.owned hm
  obtain ⟨hapart₁, hapart₂, -⟩ := List.pairwise_append.1 hapart
  refine ⟨m₁, δ₁, δ₂, hbefore, hrest, hapart₂, hrest.variableOf_eq hafter, fun hx => ?_⟩
  refine ⟨hrest.not_registered hm₁ hafter hx, fun u => ?_⟩
  -- What is recorded before the input does not assign to its identifier, and neither does the
  -- statement that registers it.
  obtain ⟨m₂, δ₃, δ₄, rfl, -, hinput⟩ := hbefore.append_inv
  have hunassigned : ∀ y ∈ δ₃ ++ δ₄, ¬y.Assigns (m₁.identifier x) := by
    cases hinput with
    | @cons _ _ _ m₃ _ name a δ _ _ hstep hnil =>
      cases hnil
      obtain ⟨hchange, hvariable, -⟩ := hstep
      cases hchange with
      | passiveInput =>
        rw [Machine.identifier_update hvariable, if_pos rfl] at hx
        exact absurd rfl hx
      | input =>
        rw [Machine.identifier_update hvariable, if_pos rfl]
        intro y hy
        rcases List.mem_append.1 hy with hy | hy
        · exact (List.pairwise_append.1 hapart₁).2.2 y hy _ (List.mem_cons_self ..) _
            (List.mem_singleton_self _)
        · rw [List.append_nil] at hy
          rw [List.mem_singleton.1 hy]
          exact id
  rw [effects_reverse_append, effects_of_not_assigns hunassigned]

/-- The derivative of one variable by another: seed `out`, sweep the whole tape in reverse and read
off the slot of `x`. -/
def Machine.derivative [BEq F] (m : Machine F s) (out : Nat) (seed : F) (x : Nat) : Run F := do
  let t ← m.tape.seedOf (m.variableOf out) seed
  let t ← t.evaluateAll .reverse
  t.gradientOf (m.variableOf x)

omit [Sub F] [Div F] [Neg F] [IntCast F] [Elementary F] in
theorem Machine.Records.yields_derivative [BEq F] {ss : List (Statement F)} (h : m.Records ss)
    (hzero : m.tape.adjoints.slot = fun _ => 0) {out : Nat} (hout : m.identifier out ≠ passive)
    (seed : F) (x : Nat) :
    (m.derivative out seed x).Yields (if m.identifier x = passive then 0 else
      effects .reverse ss (Function.update (fun _ => 0) (m.identifier out) seed)
        (m.identifier x)) := by
  obtain ⟨v, hseed, hslot⟩ := Tape.exists_seed (t := m.tape) hout seed
  obtain ⟨w, hsweep, hsize, hw⟩ := h.exists_evaluateAll v .reverse
  have hgradient := Tape.yields_gradientOf (t := m.tape) (w := w) (a := m.variableOf x) fun hx =>
    Nat.lt_of_le_of_lt (h.identifier_le hx) hsize
  rw [hw, hslot, hzero] at hgradient
  exact (Run.yields_liftM hseed).bind (hsweep.bind hgradient)

/-- A program runs on a new linear tape and on a new tape that uses identifiers again.  Neither runs
out of identifiers, and no input is given an identifier that an assignment before it names.  Then
the two tapes give the same derivative of any active variable by any input that is left alone. -/
theorem reuse_keeps_gradients [BEq F] {c c' : Settings} {t : Tape F .linear} {t' : Tape F .reuse}
    (ht : Tape.create c #[] = .ok t) (ht' : Tape.create c' #[] = .ok t')
    (hfits : ∀ c ∈ cs, c.Fits) (hids : (Machine.start t).Affords cs)
    (hids' : (Machine.start t').Affords cs)
    (hcs : Throughout (fun c m => c.Unassigned m) cs (Machine.start t')) :
    ∃ (l : Machine F .linear) (r : Machine F .reuse),
      (runAll cs (.start t)).Yields l ∧ (runAll cs (.start t')).Yields r ∧ l.Alike r ∧
      ∀ out seed, l.identifier out ≠ passive →
        ∀ before x x₀ after, cs = before ++ .input x x₀ :: after →
          (∀ c ∈ after, ¬c.Changes x) →
          ∃ g, (l.derivative out seed x).Yields g ∧ (r.derivative out seed x).Yields g := by
  have hstart := Machine.records_start ht
  have hstart' := Machine.records_start ht'
  have halike : (Machine.start t).Alike (Machine.start t') := by
    refine ⟨rfl, ?_, fun _ => Iff.rfl⟩
    exact (Tape.create_cases ht).2.2.2.2.trans (Tape.create_cases ht').2.2.2.2.symm
  obtain ⟨δs, l, hl⟩ := hids.exists_path hfits hstart.owned
  obtain ⟨δs', r, hr⟩ := hids'.exists_path hfits hstart'.owned
  have hrecl := hl.records hstart
  have hrecr := hr.records hstart'
  have hapart := hl.apart_linear hstart .nil fun x hx => absurd hx List.not_mem_nil
  have hapart' := hr.apart hstart' .nil hcs
  rw [List.nil_append] at hrecl hrecr hapart hapart'
  have hend := hl.alike hr halike
  have hzero : l.tape.adjoints.slot = fun _ => 0 := by
    rw [hl.adjoints]
    exact Tape.slot_create ht
  have hzero' : r.tape.adjoints.slot = fun _ => 0 := by
    rw [hr.adjoints]
    exact Tape.slot_create ht'
  refine ⟨l, r, hl.yields, hr.yields, hend, fun out seed hout before x x₀ after hsplit hafter => ?_⟩
  have hout' : r.identifier out ≠ passive := fun hp => hout ((hend.passive out).2 hp)
  have hyields := hrecl.yields_derivative hzero hout seed x
  have hyields' := hrecr.yields_derivative hzero' hout' seed x
  -- Both sweeps are the same from the end back to the registration of `x`.  What comes before it
  -- does not touch the slot on either side.
  rw [hsplit] at hl hr
  obtain ⟨l₁, δ₁, δ₂, hbefore, hrest, hrestApart, hkept, hclear⟩ :=
    hl.exists_input hstart.owned hafter hapart
  obtain ⟨r₁, δ₁', δ₂', hbefore', hrest', hrestApart', hkept', hclear'⟩ :=
    hr.exists_input hstart'.owned hafter hapart'
  have halike₁ := hbefore.alike hbefore' halike
  have hmatched := hrest.matched hrest' halike₁ (hbefore.owned hstart.owned)
    (hbefore'.owned hstart'.owned) hrestApart hrestApart'
    (matched_seed hrecl.owned hrecr.owned hend out seed)
  have hidentifier : l.identifier x = l₁.identifier x := congrArg Variable.identifier hkept
  have hidentifier' : r.identifier x = r₁.identifier x := congrArg Variable.identifier hkept'
  rw [hidentifier] at hyields
  rw [hidentifier'] at hyields'
  by_cases hx : l₁.identifier x = passive
  · rw [if_pos hx] at hyields
    rw [if_pos ((halike₁.passive x).1 hx)] at hyields'
    exact ⟨0, hyields, hyields'⟩
  · have hx' : r₁.identifier x ≠ passive := fun hp => hx ((halike₁.passive x).2 hp)
    obtain ⟨hmem, hsame⟩ := hclear hx
    obtain ⟨hmem', hsame'⟩ := hclear' hx'
    rw [if_neg hx, hsame, hmatched.same x hx hmem hmem', ← hsame'] at hyields
    rw [if_neg hx'] at hyields'
    exact ⟨_, hyields, hyields'⟩

end Program

/-- The product is given the identifier of the variable that was released. -/
def product : List (Command Int) :=
  [.input 0 5, .input 1 7, .unary 2 .neg 0, .release 2, .binary 3 .mul 0 1]

/-- The identifier is used again, but for no input. -/
theorem exists_tape_product : ∃ (t : Tape Int .linear) (t' : Tape Int .reuse),
    Tape.create ⟨4, 4, 4, 4, 0, true⟩ #[] = .ok t ∧
    Tape.create ⟨2, 1, 1, 1, 3, true⟩ #[] = .ok t' ∧
    Throughout (fun c m => c.Unassigned m) product (Machine.start t') ∧
    ((runAll product (.start t)).outcome {}).1.map (fun m => m.identifier 3) = .ok 4 ∧
    ((runAll product (.start t') >>= fun m => m.derivative 3 1 0).outcome {}).1 = .ok 7 ∧
    ((runAll product (.start t') >>= fun m => m.derivative 3 1 1).outcome {}).1 = .ok 5 :=
  ⟨_, _, rfl, rfl, throughout_of_check (by decide +kernel), by decide +kernel, by decide +kernel,
    by decide +kernel⟩

/-- The derivatives of the product by its factors. -/
theorem reuse_keeps_gradients_of_product :
    ∃ (t : Tape Int .linear) (t' : Tape Int .reuse) (l : Machine Int .linear)
      (r : Machine Int .reuse),
      Tape.create ⟨4, 4, 4, 4, 0, true⟩ #[] = .ok t ∧
      Tape.create ⟨2, 1, 1, 1, 3, true⟩ #[] = .ok t' ∧ (∀ c ∈ product, c.Fits) ∧
      Throughout (fun c m => c.Unassigned m) product (Machine.start t') ∧
      (runAll product (.start t)).Yields l ∧ (runAll product (.start t')).Yields r ∧
      l.identifier 3 ≠ passive ∧
      (l.derivative 3 1 0).Yields 7 ∧ (r.derivative 3 1 0).Yields 7 ∧
      (l.derivative 3 1 1).Yields 5 ∧ (r.derivative 3 1 1).Yields 5 := by
  obtain ⟨t, t', hcreate, hcreate', hcs, hidentifier, hseven, hfive⟩ := exists_tape_product
  have hfits : ∀ c ∈ product, c.Fits := by
    simp [product, Command.Fits, Operation.isBinary]
  obtain ⟨l, r, hl, hr, -, hall⟩ := reuse_keeps_gradients hcreate hcreate' hfits
    (Machine.affords_of_create hcreate hfits (by decide))
    (Machine.affords_of_create hcreate' hfits (by decide)) hcs
  rw [hl {}] at hidentifier
  have hactive : l.identifier 3 ≠ passive := by
    rw [show l.identifier 3 = 4 from Except.ok.inj hidentifier]
    decide
  obtain ⟨x, hx, hx'⟩ := hall 3 1 hactive [] 0 5 _ rfl (by simp [Command.Changes])
  obtain ⟨y, hy, hy'⟩ := hall 3 1 hactive [.input 0 5] 1 7 _ rfl (by simp [Command.Changes])
  obtain rfl : x = 7 := Except.ok.inj ((hr.bind hx' {}).symm.trans hseven)
  obtain rfl : y = 5 := Except.ok.inj ((hr.bind hy' {}).symm.trans hfive)
  exact ⟨t, t', l, r, hcreate, hcreate', hfits, hcs, hl, hr, hactive, hx, hx', hy, hy'⟩

/-- A program on a new tape, and the derivative of `out` by `x` at its end. -/
def derivativeOf (s : Scheme) (cs : List (Command Int)) (out x : Nat) : Run Int := do
  let t ← (Tape.create ⟨4, 4, 4, 4, 0, true⟩ #[] : Except Fault (Tape Int s))
  let m ← runAll cs (.start t)
  m.derivative out 1 x

/-- The second input is given the identifier of the variable that was released. -/
def leak : List (Command Int) :=
  [.input 0 5, .unary 1 .neg 0, .release 1, .input 2 7, .binary 3 .add 2 0]

/-- The adjoint of the second input goes on to the first one, through the assignment that had its
identifier before, and nothing of it is left. -/
theorem reuse_changes_gradients_of_leak :
    (∀ c ∈ leak, c.Fits) ∧ (∀ c ∈ leak.drop 1, ¬c.Changes 0) ∧ (∀ c ∈ leak.drop 4, ¬c.Changes 2) ∧
    ((derivativeOf .linear leak 3 0).outcome {}).1 = .ok 1 ∧
    ((derivativeOf .reuse leak 3 0).outcome {}).1 = .ok 0 ∧
    ((derivativeOf .linear leak 3 2).outcome {}).1 = .ok 1 ∧
    ((derivativeOf .reuse leak 3 2).outcome {}).1 = .ok 0 := by
  refine ⟨?_, ?_, ?_, by decide +kernel, by decide +kernel, by decide +kernel, by decide +kernel⟩
  · simp [leak, Command.Fits, Operation.isBinary]
  · simp [leak, Command.Changes]
  · simp [leak, Command.Changes]

end Autodiff
