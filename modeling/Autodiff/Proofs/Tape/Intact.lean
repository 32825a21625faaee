import Autodiff.Proofs.Tape.Aligned
import Autodiff.Proofs.Tape.Calls
import Autodiff.Tape.Editing

/-!
# What recording leaves untouched

A tape that records more keeps every stream as it was up to its end before, and so does a tape that
is cut back to a place behind that end.  This takes nothing for granted about what the streams hold:
it is true of every position whose parts all lie behind the end, even of one that was taken from
the tape before and has become invalid since.
-/

namespace Autodiff

open Run

/-! ## Recordings that grow -/

namespace Recording

variable {F : Type} {r r' r'' : Recording F}

/-- Every stream of `r'` is what the one of `r` becomes by recording more. -/
structure Continues (r r' : Recording F) : Prop where
  statements : r.statements.Continues r'.statements
  partials : r.partials.Continues r'.partials
  tokens : r.tokens.Continues r'.tokens
  fixed : r.fixed.Continues r'.fixed
  dynamic : r.dynamic.Continues r'.dynamic

theorem Continues.refl (r : Recording F) : r.Continues r :=
  ⟨.refl _, .refl _, .refl _, .refl _, .refl _⟩

theorem Continues.trans (h : r.Continues r') (h' : r'.Continues r'') : r.Continues r'' :=
  ⟨h.statements.trans h'.statements, h.partials.trans h'.partials, h.tokens.trans h'.tokens,
    h.fixed.trans h'.fixed, h.dynamic.trans h'.dynamic⟩

theorem continues_append (r : Recording F) (x : Statement F) : r.Continues (r.append x) :=
  ⟨Chunked.continues_pushRun _ _, Chunked.continues_pushRun _ _, Chunked.continues_pushRun _ _,
    Chunked.continues_pushRun _ _, Chunked.continues_pushRun _ _⟩

theorem continues_foldl_append (ss : List (Statement F)) (r : Recording F) :
    r.Continues (ss.foldl append r) := by
  induction ss generalizing r with
  | nil => exact .refl r
  | cons x ss ih => exact (r.continues_append x).trans (ih (r.append x))

theorem Continues.contains_endPosition (h : r.Continues r') (n : Nat) :
    r'.Contains (r.endPosition n) :=
  ⟨h.statements.contains_endCut, h.partials.contains_endCut, h.tokens.contains_endCut,
    h.fixed.contains_endCut, h.dynamic.contains_endCut⟩

theorem Continues.precedes (h : r.Continues r') {n m : Nat} (hnm : n ≤ m) :
    (r.endPosition n).Precedes (r'.endPosition m) :=
  ⟨h.statements.endCut_le, h.partials.endCut_le, h.tokens.endCut_le, h.fixed.endCut_le,
    h.dynamic.endCut_le, hnm⟩

theorem Continues.truncate_endPosition (h : r.Continues r') (n : Nat) :
    r'.truncate (r.endPosition n) = r.withLargest r'.largest := by
  show { r' with
    statements := r'.statements.truncate r.statements.endCut
    partials := r'.partials.truncate r.partials.endCut
    tokens := r'.tokens.truncate r.tokens.endCut
    fixed := r'.fixed.truncate r.fixed.endCut
    dynamic := r'.dynamic.truncate r.dynamic.endCut } = r.withLargest r'.largest
  rw [h.statements.truncate_endCut, h.partials.truncate_endCut, h.tokens.truncate_endCut,
    h.fixed.truncate_endCut, h.dynamic.truncate_endCut]
  rfl

theorem Continues.truncate (h : r.Continues r') {q : Position} (hq : r'.Contains q) {n : Nat}
    (hle : (r.endPosition n).Precedes q) : r.Continues (r'.truncate q) :=
  ⟨h.statements.truncate hq.1 hle.statements, h.partials.truncate hq.2.1 hle.partials,
    h.tokens.truncate hq.2.2.1 hle.tokens, h.fixed.truncate hq.2.2.2.1 hle.fixed,
    h.dynamic.truncate hq.2.2.2.2 hle.dynamic⟩

/-- `r'` is `r` after some statements more. -/
def Appended (r r' : Recording F) : Prop := ∃ ss : List (Statement F), r' = ss.foldl append r

theorem Appended.refl (r : Recording F) : r.Appended r := ⟨[], rfl⟩

theorem Appended.append (h : r.Appended r') (x : Statement F) : r.Appended (r'.append x) := by
  obtain ⟨ss, rfl⟩ := h
  exact ⟨ss ++ [x], by rw [List.foldl_append]; rfl⟩

theorem Appended.trans (h : r.Appended r') (h' : r'.Appended r'') : r.Appended r'' := by
  obtain ⟨ss, rfl⟩ := h
  obtain ⟨ss', rfl⟩ := h'
  exact ⟨ss ++ ss', by rw [List.foldl_append]⟩

theorem Appended.continues (h : r.Appended r') : r.Continues r' := by
  obtain ⟨ss, rfl⟩ := h
  exact continues_foldl_append ss r

theorem Appended.largest_le (h : r.Appended r') : r.largest ≤ r'.largest := by
  obtain ⟨ss, rfl⟩ := h
  rw [largest_foldl_append]
  exact Nat.le_max_left _ _

/-- Whatever a walk over another recording appends, it appends statement by statement. -/
theorem appended_of_appendFrom {lib : Library F} {source : Recording F} {g : Registry F}
    (hg : g.Within lib) {p q : Position} {n : Nat} {j j' : Journal}
    (h : (r.appendFrom source g p q).outcome j = (.ok (r', n), j')) : r.Appended r' := by
  have hstep (acc acc' : Recording F × Nat) (x : Statement F)
      (hacc : acc = acc' ∧ r.Appended acc.1) :
      InStep (fun a b => a = b ∧ r.Appended a.1)
        (do let r ← acc.1.record x; return (r, acc.2 + 1))
        (do let r ← acc'.1.record x; return (r, acc'.2 + 1)) := by
    obtain ⟨rfl, happended⟩ := hacc
    have hrecord : InStep (fun a b => a = b ∧ r.Appended a) (acc.1.record x) (acc.1.record x) :=
      (abreast_note _).bind_same fun _ => abreast_pure ⟨rfl, happended.append x⟩
    exact hrecord.bind fun a b hab => abreast_pure ⟨by rw [hab.1], hab.2⟩
  have hstart : (r, 0) = (r, 0) ∧ r.Appended (r, 0).1 := ⟨rfl, .refl r⟩
  -- The walk is in step with itself, and what its steps keep holds of its answer.
  obtain ⟨hanswer, -⟩ := source.inStep_walk hg hstep .forward p q hstart j j
  have hanswer' := congrArg Prod.fst h
  rw [appendFrom] at hanswer'
  rw [hanswer'] at hanswer
  rcases hanswer with ⟨-, happended⟩
  exact happended

end Recording

/-! ## Tapes that go on -/

namespace Tape

section Relations

variable {F : Type} {s : Scheme}

/-- What lasts whatever becomes of the statements: the settings, the functions, and the identifiers
that the recording remembers. -/
structure Later (lib : Library F) (t t' : Tape F s) : Prop where
  settings : t'.settings = t.settings
  known : t.registry.Grows t'.registry
  within : t.registry.Within lib → t'.registry.Within lib
  largest : t.recording.largest ≤ t'.recording.largest

/-- `t'` is `t` after some statements more or none at all. -/
structure Extends (lib : Library F) (t t' : Tape F s) : Prop extends Later lib t t' where
  recording : t.recording.Appended t'.recording
  counter : t.supply.mark ≤ t'.supply.mark

/-- `t` was reset to `q` and then extended to `t'`. -/
def Resumes (lib : Library F) (q : Position) (t t' : Tape F s) : Prop :=
  ∃ t₁ j j', (t.resetTo q).outcome j = (.ok t₁, j') ∧ Extends lib t₁ t'

/-- All that `t₀` held is still there in `t`. -/
structure Intact (t₀ t : Tape F s) : Prop where
  recording : t₀.recording.Continues t.recording
  counter : t₀.supply.mark ≤ t.supply.mark

end Relations

section Lemmas

variable {F : Type} {lib : Library F} {s : Scheme} {t t' t'' t₀ : Tape F s} {q : Position}
  {j j' : Journal}

theorem Later.refl (t : Tape F s) : Later lib t t := ⟨rfl, fun _ _ hf => hf, id, Nat.le_refl _⟩

theorem Later.trans (h : Later lib t t') (h' : Later lib t' t'') : Later lib t t'' where
  settings := h'.settings.trans h.settings
  known token f hf := h'.known token f (h.known token f hf)
  within hg := h'.within (h.within hg)
  largest := Nat.le_trans h.largest h'.largest

theorem Extends.of_appended (hsettings : t'.settings = t.settings)
    (hregistry : t'.registry = t.registry) (hrecording : t.recording.Appended t'.recording)
    (hmark : t.supply.mark ≤ t'.supply.mark) : Extends lib t t' := by
  refine ⟨⟨hsettings, ?_, ?_, hrecording.largest_le⟩, hrecording, hmark⟩
  · rw [hregistry]
    exact fun _ _ hf => hf
  · rw [hregistry]
    exact id

theorem Extends.refl (t : Tape F s) : Extends lib t t :=
  .of_appended rfl rfl (.refl _) (Nat.le_refl _)

theorem Extends.trans (h : Extends lib t t') (h' : Extends lib t' t'') : Extends lib t t'' :=
  ⟨h.toLater.trans h'.toLater, h.recording.trans h'.recording, Nat.le_trans h.counter h'.counter⟩

theorem Resumes.later (h : Resumes lib q t t') : Later lib t t' := by
  obtain ⟨t₁, k, k', hreset, hextends⟩ := h
  obtain ⟨supply, -, -, rfl⟩ := resetTo_cases hreset
  have hlater : Later lib t { t with recording := t.recording.truncate q, supply := supply } :=
    ⟨rfl, fun _ _ hf => hf, id, Nat.le_refl _⟩
  exact hlater.trans hextends.toLater

/-! ### What is still there -/

theorem Intact.refl (t : Tape F s) : t.Intact t := ⟨.refl _, Nat.le_refl _⟩

theorem Intact.contains (h : t₀.Intact t) : t.Contains t₀.position :=
  h.recording.contains_endPosition _

theorem Intact.precedes (h : t₀.Intact t) : t₀.position.Precedes t.position :=
  h.recording.precedes h.counter

theorem Intact.extends (h : t₀.Intact t) (he : Extends lib t t') : t₀.Intact t' :=
  ⟨h.recording.trans he.recording.continues, Nat.le_trans h.counter he.counter⟩

theorem Intact.resumes (h : t₀.Intact t) (hq : t₀.position.Precedes q)
    (hresumes : Resumes lib q t t') : t₀.Intact t' := by
  obtain ⟨t₁, k, k', hreset, hextends⟩ := hresumes
  obtain ⟨supply, hcontains, hsupply, rfl⟩ := resetTo_cases hreset
  have hmark : t₀.supply.mark ≤ supply.mark := by
    rw [Supply.mark_rewindTo hsupply]
    have hcounter : t₀.supply.mark ≤ q.counter := hq.counter
    cases s with
    | linear => exact Nat.le_trans hcounter (Nat.le_mul_of_pos_right _ Nat.one_pos)
    | reuse =>
      cases t₀.supply
      exact Nat.zero_le _
  have hreset : t₀.Intact { t with recording := t.recording.truncate q, supply := supply } :=
    ⟨h.recording.truncate hcontains hq, hmark⟩
  exact hreset.extends hextends

end Lemmas

/-! ## One step -/

section Steps

variable {F : Type} {lib : Library F} {s : Scheme} {t t' : Tape F s} {j j' : Journal}

theorem extends_register {key token : Nat} (h : t.register (lib.function key) = .ok (token, t')) :
    Extends lib t t' := by
  obtain ⟨hregister, heq⟩ := register_cases h
  rw [heq]
  exact ⟨⟨rfl, fun other f hf => Registry.get?_of_register hregister hf,
    fun hg => hg.register hregister, Nat.le_refl _⟩, .refl _, Nat.le_refl _⟩

theorem extends_release (lib : Library F) {identifier : Nat} (h : t.release identifier = .ok t') :
    Extends lib t t' := by
  obtain ⟨supply, hsupply, rfl⟩ := release_eq_ok_iff.1 h
  exact .of_appended rfl rfl (.refl _) (Nat.le_of_eq (Supply.mark_release hsupply).symm)

theorem extends_store (lib : Library F) {target identifier : Nat} {arguments : List (F × Nat)}
    (h : (t.store target arguments).outcome j = (.ok (identifier, t'), j')) :
    Extends lib t t' := by
  rcases store_cases h with ⟨-, -, hrelease⟩ | ⟨entries, supply, -, -, hclaim, rfl⟩
  · exact extends_release lib hrelease
  · refine .of_appended rfl rfl (.append (.refl _) _) ?_
    rw [Supply.mark_claim hclaim]
    exact Nat.le_add_right _ _

theorem extends_registerInput (lib : Library F) {identifier : Nat}
    (h : t.registerInput.outcome j = (.ok (identifier, t'), j')) : Extends lib t t' := by
  rcases registerInput_cases h with ⟨-, -, rfl⟩ | ⟨supply, -, hgenerate, rfl⟩
  · exact .refl _
  · refine .of_appended rfl rfl (.append (.refl _) _) ?_
    rw [Supply.mark_generate hgenerate]
    exact Nat.le_add_right _ _

theorem extends_registerOutput [One F] (lib : Library F) {identifier output : Nat}
    (h : (t.registerOutput identifier).outcome j = (.ok (output, t'), j')) : Extends lib t t' := by
  rcases registerOutput_cases h with ⟨-, rfl⟩ | ⟨t₁, k, hstore, -, hrelease⟩
  · exact .refl _
  · exact (extends_store lib hstore).trans (extends_release lib hrelease)

theorem extends_pushBlock (lib : Library F) {token fixedSize dynamicSize : Nat}
    {write : Writer → Writer → Except Fault (Writer × Writer)} {views : Option (Writer × Writer)}
    (h : (t.pushBlock token fixedSize dynamicSize write).outcome j = (.ok (views, t'), j')) :
    Extends lib t t' := by
  unfold pushBlock at h
  simp only [outcome_check_eq_ok_iff, outcome_bind_eq_ok_iff] at h
  obtain ⟨f, k, -, -, h⟩ := h
  split at h
  · simp only [outcome_bind_eq_ok_iff, outcome_pure_eq_ok_iff, Prod.mk.injEq] at h
    obtain ⟨_, _, _, ⟨fixed, dynamic⟩, _, _, _, _, _, _, _, _, ⟨-, rfl⟩, -⟩ := h
    exact .of_appended rfl rfl (.append (.refl _) _) (Nat.le_refl _)
  · rw [outcome_pure_eq_ok_iff, Prod.mk.injEq] at h
    rw [← h.1.2]
    exact .refl t

/-- A call extends the tape, or it is a reset to a position. -/
theorem call_cases [One F] {c : Call F} {a : Answer F}
    (hc : (t.call c).outcome j = (.ok (a, t'), j')) :
    Extends lib t t' ∨ ∃ q, c = .resetTo q ∧ Resumes lib q t t' := by
  cases c with
  | setActive active =>
    cases (outcome_pure_eq_ok_iff.1 hc).1
    exact Or.inl (.of_appended rfl rfl (.refl _) (Nat.le_refl _))
  | release identifier =>
    exact Or.inl (extends_release lib (outcome_liftM_eq_ok_iff.1 (outcome_done hc)).1)
  | store target arguments =>
    obtain ⟨_, hstore⟩ := outcome_answered hc
    exact Or.inl (extends_store lib hstore)
  | registerInput =>
    obtain ⟨_, hinput⟩ := outcome_answered hc
    exact Or.inl (extends_registerInput lib hinput)
  | registerOutput identifier =>
    obtain ⟨_, houtput⟩ := outcome_answered hc
    exact Or.inl (extends_registerOutput lib houtput)
  | pushBlock token fixedSize dynamicSize write =>
    obtain ⟨_, hblock⟩ := outcome_answered hc
    exact Or.inl (extends_pushBlock lib hblock)
  | resetTo q => exact Or.inr ⟨q, rfl, t', j, j', outcome_done hc, .refl _⟩

end Steps

/-! ### Editing -/

section Editing

variable {F : Type} {lib : Library F} {t t' source scratch scratch' : Tape F .reuse}
  {q r : Position} {j j' : Journal}

theorem extends_append (hsource : source.registry.Within lib)
    (h : (t.append source q r).outcome j = (.ok (.ok t'), j')) : Extends lib t t' := by
  unfold append at h
  rw [outcome_bind_eq_ok_iff] at h
  obtain ⟨refusal, k, -, h⟩ := h
  cases refusal with
  | some refusal => cases (outcome_pure_eq_ok_iff.1 h).1
  | none =>
    simp only [outcome_bind_eq_ok_iff, outcome_pure_eq_ok_iff] at h
    obtain ⟨⟨recording, n⟩, _, happend, _, _, -, ht', -⟩ := h
    cases ht'
    exact .of_appended rfl rfl (Recording.appended_of_appendFrom hsource happend) (Nat.le_refl _)

/-- Erasing from `q` on leaves the tape alone, or resets it to `q` and may put the tail back. -/
theorem eraseWith_resumes (ht : t.registry.Within lib) (hscratch : scratch.registry.Within lib)
    {result : Except Refusal Unit}
    (h : (t.eraseWith scratch q r).outcome j = (.ok (result, t', scratch'), j')) :
    t' = t ∨ Resumes lib q t t' := by
  unfold eraseWith at h
  split at h
  · cases (outcome_pure_eq_ok_iff.1 h).1
    exact Or.inl rfl
  · split at h
    · cases (outcome_pure_eq_ok_iff.1 h).1
      exact Or.inl rfl
    · rw [outcome_bind_eq_ok_iff] at h
      obtain ⟨away, k, haway, h⟩ := h
      cases away with
      | error refusal =>
        cases (outcome_pure_eq_ok_iff.1 h).1
        exact Or.inl rfl
      | ok scratch₁ =>
        have hscratch₁ := (extends_append ht haway).within hscratch
        simp only [outcome_bind_eq_ok_iff, outcome_pure_eq_ok_iff] at h
        obtain ⟨_, _, -, _, _, -, t₁, _, hreset, back, _, hback, _, _, -, hresult, -⟩ := h
        right
        refine ⟨t₁, _, _, hreset, ?_⟩
        cases back with
        | error refusal =>
          cases hresult
          exact .refl _
        | ok t₂ =>
          cases hresult
          exact extends_append hscratch₁ hback

theorem erase_resumes (ht : t.registry.Within lib) {result : Except Refusal Unit}
    (h : (t.erase q r).outcome j = (.ok (result, t'), j')) : t' = t ∨ Resumes lib q t t' := by
  unfold erase at h
  simp only [outcome_bind_eq_ok_iff, outcome_liftM_eq_ok_iff, outcome_pure_eq_ok_iff] at h
  obtain ⟨scratch, _, ⟨hscratch, -⟩, ⟨result', t₁, scratch'⟩, _, herase, heq, -⟩ := h
  cases heq
  have hwithin : scratch.registry.Within lib := by
    rw [registry_scratch hscratch]
    exact ht
  exact eraseWith_resumes ht hwithin herase

end Editing

end Tape

end Autodiff
