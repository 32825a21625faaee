import Autodiff.Proofs.Tape.Edits

/-!
# Erasing from a tape

Erasing appends what comes behind the range to a scratch tape, cuts the tape back to the start of
the range and appends the copy.  A request that is refused changes neither tape; otherwise both are
known to the last chunk.  This was the last way to change a tape, so every tape that can be reached
is aligned with its history.
-/

namespace Autodiff

open Recording

/-! ## The order of positions -/

namespace Position

theorem le_trans {p q r : Position} (hpq : p ≤ q) (hqr : q ≤ r) : p ≤ r :=
  List.le_trans hpq hqr

theorem not_le_of_lt {p q : Position} (h : p < q) : ¬q ≤ p :=
  fun hle => hle h

end Position

theorem Aligned.scratch {F : Type} {lib : Library F} {t t' : Tape F .reuse} {h : History F}
    (ht : Aligned lib t h) (hs : t.scratch = .ok t') : Aligned lib t' {} := by
  unfold Tape.scratch at hs
  rw [Fault.bind_eq_ok_iff] at hs
  obtain ⟨recording, hrecording, hs⟩ := hs
  cases hs
  exact ⟨Recording.spells_of_create hrecording, rfl, by simp, ht.within, by simp⟩

/-! ## Steps that come to an end -/

namespace Tape

variable {F : Type} {lib : Library F} {t source scratch : Tape F .reuse} {h h' : History F}
  {p q : Position} {i k : Nat}

theorem yields_resetTo_of_rewindTo {s : Scheme} {t : Tape F s} {p : Position} (hp : t.Contains p)
    {supply : Supply s} (hsupply : t.supply.rewindTo p.counter = .ok supply) :
    (t.resetTo p).Yields
      { t with recording := t.recording.truncate p, supply := supply } := by
  have hstatements := hp.1
  have hdistance := Chunked.distance_eq hstatements (Chunked.contains_endCut _)
    (Chunked.le_endCut hstatements)
  intro j
  simp only [resetTo, if_pos hp, hdistance, hsupply, Run.liftM_ok, pure_bind, Run.outcome_bind,
    Run.outcome_note, Run.outcome_pure]

theorem yields_resetTo (hp : t.Contains p) :
    (t.resetTo p).Yields { t with recording := t.recording.truncate p } :=
  yields_resetTo_of_rewindTo hp (t.supply.rewindTo_reuse p.counter)

/-- The tape with other statements, laid out as if it had recorded them one after another. -/
def holding (t : Tape F .reuse) (ss : List (Statement F)) : Tape F .reuse :=
  { t with recording := (ofStatements t.settings ss).withLargest t.recording.largest }

/-- The tape when its recording remembers the identifier `n`, too. -/
def recalling (t : Tape F .reuse) (n : Nat) : Tape F .reuse :=
  { t with recording := t.recording.recalling n }

/-- Cutting a tape back to where it stood before some statements. -/
theorem yields_resetTo_recorded (hsource : Aligned lib source h') {ss : List (Statement F)}
    (hss : ∀ x ∈ ss, x.Readable source.registry) :
    ((source.recordAll ss).resetTo source.position).Yields (source.recalling (largestOf ss)) := by
  obtain ⟨h₁, n, n₁, halign, hstart, -⟩ := hsource.exists_recorded hss
  have hyields := yields_resetTo (halign.contains hstart)
  have htruncate : (source.recordAll ss).recording.truncate source.position =
      source.recording.recalling (largestOf ss) :=
    hsource.spells.truncate_foldl_append ss source.supply.mark
  rwa [htruncate] at hyields

/-- Cutting a tape back and recording the statements `ss` of it again. -/
theorem recordAll_truncate (ht : Aligned lib t h) (hp : h.Valid p i) {ss : List (Statement F)}
    (hss : ∀ x ∈ ss, x ∈ h.statements) :
    recordAll { t with recording := t.recording.truncate p } ss =
      t.holding (h.statements.take i ++ ss) := by
  have hspells :=
    (ht.spells_split i).truncate_cutAfter (Scheme.reuse.counterAfter (h.statements.take i))
  rw [show cutAfter t.settings (h.statements.take i) _ = p from (ht.eq_place hp).2.symm] at hspells
  -- The largest identifier stays, since the tape knew all these statements before.
  have hlargest :
      (ss.foldl Recording.append (t.recording.truncate p)).largest = t.recording.largest :=
    largest_foldl_append_eq_self (r := t.recording.truncate p)
      fun x hx => ht.spells.largest x (hss x hx)
  have heq := (hspells.foldl_append ss).eq
  rw [hlargest] at heq
  rw [recordAll, holding, heq]

theorem yields_append_tail (ht : Aligned lib t h) (hq : h.Valid q k)
    (hshared : ∀ x ∈ h.statements.drop k, x.Shared scratch.registry t.registry) :
    (scratch.append t q t.position).Yields (.ok (scratch.recordAll (h.statements.drop k))) := by
  rw [← h.between_mark t.position] at hshared ⊢
  exact yields_append ht.mark (hq.mark _) (History.valid_mark _ _) (ht.eq_place hq).1 hshared

theorem yields_eraseWith (ht : Aligned lib t h) (hscratch : Aligned lib scratch h')
    (hp : h.Valid p i) (hq : h.Valid q k) (hle : p ≤ q)
    (hshared : ∀ x ∈ h.statements.drop k, x.Shared scratch.registry t.registry) :
    (t.eraseWith scratch p q).Yields (.ok (),
      t.holding (h.statements.take i ++ h.statements.drop k),
      scratch.recalling (largestOf (h.statements.drop k))) := by
  have hcontains := ht.contains hp
  have hreadable : ∀ x ∈ h.statements.drop k, x.Readable t.registry :=
    fun x hx => ht.readable x (List.mem_of_mem_drop hx)
  have hreadable' := hscratch.readable_of_shared ht hreadable hshared
  -- The five steps: away with the tail, how much is erased, back to the start, the tail again, and
  -- the scratch tape back to its own end.
  have haway := yields_append_tail ht hq hshared
  have hdistance := Chunked.distance_eq hcontains.1 (ht.contains hq).1 (Position.statements_le hle)
  have hcut := yields_resetTo hcontains
  have hback := yields_append_recorded (t := { t with recording := t.recording.truncate p })
    hscratch hreadable' fun x hx item hitem => (hshared x hx item hitem).symm
  rw [recordAll_truncate ht hp fun x hx => List.mem_of_mem_drop hx] at hback
  have hclear := yields_resetTo_recorded hscratch hreadable'
  rw [eraseWith, if_neg (not_not_intro hle), if_neg (not_not_intro hcontains)]
  refine haway.bind ((Run.yields_liftM hdistance).bind (Run.Yields.bind (fun j => rfl) ?_))
  exact hcut.bind (hback.bind (hclear.bind (Run.yields_pure _)))

/-! ## Refusals -/

/-- A position that lies behind the end of the tape, or that is none of its cuts at all. -/
def Beyond (t : Tape F .reuse) (p : Position) : Prop := t.position < p ∨ ¬t.Contains p

theorem exists_appendRefusal_of_beyond (hq : source.Beyond q) :
    ∃ refusal, t.appendRefusal source q source.position = .ok (some refusal) := by
  rw [appendRefusal]
  by_cases hle : q ≤ source.position
  · have hcontains : ¬(source.Contains q ∧ source.Contains source.position) := by
      rintro ⟨hcontains, -⟩
      rcases hq with hlt | hnot
      · exact Position.not_le_of_lt hlt hle
      · exact hnot hcontains
    rw [if_neg (not_not_intro hle), if_pos hcontains]
    exact ⟨_, rfl⟩
  · rw [if_pos hle]
    exact ⟨_, rfl⟩

/-- A refusal to append the tail is the answer, and the tapes are left alone. -/
theorem yields_eraseWith_of_refusal {refusal : Refusal} (hle : p ≤ q) (hp : t.Contains p)
    (hrefusal : scratch.appendRefusal t q t.position = .ok (some refusal)) :
    (t.eraseWith scratch p q).Yields (.error refusal, t, scratch) := by
  rw [eraseWith, if_neg (not_not_intro hle), if_neg (not_not_intro hp)]
  exact (yields_append_of_refusal hrefusal).bind (Run.yields_pure _)

/-- The tail is refused by the scratch tape, or all its functions are known there. -/
theorem tailRefusal_or_shared (scratch : Tape F .reuse) (ht : Aligned lib t h)
    (hq : h.Valid q k ∨ t.Beyond q) :
    (∃ refusal, scratch.appendRefusal t q t.position = .ok (some refusal)) ∨
    h.Valid q k ∧ ∀ x ∈ h.statements.drop k, x.Shared scratch.registry t.registry := by
  rcases hq with hq | hq
  · have hmark := hq.mark t.position
    have hend := h.valid_mark t.position
    obtain ⟨answer, hanswer⟩ := exists_appendRefusal (t := scratch) ht.mark hmark hend
    cases answer with
    | some refusal => exact Or.inl ⟨refusal, hanswer⟩
    | none =>
      have hshared := ((appendRefusal_eq_none_iff ht.mark hmark hend).1 hanswer).2
      rw [h.between_mark] at hshared
      exact Or.inr ⟨hq, hshared⟩
  · exact Or.inl (exists_appendRefusal_of_beyond hq)

/-- Erasing is refused with both tapes as they were, or nothing stands in its way. -/
theorem yields_eraseWith_or_shared (scratch : Tape F .reuse) (ht : Aligned lib t h)
    (hp : h.Valid p i ∨ t.Beyond p) (hq : h.Valid q k ∨ t.Beyond q) :
    (∃ refusal, (t.eraseWith scratch p q).Yields (.error refusal, t, scratch)) ∨
    h.Valid p i ∧ h.Valid q k ∧ p ≤ q ∧
      ∀ x ∈ h.statements.drop k, x.Shared scratch.registry t.registry := by
  by_cases hle : p ≤ q
  · by_cases hcontains : t.Contains p
    · rcases tailRefusal_or_shared scratch ht hq with
        ⟨refusal, hrefusal⟩ | ⟨hq, hshared⟩
      · exact Or.inl ⟨refusal, yields_eraseWith_of_refusal hle hcontains hrefusal⟩
      · -- A start behind the end of the tape would lie behind `q` too.
        have hend : q ≤ t.position :=
          (ht.mark.le_iff (hq.mark _) (h.valid_mark _)).2 (ht.eq_place hq).1
        have hvalid : h.Valid p i := by
          rcases hp with hp | hlt | hnot
          · exact hp
          · exact absurd (Position.le_trans hle hend) (Position.not_le_of_lt hlt)
          · exact absurd hcontains hnot
        exact Or.inr ⟨hvalid, hq, hle, hshared⟩
    · refine Or.inl ⟨.foreignPosition, ?_⟩
      rw [eraseWith, if_neg (not_not_intro hle), if_pos hcontains]
      exact Run.yields_pure _
  · refine Or.inl ⟨.reversedRange, ?_⟩
    rw [eraseWith, if_pos hle]
    exact Run.yields_pure _

/-- Erasing leaves both tapes alone, or the tape without the range. -/
theorem eraseWith_cases (ht : Aligned lib t h) (hscratch : Aligned lib scratch h')
    {result : Except Refusal Unit} {t' scratch' : Tape F .reuse} {j j' : Journal}
    (hp : h.Valid p i) (hq : h.Valid q k)
    (hr : (t.eraseWith scratch p q).outcome j = (.ok (result, t', scratch'), j')) :
    (∃ refusal, result = .error refusal ∧ t' = t) ∨
    result = .ok () ∧ t' = t.holding (h.statements.take i ++ h.statements.drop k) := by
  rcases yields_eraseWith_or_shared scratch ht (Or.inl hp) (Or.inl hq) with
    ⟨refusal, hrefused⟩ | ⟨-, -, hle, hshared⟩
  · have heq := hrefused.eq_of_outcome hr
    cases heq
    exact Or.inl ⟨refusal, rfl, rfl⟩
  · have heq := (yields_eraseWith ht hscratch hp hq hle hshared).eq_of_outcome hr
    cases heq
    exact Or.inr ⟨rfl, rfl⟩

theorem erase_cases (ht : Aligned lib t h) {result : Except Refusal Unit} {t' : Tape F .reuse}
    {j j' : Journal} (hp : h.Valid p i) (hq : h.Valid q k)
    (hr : (t.erase p q).outcome j = (.ok (result, t'), j')) :
    (∃ refusal, result = .error refusal ∧ t' = t) ∨
    result = .ok () ∧ t' = t.holding (h.statements.take i ++ h.statements.drop k) := by
  unfold erase at hr
  simp only [Run.outcome_bind_eq_ok_iff, Run.outcome_liftM_eq_ok_iff,
    Run.outcome_pure_eq_ok_iff] at hr
  obtain ⟨scratch, _, ⟨hscratch, -⟩, ⟨result', t₁, scratch'⟩, _, herase, hr, -⟩ := hr
  cases hr
  exact eraseWith_cases ht (ht.scratch hscratch) hp hq herase

end Tape

/-! ## Histories of shorter tapes -/

namespace Aligned

variable {F : Type} {lib : Library F} {t t' : Tape F .reuse} {h h' : History F} {p q : Position}
  {i k : Nat}

theorem holding (ht : Aligned lib t h) (hp : h.Valid p i) (k : Nat) :
    Aligned lib (t.holding (h.statements.take i ++ h.statements.drop k)) (h.erase p i k) := by
  obtain ⟨j, hcut⟩ := (Tape.yields_resetTo (ht.contains hp)).exists_outcome {}
  rw [← Tape.recordAll_truncate ht hp fun x hx => List.mem_of_mem_drop hx]
  exact (ht.resetTo hp hcut).recordAll fun x hx => ht.readable x (List.mem_of_mem_drop hx)

theorem eraseWith {scratch scratch' : Tape F .reuse} (ht : Aligned lib t h)
    (hscratch : Aligned lib scratch h') {result : Except Refusal Unit} {j j' : Journal}
    (hp : h.Valid p i) (hq : h.Valid q k)
    (hr : (t.eraseWith scratch p q).outcome j = (.ok (result, t', scratch'), j')) :
    Aligned lib t' (h.erased p i k result) := by
  rcases Tape.eraseWith_cases ht hscratch hp hq hr with ⟨refusal, rfl, rfl⟩ | ⟨rfl, rfl⟩
  · exact ht
  · exact ht.holding hp k

theorem erase (ht : Aligned lib t h) {result : Except Refusal Unit} {j j' : Journal}
    (hp : h.Valid p i) (hq : h.Valid q k)
    (hr : (t.erase p q).outcome j = (.ok (result, t'), j')) :
    Aligned lib t' (h.erased p i k result) := by
  rcases Tape.erase_cases ht hp hq hr with ⟨refusal, rfl, rfl⟩ | ⟨rfl, rfl⟩
  · exact ht
  · exact ht.holding hp k

end Aligned

/-- Every reachable tape is aligned with its history. -/
theorem Reached.aligned {F : Type} [Zero F] [One F] [FixedWidth F] {lib : Library F} {s : Scheme}
    {t : Tape F s} {h : History F} (hr : Reached lib t h) : Aligned lib t h := by
  induction hr with
  | create hc => exact .create hc
  | setVector v _ ih => exact ih.of_eq rfl rfl rfl rfl
  | step _ _ ih hstep =>
    cases hstep with
    | register hc => exact ih.register hc
    | setActive active => exact ih.of_eq rfl rfl rfl rfl
    | mark => exact ih.mark
    | release hc => exact ih.release hc
    | store hc => exact ih.store hc
    | registerInput hc => exact ih.registerInput hc
    | registerOutput hc => exact ih.registerOutput hc
    | pushBlock hwrite hc => exact ih.pushBlock hwrite hc
    | reset hc => exact ih.reset hc
    | resetTo hp hc => exact ih.resetTo hp hc
    | append hsource hp hq hc => exact ih.append hsource.2 hp hq hc
    | erase hp hq hc => exact ih.erase hp hq hc
    | eraseWith hscratch hp hq hc => exact ih.eraseWith hscratch.2 hp hq hc

/-! ## What all statements have in common -/

theorem History.mem_of_mem_erased {F : Type} {h : History F} {p : Position} {i k : Nat}
    {result : Except Refusal Unit} {x : Statement F}
    (hx : x ∈ (h.erased p i k result).statements) : x ∈ h.statements := by
  cases result with
  | error refusal => exact hx
  | ok u =>
    rcases List.mem_append.1 hx with hx | hx
    · exact List.mem_of_mem_take hx
    · exact List.mem_of_mem_drop hx

section Reached

variable {F : Type} [Zero F] [One F] [FixedWidth F] {lib : Library F} {s : Scheme} {t : Tape F s}
  {h : History F}

/-- What holds of every statement when it is recorded first holds of all that a tape has, since
cutting, appending and erasing make no statements of their own. -/
theorem Reached.forall_statements {P : Statement F → Prop}
    (hassign : ∀ {s : Scheme} {t t' : Tape F s} {h : History F} {target identifier : Nat}
      {arguments : List (F × Nat)} {j j' : Journal}, Reached lib t h →
      (t.store target arguments).outcome j = (.ok (identifier, t'), j') →
      ∀ x ∈ t.newAssignment identifier arguments, P x)
    (hinput : ∀ {s : Scheme} {t t' : Tape F s} {h : History F} {identifier : Nat}
      {j j' : Journal}, Reached lib t h →
      t.registerInput.outcome j = (.ok (identifier, t'), j') → ∀ x ∈ t.newInput identifier, P x)
    (hblock : ∀ {s : Scheme} {t t' : Tape F s} {token fixedSize dynamicSize : Nat}
      {write : Writer → Writer → Except Fault (Writer × Writer)} {views : Option (Writer × Writer)}
      {j j' : Journal}, Fills write →
      (t.pushBlock token fixedSize dynamicSize write).outcome j = (.ok (views, t'), j') →
      ∀ x ∈ newBlock token views, P x)
    (hr : Reached lib t h) : ∀ x ∈ h.statements, P x := by
  induction hr with
  | create => exact fun x hx => absurd hx List.not_mem_nil
  | setVector _ _ ih => exact ih
  | step hr _ ih hstep =>
    cases hstep with
    | register | setActive | mark | release => exact ih
    | store hc => exact fun x hx => (List.mem_append.1 hx).elim (ih x) (hassign hr hc x)
    | registerInput hc => exact fun x hx => (List.mem_append.1 hx).elim (ih x) (hinput hr hc x)
    | registerOutput hc =>
      rcases Tape.registerOutput_cases hc with ⟨hnew, -⟩ | ⟨t₁, k, hstore, hnew, -⟩
      · rw [hnew, History.extend_nil]
        exact ih
      · rw [hnew]
        exact fun x hx => (List.mem_append.1 hx).elim (ih x) (hassign hr hstore x)
    | pushBlock hwrite hc =>
      exact fun x hx => (List.mem_append.1 hx).elim (ih x) (hblock hwrite hc x)
    | reset => exact fun x hx => absurd hx List.not_mem_nil
    | resetTo => exact fun x hx => ih x (List.mem_of_mem_take hx)
    | append hsource =>
      intro x hx
      rcases List.mem_append.1 hx with hx | hx
      · exact ih x hx
      · exact hsource.2 x (List.mem_of_mem_take (List.mem_of_mem_drop hx))
    | erase | eraseWith => exact fun x hx => ih x (History.mem_of_mem_erased hx)

end Reached

end Autodiff
