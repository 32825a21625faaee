import Autodiff.Proofs.Tape.Erased

/-!
# Refusals

Which refusal a request to append or to erase ends with, for positions of the tape and for
positions that it gave out before it was cut back to a place in front of them.  Both requests refuse
a reversed range first and a foreign position after that, with one exception: a range that starts on
the tape and ends behind it is reversed for erasing, because the check of its end is left to the
request that appends the tail, and there the end comes first.
-/

namespace Autodiff

namespace Position

theorem not_le_iff {p q : Position} : ¬p ≤ q ↔ q < p := Decidable.not_not

theorem le_of_lt {p q : Position} (h : p < q) : p ≤ q :=
  (le_total p q).resolve_right (not_le_of_lt h)

theorem lt_trans {p q r : Position} (hpq : p < q) (hqr : q < r) : p < r :=
  not_le_iff.1 fun hrp => not_le_of_lt hqr (le_trans hrp (le_of_lt hpq))

end Position

/-! ## Positions behind the end -/

theorem Recording.Contains.le_endPosition {F : Type} {r : Recording F} {p : Position}
    {counter : Nat} (h : r.Contains p) (hcounter : p.counter ≤ counter) :
    p ≤ r.endPosition counter := by
  obtain ⟨hstatements, hpartials, htokens, hfixed, hdynamic⟩ := h
  exact Position.Precedes.le ⟨Chunked.le_endCut hstatements, Chunked.le_endCut hpartials,
    Chunked.le_endCut htokens, Chunked.le_endCut hfixed, Chunked.le_endCut hdynamic, hcounter⟩

namespace Tape

variable {F : Type} {t source : Tape F .reuse} {p q : Position}

/-- A position that a tape gave out and behind whose end it lies, after the tape was cut back. -/
def Stale (t : Tape F .reuse) (p : Position) : Prop :=
  t.position < p ∧ ∃ t₀ : Tape F .reuse, p = t₀.position

theorem counter_position (t : Tape F .reuse) : t.position.counter = 0 := by
  show t.supply.mark = 0
  cases t.supply
  rfl

theorem Stale.not_contains (hp : t.Stale p) : ¬t.Contains p := by
  obtain ⟨hlt, t₀, rfl⟩ := hp
  intro hcontains
  have hcounter : t₀.position.counter ≤ t.supply.mark := by
    rw [t₀.counter_position]
    exact Nat.zero_le _
  exact Position.not_le_of_lt hlt (hcontains.le_endPosition hcounter)

end Tape

/-! ## Appending -/

namespace Tape

variable {F : Type} {lib : Library F} {t source : Tape F .reuse} {h h' : History F}
  {p q : Position} {i k : Nat}

theorem appendRefusal_of_lt (hlt : q < p) :
    t.appendRefusal source p q = .ok (some .reversedRange) := by
  rw [appendRefusal, if_pos (Position.not_le_iff.2 hlt)]
  rfl

theorem appendRefusal_of_not_contains (hle : p ≤ q)
    (hcontains : ¬(source.Contains p ∧ source.Contains q)) :
    t.appendRefusal source p q = .ok (some .foreignPosition) := by
  rw [appendRefusal, if_neg (not_not_intro hle), if_pos hcontains]
  rfl

/-- What the functions of two tapes have to do with a refusal. -/
theorem tokensRefusal_cases {tokens : List Nat} {refusal : Refusal}
    (hr : t.tokensRefusal source tokens = .ok (some refusal)) :
    ∃ token, refusal = .unknownToken token ∨
      ∃ theirs ours, refusal = .incompatibleToken token theirs ours := by
  induction tokens with
  | nil => cases hr
  | cons token tokens ih =>
    rw [tokensRefusal, Fault.bind_eq_ok_iff] at hr
    obtain ⟨answer, hanswer, hr⟩ := hr
    cases answer with
    | none => exact ih hr
    | some found =>
      cases hr
      rw [tokenRefusal, Fault.bind_eq_ok_iff] at hanswer
      obtain ⟨theirs, -, hanswer⟩ := hanswer
      refine ⟨token, ?_⟩
      cases hours : t.registry.get? token with
      | none =>
        rw [hours] at hanswer
        cases hanswer
        exact Or.inl rfl
      | some ours =>
        rw [hours] at hanswer
        -- A function that is the same on both tapes is no reason to refuse.
        by_cases hkey : ours.key = theirs.key
        · simp [hkey, pure, Except.pure] at hanswer
        · simp only [hkey, ↓reduceIte, pure, Except.pure, Except.ok.injEq, Option.some.injEq]
            at hanswer
          exact Or.inr ⟨_, _, hanswer.symm⟩

theorem appendRefusal_of_contains (hle : p ≤ q)
    (hcontains : source.Contains p ∧ source.Contains q) {refusal : Refusal}
    (hr : t.appendRefusal source p q = .ok (some refusal)) :
    refusal ≠ .reversedRange ∧ refusal ≠ .foreignPosition := by
  rw [appendRefusal, if_neg (not_not_intro hle), if_neg (not_not_intro hcontains),
    Fault.bind_eq_ok_iff] at hr
  obtain ⟨tokens, -, hr⟩ := hr
  obtain ⟨token, rfl | ⟨theirs, ours, rfl⟩⟩ := tokensRefusal_cases hr
  · constructor <;> rintro ⟨⟩
  · constructor <;> rintro ⟨⟩

/-- The refusals of a request are those of its range, the reversed one first. -/
structure ReportsRange {α : Type} (t : Tape F .reuse) (p q : Position)
    (result : Except Refusal α) : Prop where
  reversed : result = .error .reversedRange ↔ q < p
  foreign : result = .error .foreignPosition ↔ p ≤ q ∧ ¬(t.Contains p ∧ t.Contains q)

section Reports

variable {α : Type}

theorem reportsRange_of_lt (hlt : q < p) :
    t.ReportsRange p q (.error .reversedRange : Except Refusal α) :=
  ⟨by simp [hlt], by simp [Position.not_le_of_lt hlt]⟩

theorem reportsRange_of_not_contains (hle : p ≤ q) (hcontains : ¬(t.Contains p ∧ t.Contains q)) :
    t.ReportsRange p q (.error .foreignPosition : Except Refusal α) := by
  have hlt : ¬q < p := fun hlt => Position.not_le_of_lt hlt hle
  exact ⟨by simp [hlt], by simp [hle, hcontains]⟩

theorem reportsRange_of_contains (hle : p ≤ q) (hcontains : t.Contains p ∧ t.Contains q)
    {result : Except Refusal α} (hreversed : result ≠ .error .reversedRange)
    (hforeign : result ≠ .error .foreignPosition) : t.ReportsRange p q result := by
  have hlt : ¬q < p := fun hlt => Position.not_le_of_lt hlt hle
  exact ⟨by simp [hlt, hreversed], by simp [hcontains, hforeign]⟩

end Reports

/-- A position of the tape, or one behind its end that it gave out before. -/
def Given (t : Tape F .reuse) (h : History F) (p : Position) : Prop :=
  (∃ i, h.Valid p i) ∨ t.Stale p

theorem Given.exists_valid (hp : t.Given h p) (hcontains : t.Contains p) : ∃ i, h.Valid p i :=
  hp.resolve_right fun hstale => hstale.not_contains hcontains

theorem exists_append (hsource : Aligned lib source h') (hp : source.Given h' p)
    (hq : source.Given h' q) (t : Tape F .reuse) :
    ∃ result, (t.append source p q).Yields result ∧ source.ReportsRange p q result := by
  by_cases hle : p ≤ q
  · by_cases hcontains : source.Contains p ∧ source.Contains q
    · obtain ⟨i, hpi⟩ := hp.exists_valid hcontains.1
      obtain ⟨k, hqk⟩ := hq.exists_valid hcontains.2
      obtain ⟨answer, hanswer⟩ := exists_appendRefusal (t := t) hsource hpi hqk
      -- Nothing is wrong with the range, so what may be left to refuse are functions.
      cases answer with
      | none =>
        obtain ⟨hik, hshared⟩ := (appendRefusal_eq_none_iff hsource hpi hqk).1 hanswer
        exact ⟨_, yields_append hsource hpi hqk hik hshared,
          reportsRange_of_contains hle hcontains nofun nofun⟩
      | some refusal =>
        obtain ⟨hreversed, hforeign⟩ := appendRefusal_of_contains hle hcontains hanswer
        exact ⟨_, yields_append_of_refusal hanswer, reportsRange_of_contains hle hcontains
          (fun heq => hreversed (Except.error.inj heq))
          fun heq => hforeign (Except.error.inj heq)⟩
    · exact ⟨_, yields_append_of_refusal (appendRefusal_of_not_contains hle hcontains),
        reportsRange_of_not_contains hle hcontains⟩
  · have hlt := Position.not_le_iff.1 hle
    exact ⟨_, yields_append_of_refusal (appendRefusal_of_lt hlt), reportsRange_of_lt hlt⟩

/-! ## Erasing -/

theorem yields_eraseWith_of_lt (hlt : q < p) (scratch : Tape F .reuse) :
    (t.eraseWith scratch p q).Yields (.error .reversedRange, t, scratch) := by
  rw [eraseWith, if_pos (Position.not_le_iff.2 hlt)]
  exact Run.yields_pure _

theorem yields_eraseWith_of_foreign_start (hle : p ≤ q) (hp : ¬t.Contains p)
    (scratch : Tape F .reuse) :
    (t.eraseWith scratch p q).Yields (.error .foreignPosition, t, scratch) := by
  rw [eraseWith, if_neg (not_not_intro hle), if_pos hp]
  exact Run.yields_pure _

/-- The tail of the tape would begin behind its end, so it is the tail that is reversed. -/
theorem yields_eraseWith_of_stale_stop (hle : p ≤ q) (hp : t.Contains p) (hq : t.Stale q)
    (scratch : Tape F .reuse) :
    (t.eraseWith scratch p q).Yields (.error .reversedRange, t, scratch) :=
  yields_eraseWith_of_refusal hle hp (appendRefusal_of_lt hq.1)

end Tape

section Reached

variable {F : Type} [Zero F] [One F] [FixedWidth F] {lib : Library F} {t : Tape F .reuse}
  {h : History F} {p q : Position} {i k : Nat}

theorem Reached.yields_erase_of_refusal {refusal : Refusal} (hr : Reached lib t h)
    (hrefused : ∀ scratch, (t.eraseWith scratch p q).Yields (.error refusal, t, scratch)) :
    (t.erase p q).Yields (.error refusal, t) := by
  obtain ⟨scratch, hscratch⟩ := hr.exists_scratch
  exact (Run.yields_liftM hscratch).bind ((hrefused scratch).bind (Run.yields_pure _))

/-- Between positions of the tape only the order of the two matters. -/
theorem Reached.exists_erase (hr : Reached lib t h) (hp : h.Valid p i) (hq : h.Valid q k) :
    ∃ result t', (t.erase p q).Yields (result, t') ∧ t'.supply = t.supply ∧
      (result = .ok () ↔ p ≤ q) := by
  by_cases hle : p ≤ q
  · exact ⟨_, _, hr.yields_erase hp hq hle, rfl, by simp [hle]⟩
  · have hlt := Position.not_le_iff.1 hle
    exact ⟨_, _, hr.yields_erase_of_refusal (Tape.yields_eraseWith_of_lt hlt), rfl, by simp [hle]⟩

/-- Appending and erasing report what is wrong with a range, but a range that starts on the tape and
ends behind it is called reversed when it is to be erased. -/
theorem erasing_reports_the_range_unless_it_ends_behind (hr : Reached lib t h)
    (hp : t.Given h p) (hq : t.Given h q) :
    (∀ other : Tape F .reuse, ∃ result, (other.append t p q).Yields result ∧
      t.ReportsRange p q result) ∧
    ∃ result t', (t.erase p q).Yields (result, t') ∧
      (result = .ok () ↔ p ≤ q ∧ t.Contains p ∧ t.Contains q) ∧
      (t.ReportsRange p q result ↔ ¬(p ≤ q ∧ t.Contains p ∧ ¬t.Contains q)) ∧
      (p ≤ q ∧ t.Contains p ∧ ¬t.Contains q → result = .error .reversedRange) := by
  refine ⟨fun other => Tape.exists_append hr.aligned hp hq other, ?_⟩
  by_cases hle : p ≤ q
  · by_cases hstart : t.Contains p
    · by_cases hstop : t.Contains q
      · obtain ⟨i, hpi⟩ := hp.exists_valid hstart
        obtain ⟨k, hqk⟩ := hq.exists_valid hstop
        have hyields := hr.yields_erase hpi hqk hle
        have hreports : t.ReportsRange p q (.ok () : Except Refusal Unit) :=
          Tape.reportsRange_of_contains hle ⟨hstart, hstop⟩ nofun nofun
        exact ⟨_, _, hyields, by simp [hle, hstart, hstop],
          iff_of_true hreports (by simp [hstop]), by simp [hstop]⟩
      -- Valid positions are on the tape, so the end is one that was cut off.
      · have hstale : t.Stale q := by
          rcases hq with ⟨k, hqk⟩ | hstale
          · exact absurd (hr.aligned.contains hqk) hstop
          · exact hstale
        have hyields := hr.yields_erase_of_refusal
          (Tape.yields_eraseWith_of_stale_stop hle hstart hstale)
        have hreports : ¬t.ReportsRange p q (.error .reversedRange : Except Refusal Unit) :=
          fun hreports => Position.not_le_of_lt (hreports.reversed.1 rfl) hle
        exact ⟨_, _, hyields, by simp [hstop],
          iff_of_false hreports (by simp [hle, hstart, hstop]), fun _ => rfl⟩
    · have hyields := hr.yields_erase_of_refusal
        (Tape.yields_eraseWith_of_foreign_start hle hstart)
      have hreports : t.ReportsRange p q (.error .foreignPosition : Except Refusal Unit) :=
        Tape.reportsRange_of_not_contains hle (by simp [hstart])
      exact ⟨_, _, hyields, by simp [hstart], iff_of_true hreports (by simp [hstart]),
        by simp [hstart]⟩
  · have hlt := Position.not_le_iff.1 hle
    have hyields := hr.yields_erase_of_refusal (Tape.yields_eraseWith_of_lt hlt)
    have hreports : t.ReportsRange p q (.error .reversedRange : Except Refusal Unit) :=
      Tape.reportsRange_of_lt hlt
    exact ⟨_, _, hyields, by simp [hle], iff_of_true hreports (by simp [hle]), by simp [hle]⟩

end Reached

/-- A tape that was cut back to where it stood after its first statement, and the tapes that it was
after the second and the third. -/
theorem exists_cut_back : ∃ (t t₁ t₂ : Tape Int .reuse) (h h₁ h₂ : History Int),
    Reached .counting t h ∧ Reached .counting t₁ h₁ ∧ Reached .counting t₂ h₂ ∧
      h.Valid t.position 1 ∧ t.position < t₁.position ∧ t₁.position < t₂.position := by
  have hcreate : Reached (.counting : Library Int) (s := .reuse) _ _ :=
    .create (show Tape.create {} #[] = _ from rfl)
  have hinput := hcreate.step (.registerInput (show (Tape.registerInput _).outcome {} = _ from rfl))
  have hfirst := hinput.mark.step (.store (show (Tape.store _ 0 [(-1, 1)]).outcome {} = _ from rfl))
  have hsecond := hfirst.mark.step (.store
    (show (Tape.store _ 0 [(-1, 1)]).outcome {} = _ from rfl))
  have hcut := hsecond.step (.resetTo ((((History.valid_mark _ _).extend _).mark _).extend _)
    (show (Tape.resetTo _ _).outcome {} = _ from rfl))
  refine ⟨_, _, _, _, _, _, hcut.mark, hfirst, hsecond, History.valid_mark _ _, ?_, ?_⟩
  · decide
  · decide

/-- Two positions behind the end of that tape are foreign to both requests. -/
theorem erasing_reports_the_range_of_foreign_start :
    ∃ (t : Tape Int .reuse) (h : History Int) (p q : Position), Reached .counting t h ∧
      t.Given h p ∧ t.Given h q ∧ p ≤ q ∧
      (∃ t', (t.erase p q).Yields (.error .foreignPosition, t')) ∧
      ∀ other : Tape Int .reuse, (other.append t p q).Yields (.error .foreignPosition) := by
  obtain ⟨t, t₁, t₂, h, -, -, hr, -, -, -, hlt, hlt'⟩ := exists_cut_back
  have hstart : t.Stale t₁.position := ⟨hlt, t₁, rfl⟩
  have hstop : t.Stale t₂.position := ⟨Position.lt_trans hlt hlt', t₂, rfl⟩
  have hle := Position.le_of_lt hlt'
  obtain ⟨happend, result, t', herase, -, hreports, -⟩ :=
    erasing_reports_the_range_unless_it_ends_behind hr (Or.inr hstart) (Or.inr hstop)
  have hforeign := (hreports.2 (by simp [hstart.not_contains])).foreign.2
    ⟨hle, by simp [hstart.not_contains]⟩
  refine ⟨t, h, _, _, hr, Or.inr hstart, Or.inr hstop, hle, ⟨t', hforeign ▸ herase⟩, ?_⟩
  intro other
  obtain ⟨result', hyields, hreports'⟩ := happend other
  rwa [hreports'.foreign.2 ⟨hle, by simp [hstart.not_contains]⟩] at hyields

/-- From where that tape stands to a position behind its end: nothing is reversed about such a
range, and to append it is refused with the other refusal. -/
theorem erasing_calls_range_reversed_of_stale_stop :
    ∃ (t : Tape Int .reuse) (h : History Int) (p q : Position), Reached .counting t h ∧
      h.Valid p 1 ∧ t.Stale q ∧ p ≤ q ∧ ¬t.Contains q ∧
      (t.erase p q).Yields (.error .reversedRange, t) ∧
      ∀ other : Tape Int .reuse, (other.append t p q).Yields (.error .foreignPosition) := by
  obtain ⟨t, t₁, -, h, -, -, hr, -, -, hp, hlt, -⟩ := exists_cut_back
  have hstop : t.Stale t₁.position := ⟨hlt, t₁, rfl⟩
  have hle := Position.le_of_lt hlt
  refine ⟨t, h, _, _, hr, hp, hstop, hle, hstop.not_contains, ?_, fun other => ?_⟩
  · exact hr.yields_erase_of_refusal
      (Tape.yields_eraseWith_of_stale_stop hle (hr.aligned.contains hp) hstop)
  · exact Tape.yields_append_of_refusal
      (Tape.appendRefusal_of_not_contains hle (by simp [hstop.not_contains]))

end Autodiff
