import Autodiff.Proofs.Tape.Appending
import Autodiff.Proofs.Tape.Intact

/-!
# What erasing leaves

After a range was erased the tape is as if the range had never been recorded, whatever the scratch
tape is like.  Erasing is done as a whole or refused as a whole: once the tail of the tape was
copied away, nothing can keep it from being copied back.
-/

namespace Autodiff

open Recording

section Reached

variable {F : Type} [Zero F] [One F] [FixedWidth F] {lib : Library F}

/-- A tape keeps its settings, so an empty recording with the settings of it can always be made. -/
theorem Reached.exists_create {s : Scheme} {t : Tape F s} {h : History F} (hr : Reached lib t h) :
    ∃ r : Recording F, Recording.create t.settings = .ok r := by
  induction hr with
  | create hc =>
    obtain ⟨hrecording, -, -, hsettings, -⟩ := Tape.create_cases hc
    exact ⟨_, hsettings ▸ hrecording⟩
  | setVector _ _ ih => exact ih
  | step hr _ ih hstep =>
    cases hstep with
    | register hc => rwa [(Tape.extends_register hc).settings]
    | setActive | mark => exact ih
    | release hc => rwa [(Tape.extends_release lib hc).settings]
    | store hc => rwa [(Tape.extends_store lib hc).settings]
    | registerInput hc => rwa [(Tape.extends_registerInput lib hc).settings]
    | registerOutput hc => rwa [(Tape.extends_registerOutput lib hc).settings]
    | pushBlock hwrite hc => rwa [(Tape.extends_pushBlock lib hc).settings]
    | reset hc =>
      obtain ⟨-, -, -, hsettings⟩ := Tape.reset_cases hc
      rwa [hsettings]
    | resetTo hp hc =>
      obtain ⟨supply, -, -, rfl⟩ := Tape.resetTo_cases hc
      exact ih
    | append hsource hp hq hc =>
      obtain ⟨hsource, -⟩ := hsource
      rwa [(Tape.extends_append hsource.aligned.within hc).settings]
    | erase hp hq hc =>
      rcases Tape.erase_resumes hr.aligned.within hc with rfl | hresumes
      · exact ih
      · rwa [hresumes.later.settings]
    | eraseWith hscratch hp hq hc =>
      obtain ⟨hscratch, -⟩ := hscratch
      rcases Tape.eraseWith_resumes hr.aligned.within hscratch.aligned.within hc with
        rfl | hresumes
      · exact ih
      · rwa [hresumes.later.settings]

variable {t scratch : Tape F .reuse} {h h' : History F} {p q : Position} {i k : Nat}

theorem Reached.exists_scratch (hr : Reached lib t h) : ∃ scratch, t.scratch = .ok scratch := by
  obtain ⟨r, hcreate⟩ := hr.exists_create
  rw [Tape.scratch, hcreate]
  exact ⟨_, rfl⟩

theorem Reached.yields_erase (hr : Reached lib t h) (hp : h.Valid p i) (hq : h.Valid q k)
    (hle : p ≤ q) :
    (t.erase p q).Yields (.ok (), t.holding (h.statements.take i ++ h.statements.drop k)) := by
  obtain ⟨scratch, hscratch⟩ := hr.exists_scratch
  have ht := hr.aligned
  have hshared : ∀ x ∈ h.statements.drop k, x.Shared scratch.registry t.registry := by
    rw [Tape.registry_scratch hscratch]
    exact fun x hx => (ht.readable x (List.mem_of_mem_drop hx)).shared
  have herase := Tape.yields_eraseWith ht (ht.scratch hscratch) hp hq hle hshared
  exact (Run.yields_liftM hscratch).bind (herase.bind (Run.yields_pure _))

/-- Erasing a range leaves the statements before it and behind it, laid out as if only they had been
recorded, by way of any scratch tape that has the functions of what comes behind the range. -/
theorem erasing_equals_never_recording (hr : Reached lib t h) (hp : h.Valid p i)
    (hq : h.Valid q k) (hle : p ≤ q) :
    ∃ t', (∃ r, t' = { t with recording := r } ∧
        r.Holds (h.statements.take i ++ h.statements.drop k) ∧
        r.Spells t.settings (h.statements.take i ++ h.statements.drop k)) ∧
      (∀ scratch h', Reached lib scratch h' →
        (∀ x ∈ h.statements.drop k, x.Shared scratch.registry t.registry) →
        ∃ scratch', (t.eraseWith scratch p q).Yields (.ok (), t', scratch')) ∧
      (t.erase p q).Yields (.ok (), t') ∧
      ∀ o n, h.Valid o n → o ≤ p → (h.erase p i k).Valid o n ∧
        t.Denotes o (h.statements.take n) ∧ t'.Denotes o (h.statements.take n) := by
  have ht := hr.aligned
  have halign := ht.holding hp k
  refine ⟨t.holding (h.statements.take i ++ h.statements.drop k),
    ⟨_, rfl, halign.spells.holds, halign.spells⟩, ?_, hr.yields_erase hp hq hle, ?_⟩
  · intro scratch h' hr' hshared
    exact ⟨_, Tape.yields_eraseWith ht hr'.aligned hp hq hle hshared⟩
  · intro o n ho hop
    have hvalid : (h.erase p i k).Valid o n := (ho.cut hop i).extend _
    have hni : n ≤ i := (ht.le_iff ho hp).1 hop
    have hprefix : (h.erase p i k).statements.take n = h.statements.take n := by
      show (h.statements.take i ++ h.statements.drop k).take n = h.statements.take n
      have hi := (ht.eq_place hp).1
      rw [List.take_append_of_le_length (by rw [List.length_take]; omega), List.take_take,
        Nat.min_eq_left hni]
    exact ⟨hvalid, ht.denotes ho, hprefix ▸ halign.denotes hvalid⟩

/-- Erasing is done or refused, and a refusal leaves both tapes as they were.  Once the tail of the
tape has been appended to the scratch tape, appending it back is not refused any more. -/
theorem erasing_is_all_or_nothing (hr : Reached lib t h) (hr' : Reached lib scratch h')
    (hp : h.Valid p i ∨ t.Beyond p) (hq : h.Valid q k ∨ t.Beyond q) :
    (∃ result t' scratch', (t.eraseWith scratch p q).Yields (result, t', scratch') ∧
      match result with
      | .ok () => h.Valid p i ∧ h.Valid q k ∧ ∃ r, t' = { t with recording := r } ∧
          r.Holds (h.statements.take i ++ h.statements.drop k)
      | .error _ => t' = t ∧ scratch' = scratch) ∧
    ∀ scratch₁ t₁, (scratch.append t q t.position).Yields (.ok scratch₁) →
      (t.resetTo p).Yields t₁ →
      ∃ t₂, (t₁.append scratch₁ scratch.position scratch₁.position).Yields (.ok t₂) := by
  have ht := hr.aligned
  have hscratch := hr'.aligned
  constructor
  · rcases Tape.yields_eraseWith_or_shared scratch ht hp hq with
      ⟨refusal, hrefused⟩ | ⟨hp, hq, hle, hshared⟩
    · exact ⟨.error refusal, t, scratch, hrefused, rfl, rfl⟩
    · exact ⟨.ok (), _, _, Tape.yields_eraseWith ht hscratch hp hq hle hshared, hp, hq, _, rfl,
        (ht.holding hp k).spells.holds⟩
  · intro scratch₁ t₁ haway hcut
    rcases Tape.tailRefusal_or_shared scratch ht hq with
      ⟨refusal, hrefusal⟩ | ⟨hq, hshared⟩
    · cases haway.unique (Tape.yields_append_of_refusal hrefusal)
    · -- What the scratch tape took over has its functions there, the same as on the tape.
      cases haway.unique (Tape.yields_append_tail ht hq hshared)
      obtain ⟨j, hreset⟩ := hcut.exists_outcome {}
      obtain ⟨supply, -, -, rfl⟩ := Tape.resetTo_cases hreset
      have hreadable := hscratch.readable_of_shared ht
        (fun x hx => ht.readable x (List.mem_of_mem_drop hx)) hshared
      exact ⟨_, Tape.yields_append_recorded hscratch hreadable
        fun x hx item hitem => (hshared x hx item hitem).symm⟩

end Reached

/-- An assignment erased from before a block, by way of a tape with an input and larger chunks. -/
theorem erasing_equals_never_recording_of_block :
    ∃ (t scratch t' scratch' : Tape Int .reuse) (h h' : History Int) (p q : Position),
      Reached .counting t h ∧ Reached .counting scratch h' ∧
      h.statements = [.input 1, .normal 2 [(3, 1)], .block 0 0 [1] [9]] ∧
      h.Valid p 1 ∧ h.Valid q 2 ∧ p ≤ q ∧
      (∀ x ∈ h.statements.drop 2, x.Shared scratch.registry t.registry) ∧
      (t.eraseWith scratch p q).Yields (.ok (), t', scratch') ∧
      (t.erase p q).Yields (.ok (), t') ∧
      t'.recording.Holds [.input 1, .block 0 0 [1] [9]] := by
  obtain ⟨scratch, t, h', h, p, q, -, hr', hr, -, hstatements, hp, hq, -, hle, -, hregistry⟩ :=
    exists_source
  have hshared : ∀ x ∈ h.statements.drop 2, x.Shared scratch.registry t.registry := by
    intro x hx
    rw [hregistry]
    exact (hr.aligned.readable x (List.mem_of_mem_drop hx)).shared
  obtain ⟨t', ⟨r, ht', hholds, -⟩, hwith, herase, -⟩ := erasing_equals_never_recording hr hp hq hle
  obtain ⟨scratch', hyields⟩ := hwith scratch h' hr' hshared
  rw [hstatements] at hholds
  exact ⟨t, scratch, t', scratch', h, h', p, q, hr, hr', hstatements, hp, hq, hle, hshared, hyields,
    herase, ht' ▸ hholds⟩

/-- The same range by way of the same scratch tape. -/
theorem erasing_is_all_or_nothing_of_block :
    ∃ (t scratch : Tape Int .reuse) (h h' : History Int) (p q : Position),
      Reached .counting t h ∧ Reached .counting scratch h' ∧ h.Valid p 1 ∧ h.Valid q 2 ∧
      ∃ result t' scratch', (t.eraseWith scratch p q).Yields (result, t', scratch') ∧
        match result with
        | .ok () => t'.recording.Holds (h.statements.take 1 ++ h.statements.drop 2)
        | .error _ => t' = t ∧ scratch' = scratch := by
  obtain ⟨scratch, t, h', h, p, q, -, hr', hr, -, -, hp, hq, -⟩ := exists_source
  obtain ⟨⟨result, t', scratch', hyields, hresult⟩, -⟩ :=
    erasing_is_all_or_nothing hr hr' (Or.inl hp) (Or.inl hq)
  refine ⟨t, scratch, h, h', p, q, hr, hr', hp, hq, result, t', scratch', hyields, ?_⟩
  cases result with
  | error refusal => exact hresult
  | ok u =>
    obtain ⟨-, -, r, rfl, hholds⟩ := hresult
    exact hholds

end Autodiff
