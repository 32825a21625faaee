import Autodiff.Proofs.Tape.Appending
import Autodiff.Proofs.Tape.Twin

/-!
# The scratch tape

What erasing leaves of a scratch tape is its own recording again, except that this remembers the
largest identifier that came by.  A session can tell that from the tape as it was when it has the
vector sized by the tape, and when the tail of the other tape mentions an identifier beyond all that
the scratch tape knows of.
-/

namespace Autodiff

open Recording

section Scratch

variable {F : Type} [Zero F] [One F] [Add F] [Mul F] [BEq F] [FixedWidth F] {lib : Library F}
  {t scratch : Tape F .reuse} {h h' : History F} {p q : Position} {i k : Nat}

/-! ## Reading the largest identifier -/

omit [Zero F] [One F] [Add F] [Mul F] [BEq F] [FixedWidth F] in
theorem Aligned.recalling (ht : Aligned lib t h) (n : Nat) : Aligned lib (t.recalling n) h := by
  obtain ⟨hspells, hcounted, hreadable, hwithin, hmarked⟩ := ht
  exact ⟨hspells.withLargest (Nat.le_max_left _ _), hcounted, hreadable, hwithin, hmarked⟩

omit [One F] [FixedWidth F] in
theorem Aligned.yields_replay_zero (ht : Aligned lib t h) (v : Adjoints F) :
    (t.recording.replay t.registry .forward .zero .zero v).Yields v := by
  have hle := Position.le_refl .zero
  have hagree := (ht.evaluateWith_agree h.valid_zero h.valid_zero hle v).1
  have hordered : Direction.forward.Ordered Position.zero Position.zero := hle
  simp only [Tape.evaluateWith, if_pos hordered] at hagree
  exact hagree.yields (Run.yields_pure v)

/-- A session that has an empty vector sized, by a sweep over nothing, and reads it. -/
def sizing (lib : Library F) : List (Request lib) :=
  [.resize 0, .evaluate .forward .zero .zero .automatic, .vector]

theorem Tape.yields_serve_cons {t t' : Tape F .reuse} {r : Request lib} {rs : List (Request lib)}
    {a : Answer F} {as : List (Answer F)} (h : (t.perform r).Yields (a, t'))
    (hs : (t'.serve rs).Yields as) : (t.serve (r :: rs)).Yields (a :: as) :=
  h.bind (hs.bind (Run.yields_pure _))

theorem Aligned.yields_sizing (ht : Aligned lib t h) :
    ∃ v : Adjoints F, v.size = t.largestIdentifier + 1 ∧
      (t.serve (sizing lib)).Yields [.done, .done, .vector v] := by
  have hresize : t.resizeAdjoints 0 = .ok { t with adjoints := t.adjoints.resize 0 } := by
    simp only [Tape.resizeAdjoints, Adjoints.resizeTo, Nat.not_lt_zero, if_false]
    rfl
  have hsweep : (Tape.evaluate { t with adjoints := t.adjoints.resize 0 } .forward .zero .zero
      .automatic).Yields
      { t with adjoints := (t.adjoints.resize 0).ensure t.largestIdentifier } := by
    have hordered : Direction.forward.Ordered Position.zero Position.zero := Position.le_refl _
    simp only [Tape.evaluate, if_pos hordered]
    exact (ht.yields_replay_zero _).bind (Run.yields_pure _)
  refine ⟨(t.adjoints.resize 0).ensure t.largestIdentifier, ?_, ?_⟩
  · rw [Adjoints.size_ensure, Adjoints.ensuredSize, Adjoints.size_resize]
    simp
  · have hfirst : (t.perform (.resize 0 : Request lib)).Yields
        (.done, { t with adjoints := t.adjoints.resize 0 }) :=
      (Run.yields_liftM hresize).bind (Run.yields_pure _)
    have hsecond : (Tape.perform { t with adjoints := t.adjoints.resize 0 }
        (.evaluate .forward .zero .zero .automatic : Request lib)).Yields
        (.done, { t with adjoints := (t.adjoints.resize 0).ensure t.largestIdentifier }) :=
      hsweep.bind (Run.yields_pure _)
    have hthird : (Tape.perform
        { t with adjoints := (t.adjoints.resize 0).ensure t.largestIdentifier }
        (.vector : Request lib)).Yields (.vector ((t.adjoints.resize 0).ensure t.largestIdentifier),
        { t with adjoints := (t.adjoints.resize 0).ensure t.largestIdentifier }) :=
      Run.yields_pure _
    exact Tape.yields_serve_cons hfirst
      (Tape.yields_serve_cons hsecond (Tape.yields_serve_cons hthird (Run.yields_pure [])))

/-! ## Erasing by way of a scratch tape -/

omit [Zero F] [One F] [Add F] [Mul F] [BEq F] [FixedWidth F] in
/-- Cutting a tape back to where it stood drops no position that it had. -/
theorem Aligned.cut_extend_mark (ht : Aligned lib t h) (ss : List (Statement F)) :
    ((h.mark t.position).extend ss).cut t.position h.statements.length = h.mark t.position := by
  have hmarks : ∀ m ∈ (h.mark t.position).marks, m.1 ≤ t.position := by
    intro m hm
    have hvalid : (h.mark t.position).Valid m.1 m.2 := Or.inr hm
    exact (ht.mark.le_iff hvalid (h.valid_mark _)).2 (ht.mark.eq_place hvalid).1
  have hfilter : (h.mark t.position).marks.filter (fun m => decide (m.1 ≤ t.position)) =
      (h.mark t.position).marks :=
    List.filter_eq_self.2 fun m hm => decide_eq_true (hmarks m hm)
  have hstatements : (h.statements ++ ss).take h.statements.length = h.statements :=
    List.take_left
  show History.mk _ ((h.mark t.position).marks.filter _) = _
  rw [hfilter, History.extend]
  exact congrArg (History.mk · _) hstatements

omit [Add F] [Mul F] [BEq F] in
/-- What a scratch tape is left as can be reached with an append and a reset of its own. -/
theorem Reached.lend {t' scratch' : Tape F .reuse} {result : Except Refusal Unit} {j j' : Journal}
    (hr : Reached lib t h) (hr' : Reached lib scratch h') (hp : h.Valid p i) (hq : h.Valid q k)
    (hc : (t.eraseWith scratch p q).outcome j = (.ok (result, t', scratch'), j')) :
    scratch'.adjoints = scratch.adjoints ∧
      Reached lib scratch' (h'.mark scratch.position) := by
  rcases Tape.yields_eraseWith_or_shared scratch hr.aligned (Or.inl hp) (Or.inl hq) with
    ⟨refusal, hrefused⟩ | ⟨-, -, hle, hshared⟩
  · cases hrefused.eq_of_outcome hc
    exact ⟨rfl, hr'.mark⟩
  · have herase := Tape.yields_eraseWith hr.aligned hr'.aligned hp hq hle hshared
    cases herase.eq_of_outcome hc
    refine ⟨rfl, ?_⟩
    have hreadable : ∀ x ∈ h.statements.drop k, x.Readable scratch.registry :=
      hr'.aligned.readable_of_shared hr.aligned
        (fun x hx => hr.aligned.readable x (List.mem_of_mem_drop hx)) hshared
    -- The tail comes, and the tape goes back to its own end.
    obtain ⟨k₁, happend⟩ := (Tape.yields_append_tail hr.aligned hq hshared).exists_outcome {}
    have htail := hr'.mark.step (.append hr.mark (hq.mark _) (h.valid_mark _) happend)
    obtain ⟨k₂, hback⟩ :=
      (Tape.yields_resetTo_recorded hr'.aligned hreadable).exists_outcome {}
    have hreset := htail.step (.resetTo ((h'.valid_mark _).extend _) hback)
    rwa [hr'.aligned.cut_extend_mark] at hreset

/-- All that is changed of the scratch tape is the largest identifier that its recording remembers.
No session tells the difference that does not have the vector sized by the tape, and no session at
all exactly if the tail mentions no identifier beyond those that the scratch tape knows of. -/
theorem scratch_remembers_larger_identifiers (hr : Reached lib t h) (hr' : Reached lib scratch h')
    (hp : h.Valid p i) (hq : h.Valid q k) (hle : p ≤ q)
    (hshared : ∀ x ∈ h.statements.drop k, x.Shared scratch.registry t.registry) :
    ∃ t' scratch', (t.eraseWith scratch p q).Yields (.ok (), t', scratch') ∧
      (∃ n, scratch' = { scratch with recording := scratch.recording.withLargest n }) ∧
      (∀ rs : List (Request lib), (∀ r ∈ rs, ¬r.Automatic) →
        Run.InStep Eq (scratch.serve rs) (scratch'.serve rs)) ∧
      ((∀ rs : List (Request lib), Run.InStep Eq (scratch.serve rs) (scratch'.serve rs)) ↔
        ∀ x ∈ h.statements.drop k, x.largest ≤ scratch.largestIdentifier) := by
  have hscratch := hr'.aligned
  have herase := Tape.yields_eraseWith hr.aligned hscratch hp hq hle hshared
  have htwin : Tape.Twin lib (largestOf (h.statements.drop k)) scratch.largestIdentifier scratch
      (scratch.recalling (largestOf (h.statements.drop k))) :=
    ⟨hscratch.within, rfl, Nat.le_refl _⟩
  refine ⟨_, _, herase, ⟨_, rfl⟩, fun rs hrs => htwin.serve (Or.inr hrs), ?_, ?_⟩
  · intro hall
    -- The session that sizes an empty vector answers with one slot more than the largest
    -- identifier.
    obtain ⟨v, hv, hanswers⟩ := hscratch.yields_sizing
    obtain ⟨v', hv', hanswers'⟩ := (hscratch.recalling _).yields_sizing
    have hsame := (hall (sizing lib)).agree.yields hanswers'
    cases hanswers.unique hsame
    rw [← largestOf_le_iff]
    have hsize : max scratch.supply.largest scratch.recording.largest + 1 =
        max scratch.supply.largest
          (max scratch.recording.largest (largestOf (h.statements.drop k))) + 1 :=
      hv.symm.trans hv'
    rw [Tape.largestIdentifier]
    omega
  · intro hknown rs
    exact htwin.serve (Or.inl (largestOf_le_iff.2 hknown))

end Scratch

/-- A block whose bytes mention no identifier goes by without a trace. -/
theorem scratch_remembers_larger_identifiers_of_block :
    ∃ (t scratch t' scratch' : Tape Int .reuse) (h h' : History Int) (p q : Position),
      Reached .counting t h ∧ Reached .counting scratch h' ∧
      h.statements = [.input 1, .normal 2 [(3, 1)], .block 0 0 [1] [9]] ∧
      h.Valid p 1 ∧ h.Valid q 2 ∧ p ≤ q ∧
      (∀ x ∈ h.statements.drop 2, x.Shared scratch.registry t.registry) ∧
      (t.eraseWith scratch p q).Yields (.ok (), t', scratch') ∧
      ∀ rs : List (Request .counting), Run.InStep Eq (scratch.serve rs) (scratch'.serve rs) := by
  obtain ⟨scratch, t, h', h, p, q, -, hr', hr, -, hstatements, hp, hq, -, hle, -, hregistry⟩ :=
    exists_source
  have hshared : ∀ x ∈ h.statements.drop 2, x.Shared scratch.registry t.registry := by
    intro x hx
    rw [hregistry]
    exact (hr.aligned.readable x (List.mem_of_mem_drop hx)).shared
  obtain ⟨t', scratch', hyields, -, -, hiff⟩ :=
    scratch_remembers_larger_identifiers hr hr' hp hq hle hshared
  refine ⟨t, scratch, t', scratch', h, h', p, q, hr, hr', hstatements, hp, hq, hle, hshared,
    hyields, hiff.2 ?_⟩
  rw [hstatements]
  intro x hx
  rw [List.mem_singleton.1 hx]
  exact Nat.zero_le _

/-- A tape whose last statement assigns to the identifier 3, behind a range that can be erased. -/
theorem exists_tail : ∃ (t : Tape Int .reuse) (h : History Int) (p q : Position),
    Reached .counting t h ∧ h.Valid p 1 ∧ h.Valid q 2 ∧ p ≤ q ∧
      h.statements.drop 2 = [.normal 3 [(-1, 1)]] := by
  have hcreate : Reached (.counting : Library Int) (s := .reuse) _ _ :=
    .create (show Tape.create {} #[] = _ from rfl)
  have hinput := hcreate.step (.registerInput (show (Tape.registerInput _).outcome {} = _ from rfl))
  have hstore := hinput.mark.step (.store (show (Tape.store _ 0 [(-1, 1)]).outcome {} = _ from rfl))
  have htail := hstore.mark.step (.store (show (Tape.store _ 0 [(-1, 1)]).outcome {} = _ from rfl))
  refine ⟨_, _, _, _, htail, (((History.valid_mark _ _).extend _).mark _).extend _,
    (History.valid_mark _ _).extend _, ?_, rfl⟩
  decide

/-- A sweep over a whole tape, and a look at the vector after that. -/
def sweepAndRead : List (Request (.counting : Library Int)) := [.evaluateAll .reverse, .vector]

/-- A new tape lends itself for erasing from that one, and has a vector of four slots for no
statement at all after that. -/
theorem scratch_is_changed_by_tail :
    ∃ (t scratch t' scratch' : Tape Int .reuse) (h : History Int) (p q : Position),
      Reached .counting t h ∧ Reached .counting scratch {} ∧ h.Valid p 1 ∧ h.Valid q 2 ∧ p ≤ q ∧
      (∀ x ∈ h.statements.drop 2, x.Shared scratch.registry t.registry) ∧
      (t.eraseWith scratch p q).Yields (.ok (), t', scratch') ∧
      ((scratch.serve sweepAndRead).outcome {}).1 = .ok [.done, .vector #[0]] ∧
      ((scratch'.serve sweepAndRead).outcome {}).1 = .ok [.done, .vector #[0, 0, 0, 0]] := by
  obtain ⟨t, h, p, q, hr, hp, hq, hle, htail⟩ := exists_tail
  have hscratch : Reached (.counting : Library Int) (s := .reuse) _ _ :=
    .create (show Tape.create {} #[] = _ from rfl)
  have hshared {g g' : Registry Int} : ∀ x ∈ h.statements.drop 2, x.Shared g g' := by
    rw [htail]
    intro x hx item hitem
    rw [List.mem_singleton.1 hx] at hitem
    exact absurd hitem List.not_mem_nil
  have herase := Tape.yields_eraseWith hr.aligned hscratch.aligned hp hq hle hshared
  rw [htail] at herase
  exact ⟨t, _, _, _, h, p, q, hr, hscratch, hp, hq, hle, hshared, herase, rfl, rfl⟩

end Autodiff
