import Autodiff.Proofs.Tape.Replay

/-!
# Appending is exact

A range of a tape is appended to another tape as it is: its statements come behind those that were
there, and they do there what they do in the source.  It makes no difference whether a range is
appended as a whole or in two parts.
-/

namespace Autodiff

open Recording

theorem History.between_append {F : Type} (h : History F) {i l k : Nat} (hil : i ≤ l)
    (hlk : l ≤ k) : h.between i l ++ h.between l k = h.between i k := by
  have hdrop : h.statements.drop l = (h.statements.drop i).drop (l - i) := by
    rw [List.drop_drop, Nat.add_sub_cancel' hil]
  have hlength : k - i = l - i + (k - l) := by omega
  show (h.statements.take l).drop i ++ (h.statements.take k).drop l = (h.statements.take k).drop i
  rw [List.drop_take, List.drop_take, List.drop_take, hdrop, hlength, List.take_add]

/-! ## The same functions in two registries -/

section Registries

variable {F : Type} {lib : Library F} {g g' : Registry F}

variable [Zero F] [Add F] [Mul F] [BEq F]

theorem Recording.carry_eq_of_shared (hg : g.Within lib) (hg' : g'.Within lib) {x : Statement F}
    (hx : x.Shared g g') (d : Direction) (v : Adjoints F) : carry g d v x = carry g' d v x := by
  cases x with
  | input t => rfl
  | normal t entries => rfl
  | block token largest fixed dynamic =>
    obtain ⟨f, hf, hf'⟩ := (hx (token, largest) (List.mem_singleton_self _)).eq hg hg'
    have hexpect : g.expect token = g'.expect token :=
      (Registry.expect_eq_ok_iff.2 hf).trans (Registry.expect_eq_ok_iff.2 hf').symm
    simp only [carry, announce, Statement.propagate, hexpect]

theorem Recording.carryAll_eq_of_shared (hg : g.Within lib) (hg' : g'.Within lib)
    {ss : List (Statement F)} (hss : ∀ x ∈ ss, x.Shared g g') (d : Direction) (v : Adjoints F) :
    carryAll g d ss v = carryAll g' d ss v := by
  induction ss generalizing v with
  | nil => cases d <;> rfl
  | cons x ss ih =>
    have hx (v : Adjoints F) := carry_eq_of_shared hg hg' (hss x (List.mem_cons_self ..)) d v
    have hrest (v : Adjoints F) := ih (fun y hy => hss y (List.mem_cons_of_mem _ hy)) v
    cases d with
    | forward =>
      rw [carryAll_forward_cons, carryAll_forward_cons, hx]
      exact congrArg _ (funext hrest)
    | reverse =>
      rw [carryAll_reverse_cons, carryAll_reverse_cons, hrest]
      exact congrArg _ (funext hx)

end Registries

/-! ## Appending a range -/

section Append

variable {F : Type} {lib : Library F} {t source : Tape F .reuse} {h h' : History F}
  {p m q : Position} {i l k : Nat}

/-- What was appended is replayed as it is in the source. -/
theorem Aligned.replay_appended [Zero F] [Add F] [Mul F] [BEq F] (ht : Aligned lib t h)
    (hsource : Aligned lib source h') (hp : h'.Valid p i) (hq : h'.Valid q k) (hle : p ≤ q)
    (hshared : ∀ x ∈ h'.between i k, x.Shared t.registry source.registry) {t' : Tape F .reuse}
    (ht' : t' = t.recordAll (h'.between i k)) (v : Adjoints F) :
    Run.Agree (t'.evaluateWith .forward t.position t'.position v)
        (source.evaluateWith .forward p q v) ∧
      Run.Agree (t'.evaluateWith .reverse t'.position t.position v)
        (source.evaluateWith .reverse q p v) := by
  have hreadable := ht.readable_of_shared hsource (hsource.readable_between i k) hshared
  -- Between its end before and its end now the tape holds the range and nothing else.
  obtain ⟨h₁, n, n₁, halign, hstart, hstop, hn, hbetween⟩ := ht.exists_recorded hreadable
  rw [← ht'] at halign hstop
  have horder : t.position ≤ t'.position := (halign.le_iff hstart hstop).2 hn
  obtain ⟨hforward, hreverse⟩ := halign.evaluateWith_agree hstart hstop horder v
  obtain ⟨hforward', hreverse'⟩ := hsource.evaluateWith_agree hp hq hle v
  have hsame (d : Direction) : carryAll t'.registry d (h'.between i k) v =
      carryAll source.registry d (h'.between i k) v := by
    rw [ht']
    exact carryAll_eq_of_shared ht.within hsource.within hshared d v
  rw [hbetween, hsame] at hforward hreverse
  exact ⟨hforward.trans hforward'.symm, hreverse.trans hreverse'.symm⟩

/-- A range whose tokens name the same functions on both tapes is appended as it is. -/
theorem appending_is_exact [Zero F] [One F] [Add F] [Mul F] [BEq F] [FixedWidth F]
    (hr : Reached lib t h) (hr' : Reached lib source h') (hp : h'.Valid p i) (hm : h'.Valid m l)
    (hq : h'.Valid q k) (hpm : p ≤ m) (hmq : m ≤ q)
    (hshared : ∀ x ∈ h'.between i k, x.Shared t.registry source.registry) :
    ∃ t', (t.append source p q).Yields (.ok t') ∧
      (∃ r, t' = { t with recording := r } ∧ r.Holds (h.statements ++ h'.between i k)) ∧
      (∀ o n, h.Valid o n → t'.Denotes o (h.statements.take n)) ∧
      (∀ v, Run.Agree (t'.evaluateWith .forward t.position t'.position v)
          (source.evaluateWith .forward p q v) ∧
        Run.Agree (t'.evaluateWith .reverse t'.position t.position v)
          (source.evaluateWith .reverse q p v)) ∧
      ∃ t₁, (t.append source p m).Yields (.ok t₁) ∧ (t₁.append source m q).Yields (.ok t') := by
  have ht := hr.aligned
  have hsource := hr'.aligned
  have hil := (hsource.le_iff hp hm).1 hpm
  have hlk := (hsource.le_iff hm hq).1 hmq
  have hpq : p ≤ q := (hsource.le_iff hp hq).2 (Nat.le_trans hil hlk)
  have hsplit := h'.between_append hil hlk
  have halign := ht.recordAll
    (ht.readable_of_shared hsource (hsource.readable_between i k) hshared)
  refine ⟨t.recordAll (h'.between i k), ?_, ⟨_, rfl, ?_⟩, ?_, ?_, t.recordAll (h'.between i l), ?_,
    ?_⟩
  · exact Tape.yields_append hsource hp hq (Nat.le_trans hil hlk) hshared
  · exact halign.spells.holds
  · intro o n ho
    have hle := (ht.eq_place ho).1
    have hdenotes := halign.denotes (ho.extend _)
    rwa [History.extend, List.take_append_of_le_length hle] at hdenotes
  · exact ht.replay_appended hsource hp hq hpq hshared rfl
  · apply Tape.yields_append hsource hp hm hil
    intro x hx
    exact hshared x (hsplit ▸ List.mem_append_left _ hx)
  · have hrest : ∀ x ∈ h'.between l k, x.Shared t.registry source.registry := by
      intro x hx
      exact hshared x (hsplit ▸ List.mem_append_right _ hx)
    have hyields := Tape.yields_append (t := t.recordAll (h'.between i l)) hsource hm hq hlk hrest
    rwa [Tape.recordAll, Tape.recordAll, ← List.foldl_append, hsplit] at hyields

end Append

/-- A tape with an input, and a source in chunks of other sizes whose last two statements, an
assignment and a block, lie between positions of it. -/
theorem exists_source : ∃ (t source : Tape Int .reuse) (h h' : History Int) (p m q : Position),
    Reached .counting t h ∧ Reached .counting source h' ∧ h.statements = [.input 1] ∧
      h'.statements = [.input 1, .normal 2 [(3, 1)], .block 0 0 [1] [9]] ∧
      h'.Valid p 1 ∧ h'.Valid m 2 ∧ h'.Valid q 3 ∧ p ≤ m ∧ m ≤ q ∧
      t.registry = source.registry := by
  have hnew : Reached (.counting : Library Int) (s := .reuse) _ _ :=
    .create (show Tape.create ⟨4, 4, 4, 4, 0, true⟩ #[] = _ from rfl)
  have hknown := hnew.step (.register
    (show Tape.register _ ((.counting : Library Int).function 0) = _ from rfl))
  have htarget := hknown.step (.registerInput (show (Tape.registerInput _).outcome {} = _ from rfl))
  have hcreate : Reached (.counting : Library Int) (s := .reuse) _ _ :=
    .create (show Tape.create ⟨2, 1, 1, 1, 3, true⟩ #[] = _ from rfl)
  have hregister := hcreate.step (.register
    (show Tape.register _ ((.counting : Library Int).function 0) = _ from rfl))
  have hinput := hregister.step (.registerInput
    (show (Tape.registerInput _).outcome {} = _ from rfl))
  have hstore := hinput.mark.step (.store (show (Tape.store _ 0 [(3, 1)]).outcome {} = _ from rfl))
  have hblock := hstore.mark.step (.pushBlock (fills_putAll [.uint8 1] [.uint8 9])
    (show (Tape.pushBlock _ 0 1 1 _).outcome {} = _ from rfl))
  refine ⟨_, _, _, _, _, _, _, htarget, hblock.mark, rfl, rfl,
    ((((History.valid_mark _ _).extend _).mark _).extend _).mark _,
    ((History.valid_mark _ _).extend _).mark _, History.valid_mark _ _, ?_, ?_, rfl⟩
  · decide
  · decide

/-- The two statements on the other tape. -/
theorem appending_is_exact_of_block :
    ∃ (t source t' : Tape Int .reuse) (h h' : History Int) (p m q : Position),
      Reached .counting t h ∧ Reached .counting source h' ∧ h'.Valid p 1 ∧ h'.Valid m 2 ∧
      h'.Valid q 3 ∧ p ≤ m ∧ m ≤ q ∧
      (∀ x ∈ h'.between 1 3, x.Shared t.registry source.registry) ∧
      (t.append source p q).Yields (.ok t') ∧
      t'.recording.Holds [.input 1, .normal 2 [(3, 1)], .block 0 0 [1] [9]] := by
  obtain ⟨t, source, h, h', p, m, q, hr, hr', hstatements, hstatements', hp, hm, hq, hpm, hmq,
    hregistry⟩ := exists_source
  have hbetween : h'.between 1 3 = [.normal 2 [(3, 1)], .block 0 0 [1] [9]] := by
    rw [History.between, hstatements']
    rfl
  have hshared : ∀ x ∈ h'.between 1 3, x.Shared t.registry source.registry := by
    intro x hx
    rw [hregistry]
    exact (hr'.aligned.readable_between 1 3 x hx).shared
  obtain ⟨t', hyields, ⟨r, ht', hholds⟩, -⟩ := appending_is_exact hr hr' hp hm hq hpm hmq hshared
  rw [hstatements, hbetween] at hholds
  exact ⟨t, source, t', h, h', p, m, q, hr, hr', hp, hm, hq, hpm, hmq, hshared, hyields,
    ht' ▸ hholds⟩

end Autodiff
