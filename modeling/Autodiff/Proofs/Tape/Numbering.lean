import Autodiff.Proofs.Tape.Clearing
import Autodiff.Proofs.Tape.Order

/-!
# Numbers on a linear tape

A linear tape gives an identifier to every input and to every assignment, whatever identifier the
caller asked for, and none to a block.  Recording and the counter never get out of step, not even
where recording is off or the end of the tape is cut off, so the identifiers can be read off the
statement stream: they number the statements that are no blocks, from one on.
-/

namespace Autodiff

/-! ## Identifiers in the statement stream -/

namespace Recording

variable {F : Type}

/-- The identifiers that some items of a statement stream give out. -/
def givenOut (items : List (Nat × Kind)) : List Nat :=
  (items.filter fun item => item.2 != .block).map fun item => item.1

theorem givenOut_map_head (ss : List (Statement F)) :
    givenOut (ss.map head) = ss.flatMap Statement.defined := by
  induction ss with
  | nil => rfl
  | cons x ss ih =>
    rw [List.flatMap_cons, ← ih]
    cases x <;> rfl

theorem Holds.givenOut_take {r : Recording F} {ss : List (Statement F)} (hr : r.Holds ss)
    (n : Nat) :
    givenOut (r.statements.toList.take n) = (ss.take n).flatMap Statement.defined := by
  rw [hr.statements, ← List.map_take]
  exact givenOut_map_head _

theorem Holds.givenOut {r : Recording F} {ss : List (Statement F)} (hr : r.Holds ss) :
    givenOut r.statements.toList = ss.flatMap Statement.defined := by
  rw [hr.statements]
  exact givenOut_map_head ss

end Recording

theorem Scheme.Numbered.getElem {F : Type} {ss : List (Statement F)} (h : linear.Numbered ss)
    {k : Nat} (hk : k < (ss.flatMap Statement.defined).length) :
    (ss.flatMap Statement.defined)[k] = k + 1 := by
  have hnumbered : ss.flatMap Statement.defined = List.range' 1 (linear.counterAfter ss) := h
  simp only [hnumbered, List.getElem_range', Nat.one_mul]
  exact Nat.add_comm 1 k

theorem Supply.eq_linear (supply : Supply .linear) : supply = .linear supply.mark := by
  cases supply
  rfl

/-! ## Reachable tapes -/

open Recording

/-- Every reachable linear tape is in single assignment form: the `k`-th statement that is no block
is the one with identifier `k`, the counter of the tape is the number of those statements, and the
counter of a valid position is the number of those before it. -/
theorem linear_tapes_are_in_single_assignment_form {F : Type} [Zero F] [One F] [FixedWidth F]
    {lib : Library F} {t : Tape F .linear} {h : History F} (hr : Reached lib t h) :
    t.recording.Holds h.statements ∧
    (∀ k (hk : k < (givenOut t.recording.statements.toList).length),
      (givenOut t.recording.statements.toList)[k] = k + 1) ∧
    t.supply = .linear (givenOut t.recording.statements.toList).length ∧
    ∀ p n, h.Valid p n → t.recording.statements.rank p.statements = n ∧
      p.counter = (givenOut (t.recording.statements.toList.take n)).length := by
  have ht := hr.aligned
  have hholds := ht.spells.holds
  refine ⟨hholds, fun k hk => ?_, ?_, fun p n hp => ⟨ht.rank_eq hp, ?_⟩⟩
  · simp only [hholds.givenOut] at hk ⊢
    exact hr.numbered.getElem hk
  · rw [hholds.givenOut, Scheme.length_defined, ← ht.counted]
    exact t.supply.eq_linear
  · rw [hholds.givenOut_take, Scheme.length_defined, (ht.eq_place hp).2]
    rfl

/-- A linear tape with an input, a block, an assignment and an output, and the positions behind the
block and at the end.  The assignment asked for identifier 7 and took the place of one that was cut
off, and while recording was off another one left nothing. -/
theorem exists_numbered : ∃ (t : Tape Int .linear) (h : History Int) (p q : Position),
    Reached .counting t h ∧ h.Valid p 2 ∧ h.Valid q 4 ∧
      h.statements = [.input 1, .block 0 0 [1] [9], .normal 2 [(5, 1)], .normal 3 [(1, 2)]] := by
  have hcreate : Reached (.counting : Library Int) (s := .linear) _ _ :=
    .create (show Tape.create ⟨2, 1, 1, 1, 3, true⟩ #[] = _ from rfl)
  have hregister := hcreate.step (.register
    (show Tape.register _ ((.counting : Library Int).function 0) = _ from rfl))
  have hinput := hregister.step (.registerInput
    (show (Tape.registerInput _).outcome {} = _ from rfl))
  have hblock := hinput.step (.pushBlock (fills_putAll [.uint8 1] [.uint8 9])
    (show (Tape.pushBlock _ 0 1 1 _).outcome {} = _ from rfl))
  have hstore := hblock.mark.step (.store
    (show (Tape.store _ 0 [(3, 1), (4, 1)]).outcome {} = _ from rfl))
  have hcut := hstore.step (.resetTo ((History.valid_mark _ _).extend _)
    (show (Tape.resetTo _ _).outcome {} = _ from rfl))
  have hoff := (hcut.step (.setActive false)).step (.store
    (show (Tape.store _ 1 [(8, 1)]).outcome {} = _ from rfl))
  have hagain := (hoff.step (.setActive true)).step (.store
    (show (Tape.store _ 7 [(5, 1)]).outcome {} = _ from rfl))
  have houtput := hagain.step (.registerOutput
    (show (Tape.registerOutput _ 2).outcome {} = _ from rfl))
  exact ⟨_, _, _, _, houtput.mark,
    ((((((History.valid_mark _ _).extend _).cut (Position.le_refl _) _).extend _).extend _).extend
      _).mark _,
    History.valid_mark _ _, rfl⟩

/-- That tape. -/
theorem linear_tapes_are_in_single_assignment_form_of_numbered :
    ∃ (t : Tape Int .linear) (h : History Int) (p q : Position),
      Reached .counting t h ∧ h.Valid p 2 ∧ h.Valid q 4 ∧
      h.statements = [.input 1, .block 0 0 [1] [9], .normal 2 [(5, 1)], .normal 3 [(1, 2)]] ∧
      (givenOut t.recording.statements.toList) = [1, 2, 3] ∧ t.supply = .linear 3 ∧
      p.counter = 1 ∧ q.counter = 3 := by
  obtain ⟨t, h, p, q, hr, hp, hq, hstatements⟩ := exists_numbered
  obtain ⟨hholds, -, hsupply, hcounter⟩ := linear_tapes_are_in_single_assignment_form hr
  have hgiven := hholds.givenOut
  have hbefore := hholds.givenOut_take 2
  have hall := hholds.givenOut_take 4
  rw [hstatements] at hgiven hbefore hall
  rw [hgiven] at hsupply
  refine ⟨t, h, p, q, hr, hp, hq, hstatements, hgiven, hsupply, ?_, ?_⟩
  · rw [(hcounter p 2 hp).2, hbefore]
    rfl
  · rw [(hcounter q 4 hq).2, hall]
    rfl

end Autodiff
