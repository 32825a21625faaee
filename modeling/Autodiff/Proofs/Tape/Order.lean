import Autodiff.Proofs.Exact
import Autodiff.Proofs.Tape.Erasing

/-!
# The order of positions

Positions are compared by their statement cuts first, and one place between two items of a stream
has many cuts.  The cuts that a tape gives out are settled by the statements before them, though, so
its valid positions are ordered by the numbers of statements before them.  All their parts follow
that order, and so a check of the order of two positions and the checks of single streams agree.
-/

namespace Autodiff

/-! ## Parts of a position -/

namespace Position

/-- In this direction a walk may go from every part of `p` to the same part of `q`. -/
def InOrder : Direction → Position → Position → Prop
  | .forward, p, q => p.Precedes q
  | .reverse, p, q => q.Precedes p

end Position

/-! ## Valid positions -/

namespace Aligned

open Recording

variable {F : Type} {s : Scheme} {lib : Library F} {t : Tape F s} {h : History F} {p q : Position}
  {i k : Nat}

/-- The number of statements before a valid position can be read off the tape. -/
theorem rank_eq (ht : Aligned lib t h) (hp : h.Valid p i) :
    t.recording.statements.rank p.statements = i := by
  obtain ⟨hi, rfl⟩ := ht.eq_place hp
  exact ht.spells.rank_place_take hi

theorem eq_iff (ht : Aligned lib t h) (hp : h.Valid p i) (hq : h.Valid q k) : p = q ↔ i = k := by
  constructor
  · rintro rfl
    rw [← ht.rank_eq hp, ht.rank_eq hq]
  · rintro rfl
    rw [(ht.eq_place hp).2, (ht.eq_place hq).2]

theorem precedes (ht : Aligned lib t h) (hp : h.Valid p i) (hq : h.Valid q k) (hik : i ≤ k) :
    p.Precedes q := by
  obtain ⟨-, rfl⟩ := ht.eq_place hp
  obtain ⟨-, rfl⟩ := ht.eq_place hq
  obtain ⟨more, hmore⟩ := List.take_prefix_take_left (l := h.statements) hik
  rw [← hmore]
  exact place_precedes _ _ _ _

/-- The statement cuts alone tell which of two valid positions comes first. -/
theorem statements_le_iff (ht : Aligned lib t h) (hp : h.Valid p i) (hq : h.Valid q k) :
    p.statements ≤ q.statements ↔ p ≤ q := by
  constructor
  · intro hle
    have hrank := Chunked.rank_mono (ht.contains hp).1 hle
    rw [ht.rank_eq hp, ht.rank_eq hq] at hrank
    exact (ht.precedes hp hq hrank).le
  · exact Position.statements_le

/-- Two positions are in order for a walk when their statement cuts are, and then all their parts
are. -/
theorem ordered_iff (ht : Aligned lib t h) (hp : h.Valid p i) (hq : h.Valid q k) (d : Direction) :
    (d.Ordered p q ↔ d.Ordered p.statements q.statements) ∧
      (d.Ordered p q → Position.InOrder d p q) := by
  cases d with
  | forward =>
    refine ⟨(ht.statements_le_iff hp hq).symm, fun hle => ?_⟩
    exact ht.precedes hp hq ((ht.le_iff hp hq).1 hle)
  | reverse =>
    refine ⟨(ht.statements_le_iff hq hp).symm, fun hle => ?_⟩
    exact ht.precedes hq hp ((ht.le_iff hq hp).1 hle)

end Aligned

section Order

variable {F : Type} [Zero F] [One F] [FixedWidth F] {lib : Library F} {s : Scheme} {t : Tape F s}
  {h : History F} {p q : Position} {i k : Nat}

/-- Valid positions of a reachable tape compare as the numbers of statements before them do, and
whenever they do, their cuts in all streams and their counters compare alike.  So a check of the
order of two positions comes out as the check of their cuts in the statement stream does, and the
checks of the other streams never fail behind it. -/
theorem positions_are_ordered_by_statements (hr : Reached lib t h) (hp : h.Valid p i)
    (hq : h.Valid q k) :
    t.recording.statements.rank p.statements = i ∧ t.recording.statements.rank q.statements = k ∧
    (p ≤ q ↔ i ≤ k) ∧ (p ≤ q → p.Precedes q) ∧ (p = q ↔ i = k) ∧
    ∀ d : Direction, (d.Ordered p q ↔ d.Ordered p.statements q.statements) ∧
      (d.Ordered p q → Position.InOrder d p q) := by
  have ht := hr.aligned
  have hle := ht.le_iff hp hq
  exact ⟨ht.rank_eq hp, ht.rank_eq hq, hle, fun hpq => ht.precedes hp hq (hle.1 hpq),
    ht.eq_iff hp hq, ht.ordered_iff hp hq⟩

end Order

/-- A linear tape with an input and an assignment, and the positions behind them.  The assignment
took the place of one whose two arguments were too many for the first chunk of their stream, and its
own two arguments are as well. -/
theorem exists_recorded_again : ∃ (t : Tape Int .linear) (h : History Int) (p q : Position),
    Reached .counting t h ∧ h.Valid p 1 ∧ h.Valid q 2 ∧
      p = ⟨⟨0, 1⟩, .zero, .zero, .zero, .zero, 1⟩ ∧
      q = ⟨⟨0, 2⟩, ⟨1, 2⟩, .zero, .zero, .zero, 2⟩ := by
  have hcreate : Reached (.counting : Library Int) (s := .linear) _ _ :=
    .create (show Tape.create ⟨2, 1, 1, 1, 3, true⟩ #[] = _ from rfl)
  have hinput := hcreate.step (.registerInput (show (Tape.registerInput _).outcome {} = _ from rfl))
  have hstore := hinput.mark.step (.store
    (show (Tape.store _ 0 [(3, 1), (4, 1)]).outcome {} = _ from rfl))
  have hcut := hstore.step (.resetTo ((History.valid_mark _ _).extend _)
    (show (Tape.resetTo _ _).outcome {} = _ from rfl))
  have hagain := hcut.step (.store (show (Tape.store _ 0 [(5, 1), (6, 1)]).outcome {} = _ from rfl))
  exact ⟨_, _, _, _, hagain.mark,
    ((((History.valid_mark _ _).extend _).cut (Position.le_refl _) _).extend _).mark _,
    History.valid_mark _ _, rfl, rfl⟩

/-- Those two positions, in both directions. -/
theorem positions_are_ordered_by_statements_of_recorded_again :
    ∃ (t : Tape Int .linear) (h : History Int) (p q : Position),
      Reached .counting t h ∧ h.Valid p 1 ∧ h.Valid q 2 ∧
      p = ⟨⟨0, 1⟩, .zero, .zero, .zero, .zero, 1⟩ ∧
      q = ⟨⟨0, 2⟩, ⟨1, 2⟩, .zero, .zero, .zero, 2⟩ ∧
      p ≤ q ∧ ¬q ≤ p ∧ p ≠ q ∧ p.Precedes q ∧ Direction.reverse.Ordered q.statements p.statements ∧
      t.recording.statements.rank q.statements = 2 := by
  obtain ⟨t, h, p, q, hr, hp, hq, hpcut, hqcut⟩ := exists_recorded_again
  obtain ⟨-, hrank, hle, hprecedes, heq, -⟩ := positions_are_ordered_by_statements hr hp hq
  obtain ⟨-, -, hge, -, -, hordered⟩ := positions_are_ordered_by_statements hr hq hp
  have hpq : p ≤ q := hle.2 (by decide)
  refine ⟨t, h, p, q, hr, hp, hq, hpcut, hqcut, hpq, ?_, ?_, hprecedes hpq,
    (hordered .reverse).1.1 hpq, hrank⟩
  · rw [hge]
    decide
  · rw [Ne, heq]
    decide

end Autodiff
