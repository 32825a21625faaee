import Autodiff.Proofs.Recording.Misread
import Autodiff.Proofs.Stream.Batches
import Autodiff.Proofs.Tape.Replay
import Mathlib.Data.UInt

/-!
# What the check at the end of a walk sees

At the end of a walk every cursor has to stand where the range ends.  That does not mean that all
items of the range were read: a run that is too long for the rest of its chunk is taken from the
next one, and what was left is passed over.  The check sees every other miscount.  For a tape it
means that functions which tell other sizes than before may be given less than was recorded.
-/

namespace Autodiff

/-! ## Functions that tell other sizes -/

section Telling

variable {F : Type} {g : Registry F}

/-- The same functions, but for the numbers of dynamic bytes that they tell. -/
def Registry.telling (g : Registry F) (sizes : Nat → Nat → Reader → Except Fault Nat) :
    Registry F where
  functions := (g.functions.toList.map fun f => { f with dynamicSize := sizes f.key }).toArray

theorem Registry.get?_telling (g : Registry F) (sizes : Nat → Nat → Reader → Except Fault Nat)
    (token : Nat) : (g.telling sizes).get? token =
      (g.get? token).map fun f => { f with dynamicSize := sizes f.key } := by
  show (List.toArray _)[token]? = _
  rw [List.getElem?_toArray, List.getElem?_map, Array.getElem?_toList]
  rfl

theorem Statement.Readable.declared {x : Statement F} (h : x.Readable g)
    (sizes : Nat → Nat → Reader → Except Fault Nat) : x.Declared (g.telling sizes) := by
  cases x with
  | input t => trivial
  | normal t entries => trivial
  | block token largest fixed dynamic =>
    obtain ⟨f, hf, hlength, -⟩ := h
    exact ⟨{ f with dynamicSize := sizes f.key }, by rw [g.get?_telling, hf]; rfl, hlength⟩

def Tape.telling {s : Scheme} (t : Tape F s) (sizes : Nat → Nat → Reader → Except Fault Nat) :
    Tape F s :=
  { t with registry := t.registry.telling sizes }

open Recording in
theorem Aligned.exists_misreads [Zero F] [Add F] [Mul F] [BEq F] {lib : Library F} {s : Scheme}
    {t : Tape F s} {h : History F} {p q : Position} {i k : Nat} (ht : Aligned lib t h)
    (hp : h.Valid p i) (hq : h.Valid q k) (hle : p ≤ q)
    {sizes : Nat → Nat → Reader → Except Fault Nat} {d : Direction} {v w : Adjoints F}
    {j j' : Journal}
    (hsweep : ((t.telling sizes).evaluateWith d (d.start p q) (d.stop p q) v).outcome j =
      (.ok w, j')) :
    ∃ xs, Misreads (t.registry.telling sizes) (h.between i k) xs ∧
      ((d.order xs).foldlM (pace (t.registry.telling sizes)
        (carry (t.registry.telling sizes) d)) v).outcome j = (.ok w, j') ∧
      (d = .forward → ¬t.recording.dynamic.Loose p.dynamic q.dynamic →
        xs.flatMap Statement.dynamic = (h.between i k).flatMap Statement.dynamic) := by
  obtain ⟨before, after, m, n, hspells, rfl, rfl⟩ := ht.spans hp hq ((ht.le_iff hp hq).1 hle)
  have hdeclared := fun x hx => (ht.readable_between i k x hx).declared sizes
  have hordered : d.Ordered (d.start (cutAfter t.settings before m)
      (cutAfter t.settings (before ++ h.between i k) n))
      (d.stop (cutAfter t.settings before m)
        (cutAfter t.settings (before ++ h.between i k) n)) := by
    cases d <;> exact hle
  rw [Tape.evaluateWith, Run.outcome_check_eq_ok_iff] at hsweep
  obtain ⟨xs, hpass, hmisreads, hsteps⟩ := exists_misreads_of_walk hspells hdeclared m n hsweep.2
  refine ⟨xs, hmisreads, hsteps, ?_⟩
  rintro rfl htight
  exact column_flatMap_eq hspells.dynamic htight hpass.dynamic

end Telling

/-! ## The check -/

/-- Takes of any lengths, from where some batches were begun to where they were ended, that pass the
check have read a sublist of their items.  It is all of them exactly if the lengths add up, and the
check makes sure of that exactly where the range is not loose.  A sweep over a reachable tape whose
functions tell other numbers of dynamic bytes than before gives them a sublist of what was recorded,
and to every block its own bytes exactly if it was told the recorded numbers. -/
theorem end_check_sees_all_but_passed_over_items {α : Type} [Zero α]
    {batches after : List (Batch α)} {s₁ s₂ s : Chunked α}
    (hbatches : s₁.recordAll batches = .ok s₂) (hafter : s₂.recordAll after = .ok s) :
    (∀ ns xss, s.Passes .forward s₁.endCut s₂.endCut ns xss →
      xss.map List.length = ns ∧ xss.flatten.Sublist (batches.flatMap Batch.items) ∧
        (xss.flatten = batches.flatMap Batch.items ↔
          ns.sum = (batches.flatMap Batch.items).length)) ∧
    ((∀ ns xss, s.Passes .forward s₁.endCut s₂.endCut ns xss →
      xss.flatten = batches.flatMap Batch.items) ↔ ¬s.Loose s₁.endCut s₂.endCut) ∧
    ∀ {F : Type} [Zero F] [One F] [Add F] [Mul F] [BEq F] [FixedWidth F] {lib : Library F}
      {c : Scheme} {t : Tape F c} {h : History F} {p q : Position} {i k : Nat},
      Reached lib t h → h.Valid p i → h.Valid q k → p ≤ q → ∀ sizes d v w j j',
      ((t.telling sizes).evaluateWith d (d.start p q) (d.stop p q) v).outcome j = (.ok w, j') →
      ∃ xs, Recording.Misreads (t.registry.telling sizes) (h.between i k) xs ∧
        ((d.order xs).foldlM (Recording.pace (t.registry.telling sizes)
          (Recording.carry (t.registry.telling sizes) d)) v).outcome j = (.ok w, j') ∧
        (d = .forward → ¬t.recording.dynamic.Loose p.dynamic q.dynamic →
          xs.flatMap Statement.dynamic = (h.between i k).flatMap Statement.dynamic) ∧
        (xs = h.between i k ↔ xs.map (fun x => x.dynamic.length) =
          (h.between i k).map fun x => x.dynamic.length) := by
  have hcontinues := Chunked.continues_recordAll hafter
  have hp := ((Chunked.continues_recordAll hbatches).trans hcontinues).contains_endCut
  have hq := hcontinues.contains_endCut
  rw [← Chunked.segment_recordAll hbatches hafter]
  refine ⟨fun ns xss hpass => ?_, Chunked.forall_passes_iff_not_loose hp hq,
    fun hr hp hq hle sizes d v w j j' hsweep => ?_⟩
  · have hsublist := hpass.sublist hp hq
    have hlength : xss.flatten.length = ns.sum := by
      rw [List.length_flatten, hpass.map_length]
    refine ⟨hpass.map_length, hsublist, fun heq => ?_, fun hsum => ?_⟩
    · rw [← hlength, heq]
    · exact hsublist.eq_of_length (hlength.trans hsum)
  · obtain ⟨xs, hxs, hsteps, htight⟩ := hr.aligned.exists_misreads hp hq hle hsweep
    exact ⟨xs, hxs, hsteps, htight, hxs.eq_iff⟩

/-- A stream of two runs in chunks of four items. -/
theorem exists_two_runs : ∃ s₀ s : Chunked UInt8, Chunked.create 4 = .ok s₀ ∧
    s₀.recordAll [.pushed [0, 1, 2], .pushed [3, 4]] = .ok s ∧
    s.takeAll .forward [2, 2] s₀.endCut = .ok ([[0, 1], [3, 4]], ⟨1, 2⟩) ∧
    s.finish ⟨1, 2⟩ s.endCut "dynamic byte" = .ok () :=
  ⟨_, _, rfl, rfl, rfl, rfl⟩

/-- A tape with two blocks whose dynamic bytes are these runs, and a sweep over it for which the
functions tell two bytes each. -/
theorem exists_sweep_telling_two : ∃ (t : Tape Int .reuse) (h : History Int) (p q : Position),
    Reached .counting t h ∧ h.Valid p 0 ∧ h.Valid q 2 ∧ p ≤ q ∧
      h.between 0 2 = [.block 0 0 [3] [0, 1, 2], .block 0 0 [2] [3, 4]] ∧
      (((t.telling fun _ _ _ => .ok 2).evaluateWith .forward p q #[7]).outcome {}).1 =
        .ok #[7] := by
  have hcreate : Reached (.counting : Library Int) (s := .reuse) _ _ :=
    .create (show Tape.create ⟨2, 1, 2, 4, 3, true⟩ #[] = _ from rfl)
  have hregister := hcreate.step (.register
    (show Tape.register _ ((.counting : Library Int).function 0) = _ from rfl))
  have hfirst := hregister.mark.step (.pushBlock
    (fills_putAll [.uint8 3] [.uint8 0, .uint8 1, .uint8 2])
    (show (Tape.pushBlock _ 0 1 3 _).outcome {} = _ from rfl))
  have hsecond := hfirst.step (.pushBlock (fills_putAll [.uint8 2] [.uint8 3, .uint8 4])
    (show (Tape.pushBlock _ 0 1 2 _).outcome {} = _ from rfl))
  refine ⟨_, _, _, _, hsecond.mark, (((History.valid_mark _ _).extend _).extend _).mark _,
    History.valid_mark _ _, ?_, rfl, rfl⟩
  decide

/-- For that stream and for that tape: takes of two, twice, pass the check. -/
theorem end_check_sees_all_but_passed_over_items_of_two_runs :
    ∃ (s₀ s : Chunked UInt8) (t : Tape Int .reuse) (h : History Int) (p q : Position)
      (xs : List (Statement Int)), Chunked.create 4 = .ok s₀ ∧
      s₀.recordAll [.pushed [0, 1, 2], .pushed [3, 4]] = .ok s ∧
      s.Passes .forward s₀.endCut s.endCut [2, 2] [[0, 1], [3, 4]] ∧
      [0, 1, 3, 4].Sublist [(0 : UInt8), 1, 2, 3, 4] ∧ s.Loose s₀.endCut s.endCut ∧
      Reached .counting t h ∧ h.Valid p 0 ∧ h.Valid q 2 ∧ p ≤ q ∧
      (((t.telling fun _ _ _ => .ok 2).evaluateWith .forward p q #[7]).outcome {}).1 = .ok #[7] ∧
      Recording.Misreads (t.registry.telling fun _ _ _ => .ok 2) (h.between 0 2) xs ∧
      xs ≠ h.between 0 2 := by
  obtain ⟨s₀, s, h₀, h₂, htake, hfinish⟩ := exists_two_runs
  obtain ⟨t, h, p, q, hr, hp, hq, hle, hbetween, hsweep⟩ := exists_sweep_telling_two
  obtain ⟨hpasses, hloose, hsweeps⟩ := end_check_sees_all_but_passed_over_items h₂
    (show s.recordAll [] = .ok s from rfl)
  have hpass : s.Passes .forward s₀.endCut s.endCut [2, 2] [[0, 1], [3, 4]] :=
    ⟨_, _, htake, hfinish⟩
  obtain ⟨-, hsublist, -⟩ := hpasses _ _ hpass
  obtain ⟨xs, hxs, -⟩ := hsweeps hr hp hq hle (fun _ _ _ => .ok 2) .forward _ _ {} _
    (Prod.ext hsweep rfl)
  refine ⟨s₀, s, t, h, p, q, xs, h₀, h₂, hpass, hsublist, ?_, hr, hp, hq, hle, hsweep, hxs, ?_⟩
  · by_contra htight
    exact absurd (hloose.2 htight _ _ hpass) (by decide)
  -- The function of the first block told two bytes, and three were recorded.
  · rintro rfl
    have hmem : .block 0 0 [3] [0, 1, 2] ∈ h.between 0 2 := by
      rw [hbetween]
      exact List.mem_cons_self ..
    obtain ⟨f, hf, -, asked, htold⟩ := hxs.told _ hmem
    rw [Registry.get?_telling] at hf
    obtain ⟨f', -, rfl⟩ := Option.map_eq_some_iff.1 hf
    cases htold

/-- The item `2` is not read, and the check passes. -/
theorem end_check_misses_passed_over_item : ∃ s₀ s : Chunked UInt8, Chunked.create 4 = .ok s₀ ∧
    s₀.recordAll [.pushed [0, 1, 2], .pushed [3, 4]] = .ok s ∧
    s.takeAll .forward [2, 2] s₀.endCut = .ok ([[0, 1], [3, 4]], ⟨1, 2⟩) ∧
    s.finish ⟨1, 2⟩ s.endCut "dynamic byte" = .ok () ∧
    [[0, 1], [3, 4]].flatten ≠
      [Batch.pushed [(0 : UInt8), 1, 2], .pushed [3, 4]].flatMap Batch.items := by
  obtain ⟨s₀, s, h₀, h₂, htake, hfinish⟩ := exists_two_runs
  exact ⟨s₀, s, h₀, h₂, htake, hfinish, by decide⟩

end Autodiff
