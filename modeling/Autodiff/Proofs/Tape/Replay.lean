import Autodiff.Proofs.Exact
import Autodiff.Proofs.Recording.Lockstep
import Autodiff.Proofs.Recording.Slots
import Autodiff.Proofs.Tape.Erasing
import Autodiff.Tape.Sweeps

/-!
# Replay

A sweep over the chunked streams of a reachable tape does what `carryAll` does with the plain list
of the statements in the range: it leaves the same vector, and it runs the same external functions
on the same bytes in the same order.
-/

namespace Autodiff

/-- The map of an external function that a sweep runs. -/
def External.along {F : Type} (f : External F) :
    Direction → Reader → Reader → Adjoints F → Except Fault (Adjoints F)
  | .forward => f.forward
  | .reverse => f.reverse

theorem Library.size_along {F : Type} (lib : Library F) {key : Nat} {d : Direction}
    {fixed dynamic : Reader} {v w : Adjoints F}
    (h : (lib.function key).along d fixed dynamic v = .ok w) : w.size = v.size := by
  cases d with
  | forward => exact lib.size_forward h
  | reverse => exact lib.size_reverse h

namespace Recording

variable {F : Type} [Zero F] [Add F] [Mul F] [BEq F] {g : Registry F}

/-! ## One statement -/

/-- Reading a block asks its function for a size and announces nothing. -/
theorem agree_pace_carry {x : Statement F} (hx : x.Readable g) (d : Direction) (v : Adjoints F) :
    Run.Agree (pace g (carry g d) v x) (carry g d v x) := by
  have hcarry := (inStep_carry g d v x).agree
  cases x with
  | input t => exact hcarry
  | normal t entries => exact hcarry
  | block token largest fixed dynamic =>
    obtain ⟨f, hf, -⟩ := hx
    simp only [pace, Statement.inquire, Registry.expect_eq_ok_iff.2 hf, Run.liftM_ok, pure_bind,
      bind_assoc]
    exact Run.agree_ask_bind f.key hcarry

theorem outcome_carry_block {token largest : Nat} {fixed dynamic : List UInt8} {f : External F}
    (hf : g.get? token = some f) (d : Direction) (v : Adjoints F) (j : Journal) :
    (carry g d v (.block token largest fixed dynamic)).outcome j =
      (f.along d (.ofList fixed) (.ofList dynamic) v,
        j.note [.entered d token f.name fixed dynamic v.size]) := by
  have hexpect := Registry.expect_eq_ok_iff.2 hf
  have hpropagate : (Statement.block token largest fixed dynamic).propagate g d v =
      f.along d (.ofList fixed) (.ofList dynamic) v := by
    cases d <;> simp only [Statement.propagate, hexpect, bind, Except.bind] <;> rfl
  simp only [carry, announce, hexpect, hpropagate, Run.liftM_ok, pure_bind, Run.outcome_bind,
    Run.outcome_note, Run.outcome_liftM]

theorem outcome_carry_plain {x : Statement F} (hx : x.kind ≠ .block) (d : Direction)
    (v : Adjoints F) (j : Journal) : (carry g d v x).outcome j = (x.propagate g d v, j) := by
  have hannounce : announce g d v.size x = pure () := by
    cases x with
    | block token largest fixed dynamic => exact absurd rfl hx
    | input t => rfl
    | normal t entries => rfl
  rw [carry, hannounce, pure_bind, Run.outcome_liftM]

/-! ## All statements -/

theorem carryAll_forward_cons (g : Registry F) (x : Statement F) (ss : List (Statement F))
    (v : Adjoints F) :
    carryAll g .forward (x :: ss) v = carry g .forward v x >>= carryAll g .forward ss :=
  rfl

theorem carryAll_reverse_cons (g : Registry F) (x : Statement F) (ss : List (Statement F))
    (v : Adjoints F) :
    carryAll g .reverse (x :: ss) v =
      carryAll g .reverse ss v >>= fun v => carry g .reverse v x := by
  show (x :: ss).reverse.foldlM (carry g .reverse) v = _
  rw [List.reverse_cons, List.foldlM_append]
  refine congrArg _ (funext fun v => ?_)
  rw [List.foldlM_cons]
  exact bind_pure (carry g .reverse v x)

/-- On a vector that has all slots, only an external function can fault. -/
theorem fault_of_foldlM_carry {lib : Library F} (hg : g.Within lib) {d : Direction}
    {xs : List (Statement F)} (hxs : ∀ x ∈ xs, x.Readable g) {v : Adjoints F}
    (hlt : ∀ x ∈ xs, x.largest < v.size) {j : Journal} {e : Fault}
    (h : ((xs.foldlM (carry g d) v).outcome j).1 = .error e) :
    ∃ token largest fixed dynamic f w, .block token largest fixed dynamic ∈ xs ∧
      g.get? token = some f ∧ w.size = v.size ∧
      f.along d (.ofList fixed) (.ofList dynamic) w = .error e := by
  induction xs generalizing v j with
  | nil => cases h
  | cons x xs ih =>
    rw [List.foldlM_cons, Run.outcome_bind] at h
    -- What is left of the list once the vector `w` of the same size was reached.
    have hrest {w : Adjoints F} {k : Journal} (hsize : w.size = v.size)
        (h : ((xs.foldlM (carry g d) w).outcome k).1 = .error e) :
        ∃ token largest fixed dynamic f w, .block token largest fixed dynamic ∈ x :: xs ∧
          g.get? token = some f ∧ w.size = v.size ∧
          f.along d (.ofList fixed) (.ofList dynamic) w = .error e := by
      have hlt' : ∀ y ∈ xs, y.largest < w.size := by
        intro y hy
        rw [hsize]
        exact hlt y (List.mem_cons_of_mem _ hy)
      obtain ⟨token, largest, fixed, dynamic, f, w', hmem, hf, hsize', herror⟩ :=
        ih (fun y hy => hxs y (List.mem_cons_of_mem _ hy)) hlt' h
      exact ⟨token, largest, fixed, dynamic, f, w', List.mem_cons_of_mem _ hmem, hf,
        hsize'.trans hsize, herror⟩
    by_cases hx : x.kind = .block
    · cases x with
      | input t => cases hx
      | normal t entries => cases hx
      | block token largest fixed dynamic =>
        obtain ⟨f, hf, -⟩ := hxs _ (List.mem_cons_self ..)
        rw [outcome_carry_block hf] at h
        cases hrun : f.along d (.ofList fixed) (.ofList dynamic) v with
        | error e' =>
          rw [hrun] at h
          cases h
          exact ⟨token, largest, fixed, dynamic, f, v, List.mem_cons_self .., hf, rfl, hrun⟩
        | ok w =>
          rw [hrun] at h
          have hsize : w.size = v.size := by
            rw [← hg token f hf] at hrun
            exact lib.size_along hrun
          exact hrest hsize h
    · obtain ⟨w, hpropagate, hsize, -⟩ :=
        Statement.exists_propagate g d hx (hlt x (List.mem_cons_self ..))
      rw [outcome_carry_plain hx, hpropagate] at h
      exact hrest hsize h

end Recording

/-! ## Reachable tapes -/

open Recording

section Reachable

variable {F : Type} [Zero F] [Add F] [Mul F] [BEq F] {lib : Library F} {s : Scheme} {t : Tape F s}
  {h : History F} {p q : Position} {i k : Nat}

/-- The vector of the tape is made ready and then swept over like one of the caller's. -/
theorem Tape.evaluate_eq (t : Tape F s) (d : Direction) (p q : Position) (management : Management) :
    t.evaluate d p q management = do
      let v ← t.evaluateWith d p q (t.prepare management).adjoints
      return { t with adjoints := v } := by
  by_cases hordered : d.Ordered p q
  · simp only [Tape.evaluate, Tape.evaluateWith, if_pos hordered]
    cases management <;> rfl
  · simp only [Tape.evaluate, Tape.evaluateWith, if_neg hordered]
    rfl

theorem Aligned.evaluateWith_forward (ht : Aligned lib t h) (hp : h.Valid p i)
    (hq : h.Valid q k) (hle : p ≤ q) (v : Adjoints F) :
    t.evaluateWith .forward p q v =
      (h.between i k).foldlM (pace t.registry (carry t.registry .forward)) v := by
  obtain ⟨before, after, m, n, hspells, hpcut, hqcut⟩ :=
    ht.spans hp hq ((ht.le_iff hp hq).1 hle)
  have hordered : Direction.forward.Ordered p q := hle
  rw [← walk_forward hspells (ht.readable_between i k) m n, ← hpcut, ← hqcut]
  simp only [Tape.evaluateWith, if_pos hordered]
  rfl

theorem Aligned.evaluateWith_reverse (ht : Aligned lib t h) (hp : h.Valid p i)
    (hq : h.Valid q k) (hle : p ≤ q) (v : Adjoints F) :
    t.evaluateWith .reverse q p v =
      (h.between i k).reverse.foldlM (pace t.registry (carry t.registry .reverse)) v := by
  obtain ⟨before, after, m, n, hspells, hpcut, hqcut⟩ :=
    ht.spans hp hq ((ht.le_iff hp hq).1 hle)
  have hordered : Direction.reverse.Ordered q p := hle
  rw [← walk_reverse hspells (ht.readable_between i k) m n, ← hpcut, ← hqcut]
  simp only [Tape.evaluateWith, if_pos hordered]
  rfl

theorem Aligned.evaluateWith_agree (ht : Aligned lib t h) (hp : h.Valid p i) (hq : h.Valid q k)
    (hle : p ≤ q) (v : Adjoints F) :
    Run.Agree (t.evaluateWith .forward p q v) (carryAll t.registry .forward (h.between i k) v) ∧
      Run.Agree (t.evaluateWith .reverse q p v)
        (carryAll t.registry .reverse (h.between i k) v) := by
  have hreadable := ht.readable_between i k
  rw [ht.evaluateWith_forward hp hq hle, ht.evaluateWith_reverse hp hq hle]
  refine ⟨Run.Agree.foldlM (fun v x hx => ?_) v, Run.Agree.foldlM (fun v x hx => ?_) v⟩
  · exact agree_pace_carry (hreadable x hx) .forward v
  · exact agree_pace_carry (hreadable x (List.mem_reverse.1 hx)) .reverse v

theorem Aligned.fault_of_carryAll (ht : Aligned lib t h) {v : Adjoints F}
    (hv : ∀ x ∈ h.between i k, x.largest < v.size) {d : Direction} {j : Journal} {e : Fault}
    (hfault : ((carryAll t.registry d (h.between i k) v).outcome j).1 = .error e) :
    ∃ token largest fixed dynamic f w, .block token largest fixed dynamic ∈ h.between i k ∧
      t.registry.get? token = some f ∧ w.size = v.size ∧
      f.along d (.ofList fixed) (.ofList dynamic) w = .error e := by
  have hreadable := ht.readable_between i k
  cases d with
  | forward => exact fault_of_foldlM_carry ht.within hreadable hv hfault
  | reverse =>
    obtain ⟨token, largest, fixed, dynamic, f, w, hmem, hrest⟩ :=
      fault_of_foldlM_carry ht.within (fun x hx => hreadable x (List.mem_reverse.1 hx))
        (fun x hx => hv x (List.mem_reverse.1 hx)) hfault
    exact ⟨token, largest, fixed, dynamic, f, w, List.mem_reverse.1 hmem, hrest⟩

/-- Both sweeps over a range of a reachable tape are sweeps over the plain list of its statements,
and on a vector that has all the slots only the external functions themselves can fault. -/
theorem replay_is_fold_over_statements [One F] [FixedWidth F] (hr : Reached lib t h)
    (hp : h.Valid p i) (hq : h.Valid q k) (hle : p ≤ q) {v : Adjoints F}
    (hv : ∀ x ∈ h.between i k, x.largest < v.size) :
    Run.Agree (t.evaluateWith .forward p q v) (carryAll t.registry .forward (h.between i k) v) ∧
    Run.Agree (t.evaluateWith .reverse q p v)
      (carryAll t.registry .reverse (h.between i k) v) ∧
    ∀ d j e, ((carryAll t.registry d (h.between i k) v).outcome j).1 = .error e →
      ∃ token largest fixed dynamic f w, .block token largest fixed dynamic ∈ h.between i k ∧
        t.registry.get? token = some f ∧ w.size = v.size ∧
        f.along d (.ofList fixed) (.ofList dynamic) w = .error e := by
  have ht := hr.aligned
  obtain ⟨hforward, hreverse⟩ := ht.evaluateWith_agree hp hq hle v
  exact ⟨hforward, hreverse, fun d j e hfault => ht.fault_of_carryAll hv hfault⟩

/-- A tape with an input, an assignment and a block in chunks of one or two items, and positions
around the last two. -/
theorem exists_reached : ∃ (t : Tape Int .reuse) (h : History Int) (p q : Position),
    Reached .counting t h ∧ h.Valid p 1 ∧ h.Valid q 3 ∧ p ≤ q ∧
      h.between 1 3 = [.normal 2 [(3, 1)], .block 0 0 [1] [9]] := by
  have hcreate : Reached (.counting : Library Int) (s := .reuse) _ _ :=
    .create (show Tape.create ⟨2, 1, 1, 1, 3, true⟩ #[] = _ from rfl)
  have hregister := hcreate.step (.register
    (show Tape.register _ ((.counting : Library Int).function 0) = _ from rfl))
  have hinput := hregister.step (.registerInput
    (show (Tape.registerInput _).outcome {} = _ from rfl))
  have hstore := hinput.mark.step (.store (show (Tape.store _ 0 [(3, 1)]).outcome {} = _ from rfl))
  have hblock := hstore.step (.pushBlock (fills_putAll [.uint8 1] [.uint8 9])
    (show (Tape.pushBlock _ 0 1 1 _).outcome {} = _ from rfl))
  refine ⟨_, _, _, _, hblock.mark, (((History.valid_mark _ _).extend _).extend _).mark _,
    History.valid_mark _ _, ?_, rfl⟩
  decide

/-- On that tape. -/
theorem replay_is_fold_over_statements_of_block :
    ∃ (t : Tape Int .reuse) (h : History Int) (p q : Position),
      Reached .counting t h ∧ h.Valid p 1 ∧ h.Valid q 3 ∧ p ≤ q ∧
      h.between 1 3 = [.normal 2 [(3, 1)], .block 0 0 [1] [9]] ∧
      Run.Agree (t.evaluateWith .forward p q #[0, 7, 0])
        (carryAll t.registry .forward (h.between 1 3) #[0, 7, 0]) ∧
      Run.Agree (t.evaluateWith .reverse q p #[0, 7, 0])
        (carryAll t.registry .reverse (h.between 1 3) #[0, 7, 0]) := by
  obtain ⟨t, h, p, q, hr, hp, hq, hle, hbetween⟩ := exists_reached
  have hv : ∀ x ∈ h.between 1 3, x.largest < (#[0, 7, 0] : Adjoints Int).size := by
    rw [hbetween]
    decide
  obtain ⟨hforward, hreverse, -⟩ := replay_is_fold_over_statements hr hp hq hle hv
  exact ⟨t, h, p, q, hr, hp, hq, hle, hbetween, hforward, hreverse⟩

end Reachable

end Autodiff
