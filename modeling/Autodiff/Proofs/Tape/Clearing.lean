import Autodiff.Proofs.Recording.Slots
import Autodiff.Proofs.Stream.Sweeps
import Autodiff.Proofs.Tape.Erasing
import Autodiff.Tape.Sweeps

/-!
# Clearing

Clearing a range comes to its end for any vector, and zeroes a set of slots without touching the
others.  Where identifiers are reused those are the slots of the targets, which are collected chunk
by chunk from the last chunk to the first.  Under the linear scheme they are a range of slots that
the counters of the two positions bound, and the statements are not looked at: that works because
the identifiers on such a tape are numbered in the order of the statements.
-/

namespace Autodiff

/-! ## Zeroing slots -/

namespace Adjoints

variable {F : Type} [Zero F]

theorem eraseAll_append (v : Adjoints F) (is more : List Nat) :
    v.eraseAll (is ++ more) = (v.eraseAll is).eraseAll more :=
  List.foldl_append

theorem slot_setIfInBounds_zero (v : Adjoints F) (k i : Nat) :
    slot (v.setIfInBounds k 0) i = if i = k then 0 else v.slot i := by
  by_cases hk : k < v.size
  · rw [Array.setIfInBounds, dif_pos hk, slot_set hk, Function.update_apply]
  · rw [Array.setIfInBounds, dif_neg hk]
    split
    · next heq => exact slot_of_size_le (heq ▸ Nat.le_of_not_lt hk)
    · rfl

theorem slot_eraseAll (v : Adjoints F) (is : List Nat) (i : Nat) :
    slot (v.eraseAll is) i = if i ∈ is then 0 else v.slot i := by
  induction is generalizing v with
  | nil => rfl
  | cons k is ih =>
    show slot (eraseAll (v.setIfInBounds k 0) is) i = _
    rw [ih, slot_setIfInBounds_zero]
    by_cases hi : i ∈ is <;> by_cases hk : i = k <;> simp [hi, hk]

theorem exists_eraseRange (v : Adjoints F) {first last : Nat} (h : first ≤ last)
    (hfit : last ≤ v.size) :
    ∃ w, v.eraseRange first last = .ok w ∧ w.size = v.size ∧
      ∀ i, w.slot i = if first ≤ i ∧ i < last then 0 else v.slot i := by
  refine ⟨_, if_pos ⟨h, hfit⟩, Array.size_mapIdx, fun i => ?_⟩
  rw [slot, Array.getD_eq_getD_getElem?, Array.getElem?_mapIdx]
  by_cases hi : i < v.size
  · rw [slot_of_lt hi, Array.getElem?_eq_getElem hi]
    rfl
  · have hlast : ¬(first ≤ i ∧ i < last) := by omega
    rw [slot_of_size_le (Nat.le_of_not_lt hi), Array.getElem?_eq_none (Nat.le_of_not_lt hi),
      if_neg hlast]
    rfl

end Adjoints

/-! ## Targets of a range -/

namespace Recording

variable {F : Type} [Zero F] {r : Recording F} {p q : Position}

/-- The targets between two cuts, in the order in which a clearing sweep comes to them. -/
def targetsBetween (r : Recording F) (p q : Cut) : List Nat :=
  (r.statements.portions p q).reverse.flatten.map fun item => item.1

theorem clearTargets_eq (hp : r.Contains p) (hq : r.Contains q) (h : p.statements ≤ q.statements)
    (v : Adjoints F) :
    r.clearTargets q p v = .ok (v.eraseAll (r.targetsBetween p.statements q.statements)) := by
  have hreads : Chunked.ReadsBack
      (fun v (visit : Visit (Nat × Kind)) => do
        let items ← visit.items .reverse
        return (v.eraseAll (items.map fun item => item.1), visit.bound))
      fun v items => (.ok (v.eraseAll (items.map fun item => item.1)) : Except Fault (Adjoints F))
      := by
    intro acc visit hle hfit
    simp only [Visit.items, Chunk.slice, if_pos (And.intro hle hfit)]
    rfl
  have hfold (xss : List (List (Nat × Kind))) (v : Adjoints F) :
      xss.foldlM (fun v items =>
        (.ok (v.eraseAll (items.map fun item => item.1)) : Except Fault (Adjoints F))) v =
        .ok (v.eraseAll (xss.flatten.map fun item => item.1)) := by
    induction xss generalizing v with
    | nil => rfl
    | cons xs xss ih =>
      rw [List.foldlM_cons, List.flatten_cons, List.map_append, Adjoints.eraseAll_append]
      exact ih _
  rw [clearTargets, Chunked.sweep_reverse hreads hp.1 hq.1 h, hfold]
  rfl

end Recording

/-! ## Identifiers that statements give out -/

/-- The identifier that a statement gives a value. The target that is stored for a block is none. -/
def Statement.defined {F : Type} : Statement F → List Nat
  | .input t => [t]
  | .normal t _ => [t]
  | .block _ _ _ _ => []

namespace Scheme

variable {F : Type}

/-- Under the linear scheme the identifiers are numbered in the order of the statements. -/
def Numbered : Scheme → List (Statement F) → Prop
  | .linear, ss => ss.flatMap Statement.defined = List.range' 1 (linear.counterAfter ss)
  | .reuse, _ => True

theorem length_defined (ss : List (Statement F)) :
    (ss.flatMap Statement.defined).length = linear.counterAfter ss := by
  induction ss with
  | nil => rfl
  | cons x ss ih =>
    rw [List.flatMap_cons, List.length_append, ih, ← List.singleton_append, counterAfter_append]
    cases x <;> rfl

/-- The statements behind some others go on with the numbers where those stop. -/
theorem Numbered.split {before more : List (Statement F)} (h : linear.Numbered (before ++ more)) :
    linear.Numbered before ∧ more.flatMap Statement.defined =
      List.range' (1 + linear.counterAfter before) (linear.counterAfter more) := by
  have hall : before.flatMap Statement.defined ++ more.flatMap Statement.defined =
      List.range' 1 (linear.counterAfter before) ++
        List.range' (1 + linear.counterAfter before) (linear.counterAfter more) := by
    rw [← List.flatMap_append, List.range'_append_1, ← counterAfter_append]
    exact h
  apply List.append_inj hall
  rw [length_defined, List.length_range']

theorem Numbered.take {s : Scheme} {ss : List (Statement F)} (h : s.Numbered ss) (n : Nat) :
    s.Numbered (ss.take n) := by
  cases s with
  | linear =>
    rw [← List.take_append_drop n ss] at h
    exact h.split.1
  | reuse => trivial

theorem Numbered.append {s : Scheme} {ss : List (Statement F)} (h : s.Numbered ss)
    {x : Statement F} (hx : s = .linear → x.defined = [s.counterAfter ss + 1]) :
    s.Numbered (ss ++ [x]) := by
  cases s with
  | linear =>
    have hdefined := hx rfl
    have hcount : linear.counterAfter [x] = 1 := by
      rw [← length_defined, List.flatMap_singleton, hdefined]
      rfl
    show (ss ++ [x]).flatMap Statement.defined = _
    rw [List.flatMap_append, List.flatMap_singleton, hdefined, counterAfter_append, hcount,
      List.range'_1_concat, Nat.add_comm 1]
    exact congrArg (· ++ _) h
  | reuse => trivial

/-- A block takes no number. -/
theorem Numbered.append_block {s : Scheme} {ss : List (Statement F)} (h : s.Numbered ss)
    {token largest : Nat} {fixed dynamic : List UInt8} :
    s.Numbered (ss ++ [.block token largest fixed dynamic]) := by
  cases s with
  | linear =>
    show (ss ++ [_]).flatMap Statement.defined = List.range' 1 (linear.counterAfter (ss ++ [_]))
    rw [List.flatMap_append, counterAfter_append]
    exact (List.append_nil _).trans h
  | reuse => trivial

end Scheme

namespace Supply

theorem generate_linear {supply supply' : Supply .linear} {i : Nat}
    (h : supply.generate = .ok (i, supply')) : i = supply.mark + 1 := by
  cases supply with
  | linear count =>
    rcases generate_cases h with ⟨-, hi, -⟩ | ⟨hnone, -⟩
    · exact hi
    · cases hnone

theorem claim_linear {supply supply' : Supply .linear} {old i : Nat}
    (h : supply.claim old = .ok (i, supply')) : i = supply.mark + 1 := by
  rcases claim_cases h with h | ⟨hs, -⟩
  · exact generate_linear h
  · cases hs

end Supply

theorem Reached.numbered {F : Type} [Zero F] [One F] [FixedWidth F] {lib : Library F} {s : Scheme}
    {t : Tape F s} {h : History F} (hr : Reached lib t h) : s.Numbered h.statements := by
  -- What an assignment records, also for the copy that makes an output.
  have hassign {s : Scheme} {t t₁ : Tape F s} {h : History F} {target identifier : Nat}
      {arguments : List (F × Nat)} {j j' : Journal} (ht : Aligned lib t h)
      (hn : s.Numbered h.statements)
      (hc : (t.store target arguments).outcome j = (.ok (identifier, t₁), j')) :
      s.Numbered (h.statements ++ t.newAssignment identifier arguments) := by
    rcases Tape.store_cases hc with ⟨hnew, -⟩ | ⟨entries, supply, hnew, -, hclaim, -⟩
    · rwa [hnew, List.append_nil]
    · rw [hnew]
      apply hn.append
      rintro rfl
      rw [← ht.counted, ← Supply.claim_linear hclaim]
      rfl
  induction hr with
  | @create s =>
    cases s with
    | linear => rfl
    | reuse => trivial
  | setVector _ _ ih => exact ih
  | @step s t _ h _ hr _ ih hstep =>
    cases hstep with
    | register | setActive | mark | release => exact ih
    | store hc => exact hassign hr.aligned ih hc
    | registerInput hc =>
      rcases Tape.registerInput_cases hc with ⟨hnew, -⟩ | ⟨supply, hnew, hgenerate, -⟩
      · rw [hnew, History.extend_nil]
        exact ih
      · rw [hnew]
        apply ih.append
        rintro rfl
        rw [← hr.aligned.counted, ← Supply.generate_linear hgenerate]
        rfl
    | registerOutput hc =>
      rcases Tape.registerOutput_cases hc with ⟨hnew, -⟩ | ⟨t₁, k, hstore, hnew, -⟩
      · rw [hnew, History.extend_nil]
        exact ih
      · rw [hnew]
        exact hassign hr.aligned ih hstore
    | @pushBlock _ _ _ _ _ _ _ _ views =>
      cases views with
      | none =>
        show s.Numbered (_ ++ [])
        rwa [List.append_nil]
      | some views => exact ih.append_block
    | reset =>
      cases s with
      | linear => rfl
      | reuse => trivial
    | resetTo => exact ih.take _
    | append | erase | eraseWith => trivial

/-! ## Tapes -/

open Recording

section Clear

variable {F : Type} {lib : Library F} {s : Scheme} {t : Tape F s} {h : History F} {p q : Position}
  {i k : Nat}

theorem Aligned.counter_le (ht : Aligned lib t h) (hp : h.Valid p i) (hq : h.Valid q k)
    (hle : p ≤ q) : p.counter ≤ q.counter := by
  have hik := (ht.le_iff hp hq).1 hle
  obtain ⟨more, hmore⟩ := List.take_prefix_take_left (l := h.statements) hik
  rw [(ht.eq_place hp).2, (ht.eq_place hq).2]
  show s.counterAfter (h.statements.take i) ≤ s.counterAfter (h.statements.take k)
  rw [← hmore, Scheme.counterAfter_append]
  exact Nat.le_add_right _ _

/-- The slots that clearing the statements `ss` between two positions sets to zero. -/
def Scheme.Clears : Scheme → Position → Position → List (Statement F) → Nat → Prop
  | .linear, early, late, _, i => early.counter < i ∧ i ≤ late.counter
  | .reuse, _, _, ss, i => ∃ x ∈ ss, x.target = i

theorem Aligned.mem_targetsBetween (ht : Aligned lib t h) (hp : h.Valid p i) (hq : h.Valid q k)
    (hle : p ≤ q) {target : Nat} :
    target ∈ t.recording.targetsBetween p.statements q.statements ↔
      ∃ x ∈ h.between i k, x.target = target := by
  obtain ⟨before, after, m, n, hspells, hpcut, hqcut⟩ :=
    ht.spans hp hq ((ht.le_iff hp hq).1 hle)
  have hsegment : t.recording.statements.segment p.statements q.statements =
      (h.between i k).map head := by
    rw [hpcut, hqcut, hspells.segment_eq]
  rw [← Chunked.flatten_portions (ht.contains hp).1 (ht.contains hq).1 (Position.statements_le hle)]
    at hsegment
  -- The portions come in the order of the sweep, which makes no difference to what is in them.
  have hmem (item : Nat × Kind) :
      item ∈ (t.recording.statements.portions p.statements q.statements).reverse.flatten ↔
        item ∈ (h.between i k).map head := by
    rw [← hsegment, List.mem_flatten, List.mem_flatten]
    simp only [List.mem_reverse]
  simp only [targetsBetween, List.mem_map, hmem]
  constructor
  · rintro ⟨_, ⟨x, hx, rfl⟩, rfl⟩
    exact ⟨x, hx, rfl⟩
  · rintro ⟨x, hx, rfl⟩
    exact ⟨_, ⟨x, hx, rfl⟩, rfl⟩

/-- Under the linear scheme the range of slots is that of the identifiers in the range. -/
theorem Reached.clears_linear_iff [Zero F] [One F] [FixedWidth F] {t : Tape F .linear}
    (hr : Reached lib t h) (hp : h.Valid p i) (hq : h.Valid q k) (hle : p ≤ q) {n : Nat} :
    Scheme.linear.Clears p q (h.between i k) n ↔
      n ∈ (h.between i k).flatMap Statement.defined := by
  have ht := hr.aligned
  have htake : h.statements.take i ++ h.between i k = h.statements.take k :=
    h.take_append_between ((ht.le_iff hp hq).1 hle)
  have hnumbered := hr.numbered.take k
  rw [← htake] at hnumbered
  rw [hnumbered.split.2, List.mem_range'_1]
  show p.counter < n ∧ n ≤ q.counter ↔ _
  rw [(ht.eq_place hp).2, (ht.eq_place hq).2, ← htake]
  show Scheme.linear.counterAfter _ < n ∧ n ≤ Scheme.linear.counterAfter _ ↔ _
  rw [Scheme.counterAfter_append]
  omega

/-- Where identifiers are reused, the passive one that the stream holds for a block is cleared like
a target. -/
theorem Scheme.clears_reuse_iff {ss : List (Statement F)} {n : Nat} :
    reuse.Clears p q ss n ↔
      n ∈ ss.flatMap Statement.defined ∨ n = passive ∧ ∃ x ∈ ss, x.kind = .block := by
  rw [List.mem_flatMap]
  constructor
  · rintro ⟨x, hx, rfl⟩
    cases x with
    | input t => exact Or.inl ⟨_, hx, List.mem_singleton_self t⟩
    | normal t entries => exact Or.inl ⟨_, hx, List.mem_singleton_self t⟩
    | block token largest fixed dynamic => exact Or.inr ⟨rfl, _, hx, rfl⟩
  · rintro (⟨x, hx, hdefined⟩ | ⟨rfl, x, hx, hblock⟩)
    · refine ⟨x, hx, ?_⟩
      cases x with
      | input t => exact (List.mem_singleton.1 hdefined).symm
      | normal t entries => exact (List.mem_singleton.1 hdefined).symm
      | block token largest fixed dynamic => exact absurd hdefined List.not_mem_nil
    · refine ⟨x, hx, ?_⟩
      cases x with
      | input t => cases hblock
      | normal t entries => cases hblock
      | block token largest fixed dynamic => rfl

/-- What is given a value in a range is cleared with the range. -/
theorem Reached.clears_of_mem_defined [Zero F] [One F] [FixedWidth F] (hr : Reached lib t h)
    (hp : h.Valid p i) (hq : h.Valid q k) (hle : p ≤ q) {n : Nat}
    (hn : n ∈ (h.between i k).flatMap Statement.defined) : s.Clears p q (h.between i k) n := by
  cases s with
  | linear => exact (hr.clears_linear_iff hp hq hle).2 hn
  | reuse => exact Scheme.clears_reuse_iff.2 (Or.inl hn)

/-- The order in which the two positions are given does not matter. -/
theorem Tape.clearBetween_comm [Zero F] (t : Tape F s) (p q : Position)
    (management : Management) : t.clearBetween p q management = t.clearBetween q p management := by
  have hpick : (if q ≤ p then (p, q) else (q, p)) = if p ≤ q then (q, p) else (p, q) := by
    by_cases hqp : q ≤ p <;> by_cases hpq : p ≤ q
    · rw [Position.le_antisymm hpq hqp]
    · rw [if_pos hqp, if_neg hpq]
    · rw [if_neg hqp, if_pos hpq]
    · exact absurd (Position.le_total p q) (not_or.2 ⟨hpq, hqp⟩)
  rw [Tape.clearBetween, Tape.clearBetween, hpick]

theorem Aligned.exists_cleared [Zero F] (ht : Aligned lib t h) (hp : h.Valid p i)
    (hq : h.Valid q k) (hle : p ≤ q) (management : Management) :
    ∃ w, t.clearBetween q p management = .ok { t with adjoints := w } ∧
      w.size = (t.prepare management).adjoints.size ∧
      ∀ n, (s.Clears p q (h.between i k) n → w.slot n = 0) ∧
        (¬s.Clears p q (h.between i k) n →
          w.slot n = (t.prepare management).adjoints.slot n) := by
  -- Making room in the vector leaves the recording alone.
  have hrecording : (t.prepare management).recording = t.recording := by
    cases management <;> rfl
  have hback (w : Adjoints F) : { t.prepare management with adjoints := w } =
      { t with adjoints := w } := by
    cases management <;> rfl
  have hpick : (if p ≤ q then (q, p) else (p, q)) = (q, p) := if_pos hle
  cases s with
  | linear =>
    -- The counters are in the order of the positions, so the range of slots is none to refuse.
    have hcounter := ht.counter_le hp hq hle
    obtain ⟨w, hw, hsize, hslot⟩ := (t.prepare management).adjoints.exists_eraseRange
      (show min (p.counter + 1) (t.prepare management).adjoints.size ≤
        min (q.counter + 1) (t.prepare management).adjoints.size by omega)
      (Nat.min_le_right _ _)
    refine ⟨w, ?_, hsize, fun n => ?_⟩
    · simp only [Tape.clearBetween, hpick, hw]
      exact congrArg Except.ok (hback w)
    · show (p.counter < n ∧ n ≤ q.counter → _) ∧ (¬(p.counter < n ∧ n ≤ q.counter) → _)
      rw [hslot]
      by_cases hn : n < (t.prepare management).adjoints.size
      · constructor
        · intro hclears
          exact if_pos (by omega)
        · intro hclears
          exact if_neg (by omega)
      -- Slots behind the end of the vector are zero anyway.
      · rw [Adjoints.slot_of_size_le (Nat.le_of_not_lt hn), ite_self]
        exact ⟨fun _ => rfl, fun _ => rfl⟩
  | reuse =>
    have hclear : (t.prepare management).recording.clearTargets q p
        (t.prepare management).adjoints = .ok ((t.prepare management).adjoints.eraseAll
          (t.recording.targetsBetween p.statements q.statements)) := by
      rw [hrecording]
      exact clearTargets_eq (ht.contains hp) (ht.contains hq) (Position.statements_le hle) _
    refine ⟨(t.prepare management).adjoints.eraseAll
      (t.recording.targetsBetween p.statements q.statements), ?_, Adjoints.size_eraseAll _ _,
      fun n => ?_⟩
    · simp only [Tape.clearBetween, hpick, hclear]
      exact congrArg Except.ok (hback _)
    · rw [Adjoints.slot_eraseAll]
      show ((∃ x ∈ h.between i k, x.target = n) → _) ∧
        (¬(∃ x ∈ h.between i k, x.target = n) → _)
      rw [← ht.mem_targetsBetween hp hq hle]
      exact ⟨fun hn => if_pos hn, fun hn => if_neg hn⟩

theorem Aligned.exists_clearBetween [Zero F] (ht : Aligned lib t h) (hp : h.Valid p i)
    (hq : h.Valid q k) (management : Management) :
    ∃ t', t.clearBetween p q management = .ok t' := by
  rcases Position.le_total p q with hle | hle
  · obtain ⟨w, hw, -⟩ := ht.exists_cleared hp hq hle management
    exact ⟨_, (t.clearBetween_comm p q management).trans hw⟩
  · obtain ⟨w, hw, -⟩ := ht.exists_cleared hq hp hle management
    exact ⟨_, hw⟩

end Clear

end Autodiff
