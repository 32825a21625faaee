import Autodiff.Proofs.Recording.Misread
import Autodiff.Proofs.Stream.Capacity
import Autodiff.Proofs.Tape.Order
import Autodiff.Tape.Census

/-!
# What a census adds up to

The five streams carry no headers: which items of one belong to which items of another is known
from the kinds of the statements and from the external functions alone.  So the lengths of the
streams have to add up.  On every reachable tape they do, to the item and to the byte, and no chunk
holds more than was set aside for it.
-/

namespace Autodiff

/-! ## Kinds -/

namespace Kind

/-- The number of items that a statement has in the stream of the arguments. -/
def arguments : Kind → Nat
  | normal n => n
  | _ => 0

/-- A count of arguments that is kept apart from inputs and from blocks. -/
def Counts (k : Kind) : Prop := ∀ n, k = normal n → 1 ≤ n ∧ n ≤ maxArguments

/-- Every kind is counted once. -/
theorem countP_add (kinds : List Kind) :
    kinds.countP isInput + kinds.countP isNormal + kinds.countP isBlock = kinds.length := by
  induction kinds with
  | nil => rfl
  | cons k kinds ih =>
    rw [List.length_cons]
    cases k <;> simp [isInput, isNormal, isBlock] at ih ⊢ <;> omega

end Kind

/-! ## Statements -/

namespace Statement

variable {F : Type}

/-- The numbers of fixed and of dynamic bytes that the function of a block asks for. -/
def byteSizes (g : Registry F) (asked : Nat) : Statement F → Except Fault (Nat × Nat)
  | block token _ fixed _ => do
    let f ← g.expect token
    let n ← f.dynamicSize asked (.ofList fixed)
    return (f.fixedSize, n)
  | _ => .ok (0, 0)

theorem length_flatMap_tokens (ss : List (Statement F)) :
    (ss.flatMap tokens).length = (ss.map kind).countP Kind.isBlock := by
  induction ss with
  | nil => rfl
  | cons x ss ih =>
    rw [List.flatMap_cons, List.length_append, x.length_tokens, ih, List.map_cons,
      List.countP_cons, Nat.add_comm]
    cases x <;> rfl

/-- What was recorded for a block has the sizes that its function asks for now. -/
theorem Readable.byteSizes_eq {g : Registry F} {x : Statement F} (h : x.Readable g) (asked : Nat) :
    x.byteSizes g asked = .ok (x.fixed.length, x.dynamic.length) := by
  cases x with
  | input t => rfl
  | normal t entries => rfl
  | block token largest fixed dynamic =>
    obtain ⟨f, hf, hfixed, hdynamic⟩ := h
    rw [byteSizes, Registry.expect_eq_ok_iff.2 hf]
    show (f.dynamicSize asked (.ofList fixed) >>= fun n => .ok (f.fixedSize, n)) = _
    rw [hdynamic asked, ← hfixed]
    rfl

theorem mapM_byteSizes {g : Registry F} {ss : List (Statement F)} (h : ∀ x ∈ ss, x.Readable g)
    (asked : Nat) :
    ss.mapM (byteSizes g asked) = .ok (ss.map fun x => (x.fixed.length, x.dynamic.length)) := by
  induction ss with
  | nil => rfl
  | cons x ss ih =>
    rw [List.forall_mem_cons] at h
    rw [List.mapM_cons, h.1.byteSizes_eq asked, ih h.2]
    rfl

end Statement

/-- An assignment is recorded with at least one argument and with no more than a count can say. -/
theorem Reached.counts {F : Type} [Zero F] [One F] [FixedWidth F] {lib : Library F} {s : Scheme}
    {t : Tape F s} {h : History F} (hr : Reached lib t h) : ∀ x ∈ h.statements, x.kind.Counts := by
  refine hr.forall_statements ?_ ?_ ?_
  · intro s t t' h target identifier arguments j j' _ hc x hx n hn
    rcases Tape.store_cases hc with ⟨hnew, -⟩ | ⟨entries, supply, hnew, hle, -⟩
    · rw [hnew] at hx
      exact absurd hx List.not_mem_nil
    · have hne : entries ≠ [] := by
        -- Without an entry nothing would have been recorded.
        simp only [Tape.newAssignment] at hnew
        split at hnew
        · cases hnew
        · next hguard =>
          cases hnew
          simp only [Bool.or_eq_true, not_or, List.isEmpty_iff] at hguard
          exact hguard.2
      rw [hnew] at hx
      rw [List.mem_singleton.1 hx] at hn
      cases hn
      exact ⟨List.length_pos_iff.2 hne, hle⟩
  · intro s t t' h identifier j j' _ _ x hx n hn
    unfold Tape.newInput at hx
    split at hx
    · rw [List.mem_singleton.1 hx] at hn
      cases hn
    · exact absurd hx List.not_mem_nil
  · intro s t t' token fixedSize dynamicSize write views j j' _ _ x hx n hn
    cases views with
    | none => exact absurd hx List.not_mem_nil
    | some views =>
      rw [List.mem_singleton.1 hx] at hn
      cases hn

/-! ## Reachable tapes -/

open Recording

section Aligned

variable {F : Type} [FixedWidth F] {lib : Library F} {s : Scheme} {t : Tape F s} {h : History F}

theorem Aligned.usedBytes_le (ht : Aligned lib t h) :
    t.census.usedBytes ≤ t.census.allocatedBytes := by
  have hfits (n : Nat) {α : Type} (f : Statement F → List α) {x : Chunked α}
      (hx : x = .ofRuns n (h.statements.map f)) (width : Nat) :
      x.usedBytes width ≤ x.allocatedBytes width := by
    rw [hx]
    exact (Chunked.fits_ofRuns n _).usedBytes_le width
  have hstatements := hfits _ (fun x => [head x]) ht.spells.statements (ItemWidths.of F).statement
  have hpartials := hfits _ _ ht.spells.partials (ItemWidths.of F).entry
  have htokens := hfits _ _ ht.spells.tokens (ItemWidths.of F).token
  have hfixed := hfits _ _ ht.spells.fixed (ItemWidths.of F).byte
  have hdynamic := hfits _ _ ht.spells.dynamic (ItemWidths.of F).byte
  simp only [Tape.census]
  omega

omit [FixedWidth F] in
/-- The position of a tape is back at the start exactly when everything was dropped again. -/
theorem Aligned.isEmpty_iff (ht : Aligned lib t h) : t.isEmpty = true ↔ h.statements = [] := by
  rw [Tape.isEmpty, decide_eq_true_iff, ← List.length_eq_zero_iff]
  exact ht.mark.eq_iff (h.valid_mark t.position) (History.valid_zero _)

end Aligned

/-- The streams of a reachable tape stay in step.  Inputs, assignments and blocks make up the
statement stream; there is an entry for every argument that the statements count, and a token for
every block; the fixed and dynamic bytes are those that the functions of the blocks ask for, however
often they have been asked before.  Counts of arguments are never mistaken for another kind, no
more bytes are used than are allocated, and a tape is empty exactly when it holds no statement. -/
theorem streams_stay_in_step {F : Type} [Zero F] [One F] [FixedWidth F] {lib : Library F}
    {s : Scheme} {t : Tape F s} {h : History F} (hr : Reached lib t h) :
    t.recording.Holds h.statements ∧
    t.census.inputs + t.census.statements + t.census.blocks = t.recording.statements.length ∧
    t.census.entries = (t.recording.statements.toList.map fun item => item.2.arguments).sum ∧
    (∀ asked, ∃ sizes, h.statements.mapM (Statement.byteSizes t.registry asked) = .ok sizes ∧
      t.census.fixedBytes = (sizes.map fun size => size.1).sum ∧
      t.census.dynamicBytes = (sizes.map fun size => size.2).sum) ∧
    t.recording.tokens.length = t.census.blocks ∧
    (∀ item ∈ t.recording.statements.toList, ∀ n, item.2 = .normal n → 1 ≤ n ∧ n ≤ 254) ∧
    t.census.usedBytes ≤ t.census.allocatedBytes ∧
    (t.isEmpty = true ↔ t.recording.statements.length = 0) := by
  have ht := hr.aligned
  have hholds := ht.spells.holds
  have hkinds : (t.recording.statements.toList.map fun item => item.2) =
      h.statements.map Statement.kind := by
    rw [hholds.statements, List.map_map]
    rfl
  refine ⟨hholds, ?_, ?_, fun asked => ?_, ?_, ?_, ht.usedBytes_le, ?_⟩
  · rw [Chunked.length_eq, ← List.length_map fun item : Nat × Kind => item.2]
    exact Kind.countP_add _
  · show t.recording.partials.length = _
    rw [Chunked.length_eq, hholds.partials, hholds.statements, List.length_flatMap, List.map_map]
    exact congrArg List.sum (List.map_congr_left fun x _ => x.length_entries)
  · refine ⟨_, Statement.mapM_byteSizes ht.readable asked, ?_, ?_⟩
    · show t.recording.fixed.length = _
      rw [Chunked.length_eq, hholds.fixed, List.length_flatMap, List.map_map]
      rfl
    · show t.recording.dynamic.length = _
      rw [Chunked.length_eq, hholds.dynamic, List.length_flatMap, List.map_map]
      rfl
  · show _ = (t.recording.statements.toList.map fun item => item.2).countP Kind.isBlock
    rw [Chunked.length_eq, hholds.tokens, hkinds, Statement.length_flatMap_tokens]
  · intro item hitem n hn
    rw [hholds.statements] at hitem
    obtain ⟨x, hx, rfl⟩ := List.mem_map.1 hitem
    exact hr.counts x hx n hn
  · rw [ht.isEmpty_iff, Chunked.length_eq, hholds.statements, List.length_map,
      List.length_eq_zero_iff]

/-- A tape with an input, an assignment and a block in chunks of one or two items.  The two
arguments are too many for the first chunk of their stream, and a block was cut off before them. -/
theorem exists_gapped : ∃ (t : Tape Int .reuse) (h : History Int),
    Reached .counting t h ∧
      h.statements = [.input 1, .normal 2 [(3, 1), (4, 1)], .block 0 0 [1] [9]] := by
  have hcreate : Reached (.counting : Library Int) (s := .reuse) _ _ :=
    .create (show Tape.create ⟨2, 1, 1, 1, 3, true⟩ #[] = _ from rfl)
  have hregister := hcreate.step (.register
    (show Tape.register _ ((.counting : Library Int).function 0) = _ from rfl))
  have hinput := hregister.step (.registerInput
    (show (Tape.registerInput _).outcome {} = _ from rfl))
  have hblock := hinput.mark.step (.pushBlock (fills_putAll [.uint8 2] [.uint8 7, .uint8 8])
    (show (Tape.pushBlock _ 0 1 2 _).outcome {} = _ from rfl))
  have hcut := hblock.step (.resetTo ((History.valid_mark _ _).extend _)
    (show (Tape.resetTo _ _).outcome {} = _ from rfl))
  have hstore := hcut.step (.store (show (Tape.store _ 0 [(3, 1), (4, 1)]).outcome {} = _ from rfl))
  have hagain := hstore.step (.pushBlock (fills_putAll [.uint8 1] [.uint8 9])
    (show (Tape.pushBlock _ 0 1 1 _).outcome {} = _ from rfl))
  exact ⟨_, _, hagain, rfl⟩

/-- The sums for that tape. -/
theorem streams_stay_in_step_of_gapped :
    ∃ (t : Tape Int .reuse) (h : History Int), Reached .counting t h ∧
      h.statements = [.input 1, .normal 2 [(3, 1), (4, 1)], .block 0 0 [1] [9]] ∧
      t.census.inputs + t.census.statements + t.census.blocks = 3 ∧ t.census.entries = 2 ∧
      t.census.fixedBytes = 1 ∧ t.census.dynamicBytes = 1 ∧
      t.recording.tokens.length = t.census.blocks ∧
      t.census.usedBytes ≤ t.census.allocatedBytes ∧ t.isEmpty = false := by
  obtain ⟨t, h, hr, hstatements⟩ := exists_gapped
  obtain ⟨hholds, hkinds, hentries, hsizes, htokens, -, hbytes, hempty⟩ := streams_stay_in_step hr
  obtain ⟨sizes, hsizes, hfixed, hdynamic⟩ := hsizes 0
  rw [Statement.mapM_byteSizes hr.aligned.readable 0, hstatements] at hsizes
  cases hsizes
  have hlist := hholds.statements
  rw [hstatements] at hlist
  rw [Chunked.length_eq, hlist] at hkinds hempty
  rw [hlist] at hentries
  refine ⟨t, h, hr, hstatements, hkinds, hentries, hfixed, hdynamic, htokens, hbytes, ?_⟩
  rw [Bool.eq_false_iff]
  intro hzero
  cases hempty.1 hzero

end Autodiff
