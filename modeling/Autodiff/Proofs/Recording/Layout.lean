import Autodiff.Proofs.Stream.Range
import Autodiff.Proofs.Stream.Runs
import Autodiff.Recording.Content

/-!
# The layout of a recording

The streams of a recording are settled by its statements and the chunk sizes alone: they are what
appending the statements one after another to an empty recording leaves.  `Spells` says so, and
cutting such a recording after some of its statements gives back the layout of those.
-/

namespace Autodiff

theorem le_foldl_max {α : Type} (f : α → Nat) (xs : List α) (n : Nat) :
    n ≤ xs.foldl (fun n x => max n (f x)) n ∧
      ∀ x ∈ xs, f x ≤ xs.foldl (fun n x => max n (f x)) n := by
  induction xs generalizing n with
  | nil => simp
  | cons x xs ih =>
    obtain ⟨hstart, hall⟩ := ih (max n (f x))
    rw [List.foldl_cons]
    refine ⟨by omega, fun x' hx' => ?_⟩
    rcases List.mem_cons.1 hx' with rfl | hmem
    · omega
    · exact hall x' hmem

theorem foldl_max_le_iff {α : Type} (f : α → Nat) (xs : List α) (n m : Nat) :
    xs.foldl (fun n x => max n (f x)) n ≤ m ↔ n ≤ m ∧ ∀ x ∈ xs, f x ≤ m := by
  induction xs generalizing n with
  | nil => simp
  | cons x xs ih =>
    rw [List.foldl_cons, ih, Nat.max_le, List.forall_mem_cons, and_assoc]

namespace Recording

variable {F : Type}

/-! ## Layouts -/

def head (s : Statement F) : Nat × Kind := (s.target, s.kind)

/-- The recording of some statements, appended one after another. -/
def ofStatements (c : Settings) (ss : List (Statement F)) : Recording F where
  statements := .ofRuns c.statementChunk (ss.map fun s => [head s])
  partials := .ofRuns c.partialChunk (ss.map Statement.entries)
  tokens := .ofRuns c.tokenChunk (ss.map Statement.tokens)
  fixed := .ofRuns c.byteChunk (ss.map Statement.fixed)
  dynamic := .ofRuns c.byteChunk (ss.map Statement.dynamic)
  largest := ss.foldl (fun n s => max n s.largest) passive

/-- The position at which a recording stands after some statements. -/
def cutAfter (c : Settings) (ss : List (Statement F)) (counter : Nat) : Position :=
  (ofStatements c ss).endPosition counter

/-- The streams of `r` are laid out as its statements settle it. `largest` is only bounded below,
since truncation keeps it. -/
structure Spells (r : Recording F) (c : Settings) (ss : List (Statement F)) : Prop where
  statements : r.statements = (ofStatements c ss).statements
  partials : r.partials = (ofStatements c ss).partials
  tokens : r.tokens = (ofStatements c ss).tokens
  fixed : r.fixed = (ofStatements c ss).fixed
  dynamic : r.dynamic = (ofStatements c ss).dynamic
  largest : ∀ s ∈ ss, s.largest ≤ r.largest

variable {r : Recording F} {c : Settings}

/-! ### One stream

Each stream holds the runs that one function `f` takes from the statements. -/

section Column

variable {α : Type} {n : Nat} {f : Statement F → List α} {x : Chunked α}

theorem column_pushRun {ss : List (Statement F)} (h : x = .ofRuns n (ss.map f)) (s : Statement F) :
    x.pushRun (f s) = .ofRuns n ((ss ++ [s]).map f) := by
  rw [h, List.map_append, List.map_singleton, Chunked.ofRuns_concat]

theorem column_continues {before after : List (Statement F)}
    (h : x = .ofRuns n ((before ++ after).map f)) :
    Chunked.Continues (.ofRuns n (before.map f)) x := by
  rw [h, List.map_append]
  exact Chunked.continues_ofRuns n _ _

theorem toList_column {ss : List (Statement F)} (h : x = .ofRuns n (ss.map f)) :
    x.toList = ss.flatMap f := by
  rw [h, Chunked.toList_ofRuns, ← List.flatMap_def]

theorem column_endCut_le (n : Nat) (f : Statement F → List α) (before more : List (Statement F)) :
    (Chunked.ofRuns n (before.map f)).endCut ≤
      (Chunked.ofRuns n ((before ++ more).map f)).endCut := by
  rw [List.map_append]
  exact (Chunked.continues_ofRuns n _ _).endCut_le

theorem column_rank {before after : List (Statement F)}
    (h : x = .ofRuns n ((before ++ after).map f)) :
    x.rank (Chunked.ofRuns n (before.map f)).endCut = (before.flatMap f).length := by
  rw [(column_continues h).rank_endCut, Chunked.length_eq, toList_column rfl]

theorem column_segment {before ss after : List (Statement F)}
    (h : x = .ofRuns n ((before ++ (ss ++ after)).map f)) :
    x.segment (Chunked.ofRuns n (before.map f)).endCut
      (Chunked.ofRuns n ((before ++ ss).map f)).endCut = ss.flatMap f := by
  have h' : x = .ofRuns n (((before ++ ss) ++ after).map f) := by
    rwa [List.append_assoc]
  have hall : (before ++ ss ++ after).flatMap f = (before ++ ss).flatMap f ++ after.flatMap f :=
    List.flatMap_append
  rw [Chunked.segment, column_rank h, column_rank h', toList_column h', hall, List.take_left' rfl,
    List.flatMap_append, List.drop_left' rfl]

end Column

/-! ### All streams -/

theorem Spells.append {ss : List (Statement F)} (h : r.Spells c ss) (s : Statement F) :
    (r.append s).Spells c (ss ++ [s]) where
  statements := column_pushRun (f := fun s => [head s]) h.statements s
  partials := column_pushRun h.partials s
  tokens := column_pushRun h.tokens s
  fixed := column_pushRun h.fixed s
  dynamic := column_pushRun h.dynamic s
  largest s' hs' := by
    show s'.largest ≤ max r.largest s.largest
    rcases List.mem_append.1 hs' with hmem | hmem
    · exact Nat.le_trans (h.largest s' hmem) (Nat.le_max_left _ _)
    · rw [List.mem_singleton.1 hmem]
      exact Nat.le_max_right _ _

theorem largest_le_ofStatements (c : Settings) {ss : List (Statement F)} {s : Statement F}
    (hs : s ∈ ss) : s.largest ≤ (ofStatements c ss).largest :=
  (le_foldl_max Statement.largest ss passive).2 s hs

theorem spells_ofStatements (c : Settings) (ss : List (Statement F)) :
    (ofStatements c ss).Spells c ss :=
  ⟨rfl, rfl, rfl, rfl, rfl, fun _ => largest_le_ofStatements c⟩

theorem spells_of_create (h : create c = .ok r) : r.Spells c [] := by
  simp only [create, Fault.bind_eq_ok_iff] at h
  obtain ⟨_, hs, _, hp, _, ht, _, hf, _, hd, hr⟩ := h
  cases hr
  exact ⟨Chunked.eq_blank_of_create hs, Chunked.eq_blank_of_create hp,
    Chunked.eq_blank_of_create ht, Chunked.eq_blank_of_create hf, Chunked.eq_blank_of_create hd,
    by simp⟩

theorem largest_of_create (h : create c = .ok r) : r.largest = passive := by
  simp only [create, Fault.bind_eq_ok_iff] at h
  obtain ⟨_, -, _, -, _, -, _, -, _, -, hr⟩ := h
  cases hr
  rfl

theorem Spells.holds {ss : List (Statement F)} (h : r.Spells c ss) : r.Holds ss where
  statements := by
    rw [toList_column (f := fun s => [head s]) h.statements, ← List.map_eq_flatMap]
    rfl
  partials := toList_column h.partials
  tokens := toList_column h.tokens
  fixed := toList_column h.fixed
  dynamic := toList_column h.dynamic

def withLargest (r : Recording F) (n : Nat) : Recording F := { r with largest := n }

/-- The statements settle everything but `largest`. -/
theorem Spells.withLargest_eq {ss : List (Statement F)} (h : r.Spells c ss) (n : Nat) :
    r.withLargest n = (ofStatements c ss).withLargest n := by
  simp only [withLargest, h.statements, h.partials, h.tokens, h.fixed, h.dynamic]

theorem Spells.eq {ss : List (Statement F)} (h : r.Spells c ss) :
    r = (ofStatements c ss).withLargest r.largest :=
  h.withLargest_eq r.largest

theorem Spells.withLargest {ss : List (Statement F)} (h : r.Spells c ss) {n : Nat}
    (hn : r.largest ≤ n) : (r.withLargest n).Spells c ss :=
  ⟨h.statements, h.partials, h.tokens, h.fixed, h.dynamic,
    fun x hx => Nat.le_trans (h.largest x hx) hn⟩

/-! ### Many statements more -/

theorem Spells.foldl_append {ss : List (Statement F)} (h : r.Spells c ss)
    (more : List (Statement F)) : (more.foldl Recording.append r).Spells c (ss ++ more) := by
  induction more generalizing r ss with
  | nil => rwa [List.append_nil]
  | cons s more ih =>
    have hrest := ih (h.append s)
    rwa [List.append_assoc] at hrest

/-- The largest identifier that any of the statements mentions. -/
def largestOf (ss : List (Statement F)) : Nat := ss.foldl (fun n s => max n s.largest) passive

theorem largestOf_le_iff {ss : List (Statement F)} {n : Nat} :
    largestOf ss ≤ n ↔ ∀ s ∈ ss, s.largest ≤ n := by
  rw [largestOf, foldl_max_le_iff]
  exact and_iff_right (Nat.zero_le n)

theorem largest_foldl_append (ss : List (Statement F)) (r : Recording F) :
    (ss.foldl append r).largest = max r.largest (largestOf ss) := by
  have hfold : (ss.foldl append r).largest = ss.foldl (fun n s => max n s.largest) r.largest := by
    induction ss generalizing r with
    | nil => rfl
    | cons s ss ih => exact ih (r.append s)
  rw [hfold]
  apply Nat.le_antisymm
  · rw [foldl_max_le_iff, ← largestOf_le_iff]
    omega
  · rw [Nat.max_le, largestOf_le_iff]
    exact le_foldl_max Statement.largest ss r.largest

theorem largest_foldl_append_eq_self {ss : List (Statement F)}
    (h : ∀ s ∈ ss, s.largest ≤ r.largest) : (ss.foldl append r).largest = r.largest := by
  rw [largest_foldl_append, Nat.max_eq_left (largestOf_le_iff.2 h)]

/-- The recording when it remembers the identifier `n`, too. -/
def recalling (r : Recording F) (n : Nat) : Recording F := r.withLargest (max r.largest n)

theorem recalling_append (r : Recording F) (n : Nat) (s : Statement F) :
    (r.recalling n).append s = (r.append s).recalling n := by
  show (r.append s).withLargest (max (max r.largest n) s.largest) =
    (r.append s).withLargest (max (max r.largest s.largest) n)
  rw [Nat.max_right_comm]

/-! ## Cuts between statements -/

section Cuts

variable {before after : List (Statement F)}

theorem Spells.endPosition_eq {ss : List (Statement F)} (h : r.Spells c ss) (counter : Nat) :
    r.endPosition counter = cutAfter c ss counter := by
  simp only [endPosition, cutAfter, h.statements, h.partials, h.tokens, h.fixed, h.dynamic]

theorem Spells.contains_cutAfter (h : r.Spells c (before ++ after)) (counter : Nat) :
    r.Contains (cutAfter c before counter) :=
  ⟨(column_continues (f := fun s => [head s]) h.statements).contains_endCut,
    (column_continues h.partials).contains_endCut, (column_continues h.tokens).contains_endCut,
    (column_continues h.fixed).contains_endCut, (column_continues h.dynamic).contains_endCut⟩

theorem Spells.truncate_cutAfter (h : r.Spells c (before ++ after)) (counter : Nat) :
    (r.truncate (cutAfter c before counter)).Spells c before where
  statements := (column_continues (f := fun s => [head s]) h.statements).truncate_endCut
  partials := (column_continues h.partials).truncate_endCut
  tokens := (column_continues h.tokens).truncate_endCut
  fixed := (column_continues h.fixed).truncate_endCut
  dynamic := (column_continues h.dynamic).truncate_endCut
  largest s hs := h.largest s (List.mem_append_left _ hs)

/-- Cutting a recording where it stood before some statements leaves nothing of them behind but the
largest identifier. -/
theorem Spells.truncate_foldl_append {ss : List (Statement F)} (h : r.Spells c ss)
    (more : List (Statement F)) (counter : Nat) :
    (more.foldl Recording.append r).truncate (r.endPosition counter) =
      r.recalling (largestOf more) := by
  have hcut := (h.foldl_append more).truncate_cutAfter counter
  rw [← h.endPosition_eq] at hcut
  rw [recalling, ← largest_foldl_append, h.withLargest_eq]
  exact hcut.eq

theorem cutAfter_nil (c : Settings) : cutAfter c ([] : List (Statement F)) 0 = .zero := rfl

-- Clearing is truncation to the cut before the first statement, but it forgets `largest`.
theorem Spells.clear {ss : List (Statement F)} (h : r.Spells c ss) : r.clear.Spells c [] := by
  have hall : r.Spells c ([] ++ ss) := h
  have hcut := hall.truncate_cutAfter 0
  exact ⟨hcut.statements, hcut.partials, hcut.tokens, hcut.fixed, hcut.dynamic, by simp⟩

/-- The place of a cut in the statement stream is the number of statements before it. -/
theorem Spells.rank_cutAfter (h : r.Spells c (before ++ after)) (counter : Nat) :
    r.statements.rank (cutAfter c before counter).statements = before.length := by
  have hrank := column_rank (f := fun s => [head s]) h.statements
  rw [← List.map_eq_flatMap, List.length_map] at hrank
  exact hrank

end Cuts

end Recording

end Autodiff
