import Autodiff.Proofs.Exact
import Autodiff.Proofs.Tape.Erasing
import Autodiff.Tape.Census

/-!
# Decoding

One walk over the whole recording reads back the statements that a tape holds.  They and the chunk
sizes settle the streams down to the last chunk: which of the ways there are to come by those
statements was taken, and what was dropped on the way, leaves no trace in them.
-/

namespace Autodiff

open Recording

/-! ## Reading everything back -/

section Decoding

variable {F : Type} {s : Scheme}

/-- The step of a walk that keeps the statements in the order in which it meets them. -/
def Recording.collect (ss : List (Statement F)) (x : Statement F) : Run (List (Statement F)) :=
  return ss ++ [x]

/-- The statements that a tape holds, read back from its streams. -/
def Tape.decoded (t : Tape F s) : Run (List (Statement F)) :=
  t.recording.walk t.registry .forward .zero t.position collect []

theorem foldl_collect (ss : List (Statement F)) :
    ss.foldl (fun before x => before ++ [x]) [] = ss := by
  rw [List.foldl_append_eq_append, List.nil_append, ← List.flatMap_def, List.flatMap_singleton']

theorem Aligned.yields_decoded {lib : Library F} {t : Tape F s} {h : History F}
    (ht : Aligned lib t h) : t.decoded.Yields h.statements := by
  have hspells : t.recording.Spells t.settings ([] ++ (h.statements ++ [])) := by
    rw [List.nil_append, List.append_nil]
    exact ht.spells
  have hstart : Position.zero = cutAfter t.settings ([] : List (Statement F)) 0 :=
    (cutAfter_nil t.settings).symm
  have hstop : t.position = cutAfter t.settings ([] ++ h.statements)
      (s.counterAfter h.statements) := ht.position_eq
  rw [Tape.decoded, hstart, hstop, walk_forward hspells ht.readable]
  have hcollect := yields_foldlM_pace ht.readable (fun ss x => Run.yields_pure (ss ++ [x])) []
  rwa [foldl_collect] at hcollect

end Decoding

/-! ## The layout -/

/-- Settings that ask for the same chunks. -/
structure Settings.SameChunks (c c' : Settings) : Prop where
  statements : c'.statementChunk = c.statementChunk
  partials : c'.partialChunk = c.partialChunk
  tokens : c'.tokenChunk = c.tokenChunk
  bytes : c'.byteChunk = c.byteChunk

namespace Recording

variable {F : Type} {c c' : Settings}

theorem ofStatements_congr (hc : c.SameChunks c') (ss : List (Statement F)) :
    ofStatements c' ss = ofStatements c ss := by
  simp only [ofStatements, hc.statements, hc.partials, hc.tokens, hc.bytes]

theorem Spells.eq_withLargest {r r' : Recording F} {ss : List (Statement F)} (h : r.Spells c ss)
    (h' : r'.Spells c' ss) (hc : c.SameChunks c') : r' = r.withLargest r'.largest := by
  rw [h.withLargest_eq, ← ofStatements_congr hc]
  exact h'.eq

end Recording

section Layout

variable {F : Type} {lib lib' : Library F} {s : Scheme} {t t' : Tape F s} {h h' : History F}

theorem Aligned.position_congr (ht : Aligned lib t h) (ht' : Aligned lib' t' h')
    (hc : t.settings.SameChunks t'.settings) (hstatements : h'.statements = h.statements) :
    t'.position = t.position := by
  rw [ht.position_eq, ht'.position_eq, hstatements, place, place, cutAfter, cutAfter,
    ofStatements_congr hc]

/-- A census counts chunks and items, so the largest identifier has no part in it. -/
theorem Tape.census_eq [FixedWidth F] {n : Nat}
    (hrecording : t'.recording = t.recording.withLargest n) :
    t'.census = { t.census with slots := t'.adjoints.size, supply := t'.supply.report } := by
  rw [Tape.census, hrecording]
  rfl

/-- Every reachable tape decodes, and two of them with the same chunk sizes that decode to the same
statements have the same streams, chunk by chunk. -/
theorem layout_is_settled_by_statements [Zero F] [One F] [FixedWidth F] (hr : Reached lib t h)
    (hr' : Reached lib' t' h') (hc : t.settings.SameChunks t'.settings) :
    t.decoded.Yields h.statements ∧ t'.decoded.Yields h'.statements ∧
    ∀ ss, t.decoded.Yields ss → t'.decoded.Yields ss →
      t'.recording = t.recording.withLargest t'.recording.largest ∧ t'.position = t.position ∧
      t'.census = { t.census with slots := t'.adjoints.size, supply := t'.supply.report } := by
  have ht := hr.aligned
  have ht' := hr'.aligned
  refine ⟨ht.yields_decoded, ht'.yields_decoded, fun ss hss hss' => ?_⟩
  have hstatements : h'.statements = h.statements := by
    rw [ht'.yields_decoded.unique hss', ht.yields_decoded.unique hss]
  have hspells' : t'.recording.Spells t'.settings h.statements := hstatements ▸ ht'.spells
  have hrecording := ht.spells.eq_withLargest hspells' hc
  exact ⟨hrecording, ht.position_congr ht' hc hstatements, Tape.census_eq hrecording⟩

end Layout

/-- Two tapes with an input and a block. The second one held a block before that was too long for
the chunks of the settings and that mentioned a larger identifier. -/
theorem exists_rewound : ∃ (t t' : Tape Int .reuse) (h h' : History Int),
    Reached .counting t h ∧ Reached .counting t' h' ∧ t.settings.SameChunks t'.settings ∧
      h.statements = [.input 1, .block 0 0 [1] [9]] ∧ h'.statements = h.statements ∧
      t.recording.largest = 1 ∧ t'.recording.largest = 7 := by
  have hcreate : Reached (.counting : Library Int) (s := .reuse) _ _ :=
    .create (show Tape.create ⟨2, 1, 1, 2, 3, true⟩ #[] = _ from rfl)
  have hregister := hcreate.step (.register
    (show Tape.register _ ((.counting : Library Int).function 0) = _ from rfl))
  have hinput := hregister.step (.registerInput
    (show (Tape.registerInput _).outcome {} = _ from rfl))
  have hblock := hinput.step (.pushBlock (fills_putAll [.uint8 1] [.uint8 9])
    (show (Tape.pushBlock _ 0 1 1 _).outcome {} = _ from rfl))
  have hcreate' : Reached (.counting : Library Int) (s := .reuse) _ _ :=
    .create (show Tape.create ⟨2, 1, 1, 2, 0, false⟩ #[] = _ from rfl)
  have hregister' := hcreate'.step (.register
    (show Tape.register _ ((.counting : Library Int).function 0) = _ from rfl))
  have hinput' := hregister'.step (.registerInput
    (show (Tape.registerInput _).outcome {} = _ from rfl))
  have hlong := hinput'.mark.step (.pushBlock (fills_putAll [.uint8 5] [.identifier 7, .uint8 0])
    (show (Tape.pushBlock _ 0 1 5 _).outcome {} = _ from rfl))
  have hrewound := hlong.step (.resetTo ((History.valid_mark _ _).extend _)
    (show (Tape.resetTo _ _).outcome {} = _ from rfl))
  have hblock' := hrewound.step (.pushBlock (fills_putAll [.uint8 1] [.uint8 9])
    (show (Tape.pushBlock _ 0 1 1 _).outcome {} = _ from rfl))
  exact ⟨_, _, _, _, hblock, hblock', ⟨rfl, rfl, rfl, rfl⟩, rfl, rfl, rfl, rfl⟩

/-- Those two. -/
theorem layout_is_settled_by_statements_of_rewound :
    ∃ (t t' : Tape Int .reuse) (h h' : History Int),
      Reached .counting t h ∧ Reached .counting t' h' ∧ t.settings.SameChunks t'.settings ∧
      t.decoded.Yields [.input 1, .block 0 0 [1] [9]] ∧
      t'.decoded.Yields [.input 1, .block 0 0 [1] [9]] ∧
      t.recording.largest = 1 ∧ t'.recording = t.recording.withLargest 7 ∧
      t'.position = t.position := by
  obtain ⟨t, t', h, h', hr, hr', hc, hstatements, hsame, hfirst, hlargest⟩ := exists_rewound
  obtain ⟨hdecoded, hdecoded', hlayout⟩ := layout_is_settled_by_statements hr hr' hc
  rw [hsame] at hdecoded'
  obtain ⟨hrecording, hposition, -⟩ := hlayout h.statements hdecoded hdecoded'
  rw [hstatements] at hdecoded hdecoded'
  rw [hlargest] at hrecording
  exact ⟨t, t', h, h', hr, hr', hc, hdecoded, hdecoded', hfirst, hrecording, hposition⟩

end Autodiff
