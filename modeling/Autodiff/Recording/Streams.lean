import Autodiff.Recording.Statement
import Autodiff.Settings
import Autodiff.Stream.Sweep
import Autodiff.Stream.Take

/-!
# Recordings

A recording keeps its statements in five streams that advance together: target and kind of every
statement, partial derivatives with their arguments, tokens, fixed bytes and dynamic bytes.
`append` records a statement; `walk` reads the statements between two positions back, in either
direction, and finds the length of every run from the kinds and from the external functions.
-/

namespace Autodiff

/-- The five streams, and the largest identifier that any statement mentions. -/
structure Recording (F : Type) where
  statements : Chunked (Nat × Kind)
  partials : Chunked (F × Nat)
  /-- The token of each block and the largest identifier that its bytes mention. -/
  tokens : Chunked (Nat × Nat)
  fixed : Chunked UInt8
  dynamic : Chunked UInt8
  largest : Nat

namespace Recording

variable {F : Type}

def create (s : Settings) : Except Fault (Recording F) := do
  let statements ← Chunked.create s.statementChunk
  let partials ← Chunked.create s.partialChunk
  let tokens ← Chunked.create s.tokenChunk
  let fixed ← Chunked.create s.byteChunk
  let dynamic ← Chunked.create s.byteChunk
  return ⟨statements, partials, tokens, fixed, dynamic, passive⟩

def identifierWidth : Nat := 4

/-- The first chunk of every kind of stream: the width of the wider column, and the number of
items. -/
def firstChunks (F : Type) [FixedWidth F] (s : Settings) : List (Nat × Nat) :=
  [(identifierWidth, s.statementChunk), (max (FixedWidth.width F) identifierWidth, s.partialChunk),
    (identifierWidth, s.tokenChunk), (1, s.byteChunk)]

def allocate [FixedWidth F] (s : Settings) : Except Fault (Recording F) := do
  (firstChunks F s).forM fun (width, limit) => Chunk.check width limit
  create s

/-! ## Recording a statement -/

def append (r : Recording F) (s : Statement F) : Recording F where
  statements := r.statements.pushRun [(s.target, s.kind)]
  partials := r.partials.pushRun s.entries
  tokens := r.tokens.pushRun s.tokens
  fixed := r.fixed.pushRun s.fixed
  dynamic := r.dynamic.pushRun s.dynamic
  largest := max r.largest s.largest

/-- The chunks opened by recording a statement. A token is recorded last. -/
def growth (r : Recording F) (s : Statement F) : List Event :=
  r.statements.growth 1 ++ r.partials.growth s.entries.length ++
    r.fixed.growth s.fixed.length ++ r.dynamic.growth s.dynamic.length ++
    r.tokens.growth s.tokens.length

def record (r : Recording F) (s : Statement F) : Run (Recording F) := do
  Run.note (r.growth s)
  return r.append s

/-- Announce the chunks that a block opens before its bytes are written, and check that there can
be such chunks. -/
def prepareBlock (r : Recording F) (fixedSize dynamicSize : Nat) : Run Unit := do
  Run.note (r.statements.growth 1)
  r.fixed.prepare 1 fixedSize
  r.dynamic.prepare 1 dynamicSize

/-! ## Positions -/

def endPosition (r : Recording F) (counter : Nat) : Position where
  statements := r.statements.endCut
  partials := r.partials.endCut
  tokens := r.tokens.endCut
  fixed := r.fixed.endCut
  dynamic := r.dynamic.endCut
  counter := counter

def Contains (r : Recording F) (p : Position) : Prop :=
  r.statements.Contains p.statements ∧ r.partials.Contains p.partials ∧
    r.tokens.Contains p.tokens ∧ r.fixed.Contains p.fixed ∧ r.dynamic.Contains p.dynamic

instance (r : Recording F) (p : Position) : Decidable (r.Contains p) := by
  unfold Contains
  infer_instance

/-- The recording up to a position that it contains. The largest identifier is kept. -/
def truncate (r : Recording F) (p : Position) : Recording F :=
  { r with
    statements := r.statements.truncate p.statements
    partials := r.partials.truncate p.partials
    tokens := r.tokens.truncate p.tokens
    fixed := r.fixed.truncate p.fixed
    dynamic := r.dynamic.truncate p.dynamic }

def clear (r : Recording F) : Recording F := { r.truncate .zero with largest := passive }

theorem contains_zero (r : Recording F) : r.Contains .zero :=
  ⟨r.statements.contains_zero, r.partials.contains_zero, r.tokens.contains_zero,
    r.fixed.contains_zero, r.dynamic.contains_zero⟩

theorem contains_endPosition (r : Recording F) (counter : Nat) :
    r.Contains (r.endPosition counter) :=
  ⟨r.statements.contains_endCut, r.partials.contains_endCut, r.tokens.contains_endCut,
    r.fixed.contains_endCut, r.dynamic.contains_endCut⟩

theorem endPosition_truncate {r : Recording F} {p : Position} (h : r.Contains p) :
    (r.truncate p).endPosition p.counter = p := by
  obtain ⟨hs, hp, ht, hf, hd⟩ := h
  simp only [truncate, endPosition, Chunked.endCut_truncate hs, Chunked.endCut_truncate hp,
    Chunked.endCut_truncate ht, Chunked.endCut_truncate hf, Chunked.endCut_truncate hd]

/-! ## Reading statements back -/

/-- Where a walk stands in the streams that follow the statements. -/
structure Cursors where
  partials : Cut
  tokens : Cut
  fixed : Cut
  dynamic : Cut

def cursors (p : Position) : Cursors := ⟨p.partials, p.tokens, p.fixed, p.dynamic⟩

/-- Read the runs of one statement, given its target and kind.  The bytes of a block are read in
the order in which their sizes become known. -/
def read (r : Recording F) (registry : Registry F) (d : Direction) (c : Cursors) :
    Nat × Kind → Run (Statement F × Cursors)
  | (t, .input) => return (.input t, c)
  | (t, .normal n) => do
    let (entries, p) ← r.partials.take d c.partials n
    return (.normal t entries, { c with partials := p })
  | (_, .block) => do
    let ((token, largest), t) ← r.tokens.takeOne d c.tokens
    let f ← registry.expect token
    let (fixed, x) ← r.fixed.take d c.fixed f.fixedSize
    let asked ← Run.ask f.key
    let size ← f.dynamicSize asked (.ofList fixed)
    let (dynamic, y) ← r.dynamic.take d c.dynamic size
    return (.block token largest fixed dynamic, { c with tokens := t, fixed := x, dynamic := y })

/-- Check that every cursor ended where the range ends. -/
def finish (r : Recording F) (c : Cursors) (stop : Position) : Except Fault Unit := do
  r.partials.finish c.partials stop.partials "Jacobian"
  r.tokens.finish c.tokens stop.tokens "token"
  r.fixed.finish c.fixed stop.fixed "fixed byte"
  r.dynamic.finish c.dynamic stop.dynamic "dynamic byte"

/-- Feed the statements between two positions to `step`, in the given direction. -/
def walk {σ : Type} (r : Recording F) (registry : Registry F) (d : Direction)
    (start stop : Position) (step : σ → Statement F → Run σ) (acc : σ) : Run σ := do
  let (c, acc) ← r.statements.fold d start.statements stop.statements
    (fun (c, acc) item => do
      let (s, c) ← r.read registry d c item
      let acc ← step acc s
      return (c, acc))
    (cursors start, acc)
  r.finish c stop
  return acc

/-! ## Replay -/

/-- Announce that the function of a block is about to run. -/
def announce (registry : Registry F) (d : Direction) (slots : Nat) : Statement F → Run Unit
  | .block token _ fixed dynamic => do
    let f ← registry.expect token
    Run.note [.entered d token f.name fixed dynamic slots]
  | _ => return ()

/-- One step of a replay: announce the function of a block, then run the statement. -/
def carry [Zero F] [Add F] [Mul F] [BEq F] (registry : Registry F) (d : Direction)
    (v : Adjoints F) (s : Statement F) : Run (Adjoints F) := do
  announce registry d v.size s
  s.propagate registry d v

/-- Carry tangents or adjoints through the statements between two positions. -/
def replay [Zero F] [Add F] [Mul F] [BEq F] (r : Recording F) (registry : Registry F)
    (d : Direction) (start stop : Position) (v : Adjoints F) : Run (Adjoints F) :=
  r.walk registry d start stop (carry registry d) v

/-- Set the targets of the statements between two positions to zero; `start` is the later one. -/
def clearTargets [Zero F] (r : Recording F) (start stop : Position) (v : Adjoints F) :
    Except Fault (Adjoints F) :=
  r.statements.sweep .reverse start.statements stop.statements
    (fun v visit => do
      let items ← visit.items .reverse
      return (v.eraseAll (items.map fun item => item.1), visit.bound))
    v

/-- Record the statements of `source` between two positions, and count them. -/
def appendFrom (r source : Recording F) (registry : Registry F) (start stop : Position) :
    Run (Recording F × Nat) :=
  source.walk registry .forward start stop
    (fun (r, n) s => do
      let r ← r.record s
      return (r, n + 1))
    (r, 0)

end Recording

end Autodiff
