import Autodiff.Tape.Recorder

/-!
# Tapes — census

Counts of what a tape holds and of the memory it takes.
-/

namespace Autodiff

/-- Sizes in bytes of the items of the five streams. -/
structure ItemWidths where
  statement : Nat
  entry : Nat
  token : Nat
  byte : Nat

/-- A statement takes an identifier and a kind, an entry a number and an identifier, a token two
bytes and an identifier. -/
def ItemWidths.of (F : Type) [FixedWidth F] : ItemWidths :=
  let id := Recording.identifierWidth
  ⟨id + 1, FixedWidth.width F + id, id + 2, 1⟩

/-- What a tape holds. -/
structure Census where
  inputs : Nat
  statements : Nat
  blocks : Nat
  entries : Nat
  fixedBytes : Nat
  dynamicBytes : Nat
  statementChunks : Nat
  entryChunks : Nat
  byteChunks : Nat
  usedBytes : Nat
  allocatedBytes : Nat
  slots : Nat
  supply : SupplyReport
  deriving DecidableEq

namespace Kind

def isInput (k : Kind) : Bool := k = .input

def isBlock (k : Kind) : Bool := k = .block

def isNormal (k : Kind) : Bool := !k.isInput && !k.isBlock

end Kind

namespace Tape

variable {F : Type} {s : Scheme}

def census [FixedWidth F] (t : Tape F s) : Census :=
  let r := t.recording
  let w := ItemWidths.of F
  let kinds := r.statements.toList.map fun item => item.2
  { inputs := kinds.countP Kind.isInput
    statements := kinds.countP Kind.isNormal
    blocks := kinds.countP Kind.isBlock
    entries := r.partials.length
    fixedBytes := r.fixed.length
    dynamicBytes := r.dynamic.length
    statementChunks := r.statements.chunkCount
    entryChunks := r.partials.chunkCount
    byteChunks := r.fixed.chunkCount + r.dynamic.chunkCount
    usedBytes := r.statements.usedBytes w.statement + r.partials.usedBytes w.entry +
      r.tokens.usedBytes w.token + r.fixed.usedBytes w.byte + r.dynamic.usedBytes w.byte
    allocatedBytes := r.statements.allocatedBytes w.statement +
      r.partials.allocatedBytes w.entry + r.tokens.allocatedBytes w.token +
      r.fixed.allocatedBytes w.byte + r.dynamic.allocatedBytes w.byte
    slots := t.adjoints.size
    supply := t.supply.report }

end Tape

def Census.counts (c : Census) : List (String × Nat) :=
  [("inputs", c.inputs), ("statements", c.statements), ("low_level_functions", c.blocks),
    ("jacobians", c.entries), ("fixed_bytes", c.fixedBytes), ("dynamic_bytes", c.dynamicBytes),
    ("statement_chunks", c.statementChunks), ("jacobian_chunks", c.entryChunks),
    ("byte_chunks", c.byteChunks), ("used_bytes", c.usedBytes),
    ("allocated_bytes", c.allocatedBytes), ("adjoint_vector_size", c.slots)]

def Census.text (c : Census) : String :=
  s!"statements: {c.statements} ({c.inputs} inputs, {c.blocks} low-level functions)\n" ++
    s!"jacobian entries: {c.entries}, block bytes: {c.fixedBytes} fixed + " ++
    s!"{c.dynamicBytes} dynamic\n" ++
    s!"chunks: {c.statementChunks} statement, {c.entryChunks} jacobian, {c.byteChunks} byte\n" ++
    s!"memory: {c.usedBytes} bytes used of {c.allocatedBytes} allocated, " ++
    s!"adjoint vector {c.slots} slots\n" ++ c.supply.text

end Autodiff
