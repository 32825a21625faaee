import Autodiff.Fault

/-!
# Settings and policies

Sizes that are chosen when a tape is made, and the policies under which its vector is accessed.
-/

namespace Autodiff

/-- Chunk sizes count items of the respective stream. -/
structure Settings where
  statementChunk : Nat := 65536
  partialChunk : Nat := 131072
  tokenChunk : Nat := 1024
  byteChunk : Nat := 65536
  /-- The number of slots that a new tape starts with. -/
  initialSlots : Nat := 0
  /-- Whether a full reset also zeroes the slots. -/
  clearOnReset : Bool := true
  deriving DecidableEq, Inhabited

namespace Settings

private def positive (n : Nat) (s : Settings) : Except Fault Settings :=
  if n = 0 then .error .emptyChunks else .ok s

def withChunks (s : Settings) (n : Nat) : Except Fault Settings :=
  positive n { s with statementChunk := n, partialChunk := n, tokenChunk := n, byteChunk := n }

def withStatementChunk (s : Settings) (n : Nat) : Except Fault Settings :=
  positive n { s with statementChunk := n }

def withPartialChunk (s : Settings) (n : Nat) : Except Fault Settings :=
  positive n { s with partialChunk := n }

def withTokenChunk (s : Settings) (n : Nat) : Except Fault Settings :=
  positive n { s with tokenChunk := n }

def withByteChunk (s : Settings) (n : Nat) : Except Fault Settings :=
  positive n { s with byteChunk := n }

def withInitialSlots (s : Settings) (n : Nat) : Settings := { s with initialSlots := n }

def withClearOnReset (s : Settings) (clear : Bool) : Settings := { s with clearOnReset := clear }

/-- The sizes by the names under which they are written. -/
def sizes (s : Settings) : List (String × Nat) :=
  [("statement_chunk_size", s.statementChunk), ("jacobian_chunk_size", s.partialChunk),
    ("token_chunk_size", s.tokenChunk), ("byte_chunk_size", s.byteChunk),
    ("initial_adjoint_size", s.initialSlots)]

def clearName : String := "clear_adjoints_on_reset"

def text (s : Settings) : String :=
  let sizes := String.join (s.sizes.map fun (name, n) => s!"{name}: {n}, ")
  s!"TapeConfig \x7b {sizes}{clearName}: {s.clearOnReset} \x7d"

end Settings

/-! ## Policies -/

/-- What to do about an identifier outside the vector. -/
inductive Checking where
  /-- A write makes the vector grow, a read is served by slot zero. -/
  | relaxed
  /-- Refuse. -/
  | strict
  /-- Rely on the caller. -/
  | off
  deriving DecidableEq, Inhabited

def Checking.all : List Checking := [relaxed, strict, off]

def Checking.text : Checking → String
  | relaxed => "Relaxed"
  | strict => "Strict"
  | off => "Off"

/-- Whether a replay may make the vector grow first. -/
inductive Management where
  | automatic
  | manual
  deriving DecidableEq, Inhabited

def Management.all : List Management := [automatic, manual]

def Management.text : Management → String
  | automatic => "Automatic"
  | manual => "Manual"

end Autodiff
