/-!
# Plans for the arguments of an external function

For every argument of an external function a plan says what to do with it while the block is
recorded, and what to do while it is replayed.
-/

namespace Autodiff

/-- What to do for one argument while a block is recorded. -/
structure RecordPlan where
  /-- Keep the input's value in the block. -/
  keepValue : Bool
  /-- Read the input's value for the evaluation itself. -/
  readValue : Bool
  /-- Keep the input's identifier in the block. -/
  keepIdentifier : Bool
  /-- Register an identifier for the output. -/
  registerOutput : Bool
  deriving DecidableEq

/-- The plan for an argument of a tape that may be passive. -/
def RecordPlan.make (recording isInput isOutput inputActive valueNeeded : Bool) : RecordPlan where
  keepValue := recording && isInput && valueNeeded
  readValue := isInput
  keepIdentifier := recording && isInput && inputActive
  registerOutput := recording && isOutput

/-- What to do for one argument while a block is replayed. -/
structure ReplayPlan where
  /-- Read the input's value from the block. -/
  restoreValue : Bool
  /-- Make room for the output's value. -/
  makeValue : Bool
  /-- Read the input's identifier from the block. -/
  restoreInput : Bool
  /-- Make room for the input's derivative. -/
  makeInputDerivative : Bool
  /-- Read the output's identifier from the block. -/
  restoreOutput : Bool
  /-- Make room for the output's derivative. -/
  makeOutputDerivative : Bool
  deriving DecidableEq

/-- The plan for an argument; its room for a value is only made when no value is restored. -/
def ReplayPlan.make (isInput isOutput inputActive valueNeeded : Bool) : ReplayPlan where
  restoreValue := isInput && valueNeeded
  makeValue := !(isInput && valueNeeded) && isOutput
  restoreInput := isInput && inputActive
  makeInputDerivative := isInput && inputActive
  restoreOutput := isOutput
  makeOutputDerivative := isOutput

end Autodiff
