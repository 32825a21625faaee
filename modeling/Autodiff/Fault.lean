import Autodiff.Calculus.Operation
import Autodiff.Stream.Cut

/-!
# Faults and refusals

A `Fault` ends the computation: it reports a broken contract of the caller or of an external
function, or streams that do not fit together.  A `Refusal` is an answer: gradient access and
editing give it and leave the tape usable.

Identifiers name adjoint slots and tokens name the external functions of a tape; both are natural
numbers.
-/

namespace Autodiff

/-! ## Identifiers and tokens -/

/-- The identifier of values without a derivative.  No supply ever issues it. -/
def passive : Nat := 0

/-- All identifiers are below this number. -/
def identifierLimit : Nat := UInt32.size

/-- How identifiers are issued. -/
inductive Scheme where
  | linear
  | reuse
  deriving DecidableEq

def Scheme.text : Scheme → String
  | .linear => "linear"
  | .reuse => "reuse"

def tokenText (token : Nat) : String := s!"#{token}"

/-! ## Faults -/

/-- Causes that end a computation. -/
inductive Fault where
  -- streams
  | emptyChunks
  | noRoom
  | streamRewind (target limit : Cut)
  | streamReversed (direction : Direction) (start stop : Cut)
  | strayCursor (direction : Direction) (cursor bound chunk : Nat)
  | streamExhausted (direction : Direction) (requested : Nat) (cut : Cut)
  | outOfStep (stream : String) (cursor expected : Cut)
  | negativeDistance
  -- sizes
  | sizeOverflow
  | tooLarge
  -- arrays
  | indexOutside (size index : Nat)
  | rangeOutside
  -- identifiers
  | outOfIdentifiers (scheme : Scheme)
  | neverIssued (identifier largest : Nat)
  | alreadyFree (identifier : Nat)
  | counterAhead
  -- byte views
  | writeOverflow (requested remaining size : Nat)
  | readUnderflow (requested remaining size : Nat)
  -- external functions
  | unregistered (token : Nat) (known : Nat)
  | registryFull
  | fixedSizeMismatch (name : String) (token : Nat) (declared requested : Nat)
  | incompleteBlock (name : String) (token : Nat)
      (fixedWritten fixedSize dynamicWritten dynamicSize : Nat)
  | dynamicSizeMismatch (name : String) (token : Nat) (counted pushed : Nat)
      (description : String)
  | maskTooWide (arguments : Nat)
  | argumentOutside (argument arguments : Nat)
  -- statements
  | noArguments
  | tooManyArguments (count : Nat)
  | reservedCount
  | needsTwoOperands (op : Operation)
  | needsOneOperand (op : Operation)
  -- tapes
  | tapeRewind (target limit : Position)
  | tapeReversed (direction : Direction) (start stop : Position)
  | unchecked (identifier : Nat) (size : Nat)
  deriving DecidableEq

/-- All sizes, offsets and chunk numbers are below this number. -/
def sizeLimit : Nat := UInt64.size

/-- The most bytes that one vector, or one column of a chunk, takes. -/
def memoryLimit : Nat := 0x7FFFFFFFFFFFFFFF

/-- The most arguments a mask of argument activities holds. -/
def maskBits : Nat := 64

/-- The most active arguments of one statement; larger counts are reserved. -/
def maxArguments : Nat := 254

/-- The text of a failed equality check: what was checked, then both sides. -/
def unequalText (what : String) (left right : Nat) : String :=
  s!"assertion `left == right` failed: {what}\n  left: {left}\n right: {right}"

namespace Fault

def message : Fault → String
  | emptyChunks => "chunk size must be positive"
  | noRoom => "push without reserve"
  | streamRewind target limit =>
    s!"cannot reset to {target.text}; stream ends at {limit.text}"
  | streamReversed d start stop => s!"{d.text} range {start.text}..{stop.text} is reversed"
  | strayCursor d cursor bound chunk =>
    unequalText
      s!"{d.text} handler stopped at {cursor} instead of {bound} in chunk {chunk}" cursor bound
  | streamExhausted .forward n cut => s!"stream exhausted: {n} items requested at {cut.text}"
  | streamExhausted .reverse n cut => s!"stream exhausted: {n} items requested before {cut.text}"
  | outOfStep stream cursor expected =>
    s!"{stream} stream out of step with statements: cursor at {cursor.text}, " ++
      s!"expected {expected.text}"
  | negativeDistance => "attempt to subtract with overflow"
  | sizeOverflow => "attempt to add with overflow"
  | tooLarge => "capacity overflow"
  | indexOutside size index =>
    s!"index out of bounds: the len is {size} but the index is {index}"
  | rangeOutside => "slice range out of bounds"
  | outOfIdentifiers scheme => s!"{scheme.text} index manager ran out of identifiers"
  | neverIssued identifier largest =>
    s!"freeing identifier {identifier} which was never generated (largest is {largest})"
  | alreadyFree identifier => s!"identifier {identifier} freed twice"
  | counterAhead => "assertion failed: position <= self.count"
  | writeOverflow n remaining size =>
    s!"byte view overflow: writing {n} bytes with {remaining} of {size} left"
  | readUnderflow n remaining size =>
    s!"byte view underflow: reading {n} bytes with {remaining} of {size} left"
  | unregistered token known =>
    s!"low-level function token {tokenText token} is not registered ({known} known)"
  | registryFull => "too many low-level functions registered"
  | fixedSizeMismatch name token declared requested =>
    unequalText
      (s!"low-level function `{name}` ({tokenText token}) has {declared} fixed bytes, " ++
        s!"{requested} requested")
      requested declared
  | incompleteBlock name token fixedWritten fixedSize dynamicWritten dynamicSize =>
    s!"low-level function `{name}` ({tokenText token}) left its data incomplete: " ++
      s!"{fixedWritten}/{fixedSize} fixed and {dynamicWritten}/{dynamicSize} dynamic bytes written"
  | dynamicSizeMismatch name token counted pushed description =>
    unequalText
      (s!"low-level function `{name}` ({tokenText token}) counts {counted} dynamic bytes, " ++
        s!"{pushed} were pushed; {description}")
      counted pushed
  | maskTooWide n => s!"activity of {n} arguments does not fit a mask of {maskBits} bits"
  | argumentOutside argument arguments => s!"argument {argument} out of {arguments}"
  | noArguments => "a statement without arguments is not recorded"
  | tooManyArguments count =>
    s!"statement has {count} active arguments; at most {maxArguments} are supported"
  | reservedCount =>
    "assertion failed: arguments != INPUT_TAG && arguments != LOW_LEVEL_FUNCTION_TAG"
  | needsTwoOperands op => s!"{op.text} takes two operands"
  | needsOneOperand op => s!"{op.text} takes one operand"
  | tapeRewind target limit => s!"cannot reset to {target.text}; tape ends at {limit.text}"
  | tapeReversed d start stop => s!"{d.text} range {start.text}..{stop.text} is reversed"
  | unchecked identifier size =>
    s!"identifier {identifier} is outside the adjoint vector (size {size})"

/-- Steps in sequence succeed when each of them succeeds in turn. -/
theorem bind_eq_ok_iff {α β : Type} {x : Except Fault α} {f : α → Except Fault β} {b : β} :
    (x >>= f) = .ok b ↔ ∃ a, x = .ok a ∧ f a = .ok b := by
  cases x <;> simp [bind, Except.bind]

end Fault

/-! ## Refusals -/

/-- Reasons for which gradient access and editing decline a request. -/
inductive Refusal where
  | outOfBounds (identifier : Nat) (size : Nat)
  | reversedRange
  | foreignPosition
  | unknownToken (token : Nat)
  | incompatibleToken (token : Nat) (sourceName destinationName : String)
  deriving DecidableEq

namespace Refusal

def name : Refusal → String
  | outOfBounds _ _ => "OutOfBounds"
  | reversedRange => "ReversedRange"
  | foreignPosition => "ForeignPosition"
  | unknownToken _ => "UnknownToken"
  | incompatibleToken _ _ _ => "IncompatibleToken"

def message : Refusal → String
  | outOfBounds identifier size =>
    s!"identifier {identifier} is outside the adjoint vector (size {size})"
  | reversedRange => "range start lies after range end"
  | foreignPosition => "position does not belong to this tape"
  | unknownToken token =>
    s!"low-level function token {token} is not registered in the destination tape"
  | incompatibleToken token sourceName destinationName =>
    s!"low-level function token {token} refers to `{sourceName}` in the source tape " ++
      s!"but `{destinationName}` in the destination tape"

end Refusal

end Autodiff
