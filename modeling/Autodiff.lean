import Autodiff.Block.Plan
import Autodiff.Block.Standard
import Autodiff.Calculus.Datum
import Autodiff.Recording.Content
import Autodiff.Settings.Reader
import Autodiff.Tape.Census
import Autodiff.Tape.Editing
import Autodiff.Tape.Sharing
import Autodiff.Tape.Sweeps
import Autodiff.Tape.Variables
import Autodiff.Proofs.Stream.Growth
import Autodiff.Proofs.Stream.Runs
import Autodiff.Proofs.Stream.Range
import Autodiff.Proofs.Stream.Places
import Autodiff.Proofs.Stream.Offsets
import Autodiff.Proofs.Stream.Lengths
import Autodiff.Proofs.Stream.Losses
import Autodiff.Proofs.Stream.Batches
import Autodiff.Proofs.Stream.Recovery
import Autodiff.Proofs.Stream.Capacity
import Autodiff.Proofs.Stream.Calls
import Autodiff.Proofs.Stream.Columns
import Autodiff.Proofs.Stream.Visits
import Autodiff.Proofs.Stream.Sweeps
import Autodiff.Proofs.Recording.Layout
import Autodiff.Proofs.Recording.Walk
import Autodiff.Proofs.Tape.History
import Autodiff.Proofs.Tape.Steps
import Autodiff.Proofs.Tape.Aligned
import Autodiff.Proofs.Tape.Edits
import Autodiff.Proofs.Recording.Slots
import Autodiff.Proofs.Tape.Replay
import Autodiff.Proofs.Recording.Transpose
import Autodiff.Proofs.Tape.Transpose
import Autodiff.Proofs.Program.Command
import Autodiff.Proofs.Program.Ownership
import Autodiff.Proofs.Calculus.Dual
import Autodiff.Proofs.Program.Path
import Autodiff.Proofs.Tape.Plain
import Autodiff.Proofs.Program.Tangent
import Autodiff.Proofs.Program.Alike
import Autodiff.Proofs.Program.Apart
import Autodiff.Proofs.Program.Reuse
import Autodiff.Proofs.Tape.Appending
import Autodiff.Proofs.Tape.Erasing
import Autodiff.Proofs.Tape.Erased
import Autodiff.Proofs.Recording.Lockstep
import Autodiff.Proofs.Tape.Session
import Autodiff.Proofs.Tape.Twin
import Autodiff.Proofs.Tape.Scratch
import Autodiff.Proofs.Tape.Refusals
import Autodiff.Proofs.Program.Lifetime
import Autodiff.Proofs.Block.Access
import Autodiff.Proofs.Tape.Clearing
import Autodiff.Proofs.Tape.Sizing
import Autodiff.Proofs.Recording.Misread
import Autodiff.Proofs.Tape.Misreport
import Autodiff.Proofs.Tape.Decoding
import Autodiff.Proofs.Tape.Splitting
import Autodiff.Proofs.Program.Grounded
import Autodiff.Proofs.Program.Afresh
import Autodiff.Proofs.Tape.Calls
import Autodiff.Proofs.Tape.Rewinding
import Autodiff.Proofs.Tape.Intact
import Autodiff.Proofs.Tape.Order
import Autodiff.Proofs.Program.Stale
import Autodiff.Proofs.Program.Stock
import Autodiff.Proofs.Program.Renewed
import Autodiff.Proofs.Tape.Numbering
import Autodiff.Proofs.Program.Settled
import Autodiff.Proofs.Tape.Tally
import Autodiff.Proofs.Tape.Dummy
import Autodiff.Proofs.Tape.Cleared
import Autodiff.Proofs.Supply.Peak
import Autodiff.Proofs.Block.RoundTrip
import Autodiff.Proofs.Block.Masks
import Autodiff.Proofs.Stream.Emptiness
import Autodiff.Proofs.Block.Strays
import Autodiff.Proofs.Calculus.Partials
import Autodiff.Proofs.Tape.Gradients
