import Autodiff.Proofs.Tape.Aligned
import Autodiff.Tape.Census
import Autodiff.Tape.Editing
import Autodiff.Tape.Gradients
import Autodiff.Tape.Sweeps

/-!
# Sessions

A session puts requests to a tape one after another, whatever a tape can be asked for, and collects
the answers.  What variables do to a tape comes down to storing, registering and releasing.
-/

namespace Autodiff

/-! ## Requests -/

/-- What can be asked of a tape whose external functions come from a library. Other tapes that take
part have their functions from there too. -/
inductive Request {F : Type} (lib : Library F) where
  | register (key : Nat)
  | setActive (active : Bool)
  | store (target : Nat) (arguments : List (F × Nat))
  | release (identifier : Nat)
  | registerInput
  | registerOutput (identifier : Nat)
  | pushBlock (token fixedSize dynamicSize : Nat)
      (write : Writer → Writer → Except Fault (Writer × Writer))
  | reset
  | resetTo (p : Position)
  | append (source : Tape F .reuse) (known : source.registry.Within lib) (start stop : Position)
  | erase (start stop : Position)
  | eraseWith (scratch : Tape F .reuse) (known : scratch.registry.Within lib)
      (start stop : Position)
  /-- Serve as the scratch tape of another one. -/
  | lend (other : Tape F .reuse) (known : other.registry.Within lib) (start stop : Position)
  | evaluate (d : Direction) (start stop : Position) (management : Management)
  | evaluateAll (d : Direction)
  | evaluateWith (d : Direction) (start stop : Position) (v : Adjoints F)
  | clearBetween (start stop : Position) (management : Management)
  | clearAll
  | gradient (identifier : Nat)
  | getGradient (identifier : Nat) (checking : Checking)
  | modifyGradient (identifier : Nat) (checking : Checking) (f : F → F)
  | seed (identifier : Nat) (x : F)
  | resize (n : Nat)
  | ensure (i : Nat)
  | vector
  | position
  | contains (p : Position)
  | census

/-- What a tape answers; after erasing that includes the other tape as it is left. -/
inductive Answer (F : Type) where
  | done
  | refused (refusal : Refusal)
  | identifier (n : Nat)
  | number (x : F)
  | vector (v : Adjoints F)
  | views (views : Option (Writer × Writer))
  | place (p : Position)
  | truth (b : Bool)
  | report (c : Census)
  | edited (result : Except Refusal Unit) (other : Tape F .reuse)

/-- Whether the request sizes the vector by the largest identifier of the tape. -/
def Request.Automatic {F : Type} {lib : Library F} : Request lib → Prop
  | .evaluate _ _ _ management => management = .automatic
  | .clearBetween _ _ management => management = .automatic
  | .evaluateAll _ => True
  | _ => False

namespace Tape

section Serve

variable {F : Type} {lib : Library F} [Zero F] [One F] [Add F] [Mul F] [BEq F] [FixedWidth F]

def perform (t : Tape F .reuse) : Request lib → Run (Answer F × Tape F .reuse)
  | .register key => do
    let (token, t) ← t.register (lib.function key)
    return (.identifier token, t)
  | .setActive active => return (.done, t.setActive active)
  | .store target arguments => do
    let (identifier, t) ← t.store target arguments
    return (.identifier identifier, t)
  | .release identifier => do
    let t ← t.release identifier
    return (.done, t)
  | .registerInput => do
    let (identifier, t) ← t.registerInput
    return (.identifier identifier, t)
  | .registerOutput identifier => do
    let (output, t) ← t.registerOutput identifier
    return (.identifier output, t)
  | .pushBlock token fixedSize dynamicSize write => do
    let (views, t) ← t.pushBlock token fixedSize dynamicSize write
    return (.views views, t)
  | .reset => do
    let t ← t.reset
    return (.done, t)
  | .resetTo p => do
    let t ← t.resetTo p
    return (.done, t)
  | .append source _ start stop => do
    match ← t.append source start stop with
    | .ok t => return (.done, t)
    | .error refusal => return (.refused refusal, t)
  | .erase start stop => do
    match ← t.erase start stop with
    | (.ok (), t) => return (.done, t)
    | (.error refusal, t) => return (.refused refusal, t)
  | .eraseWith scratch _ start stop => do
    let (result, t, scratch) ← t.eraseWith scratch start stop
    return (.edited result scratch, t)
  | .lend other _ start stop => do
    let (result, other, t) ← other.eraseWith t start stop
    return (.edited result other, t)
  | .evaluate d start stop management => do
    let t ← t.evaluate d start stop management
    return (.done, t)
  | .evaluateAll d => do
    let t ← t.evaluateAll d
    return (.done, t)
  | .evaluateWith d start stop v => do
    let v ← t.evaluateWith d start stop v
    return (.vector v, t)
  | .clearBetween start stop management => do
    let t ← t.clearBetween start stop management
    return (.done, t)
  | .clearAll => return (.done, t.clearAllAdjoints)
  | .gradient identifier => do
    let x ← t.gradient identifier
    return (.number x, t)
  | .getGradient identifier checking => do
    match ← t.getGradient identifier checking with
    | .ok x => return (.number x, t)
    | .error refusal => return (.refused refusal, t)
  | .modifyGradient identifier checking f => do
    match ← t.modifyGradient identifier checking f with
    | .ok (x, t) => return (.number x, t)
    | .error refusal => return (.refused refusal, t)
  | .seed identifier x => do
    let t ← t.seed identifier x
    return (.done, t)
  | .resize n => do
    let t ← t.resizeAdjoints n
    return (.done, t)
  | .ensure i => do
    let t ← t.ensureAdjoint i
    return (.done, t)
  | .vector => return (.vector t.adjoints, t)
  | .position => return (.place t.position, t)
  | .contains p => return (.truth (decide (t.Contains p)), t)
  | .census => return (.report t.census, t)

/-- The answers to some requests, put to the tape one after another. -/
def serve (t : Tape F .reuse) : List (Request lib) → Run (List (Answer F))
  | [] => return []
  | r :: rs => do
    let (a, t) ← t.perform r
    let as ← serve t rs
    return a :: as

end Serve

end Tape

end Autodiff
