import Autodiff.Fault

/-!
# The journal of a computation

Recording, replay and editing announce what they do.  The announcements, and how often each
external function was asked for a size, are kept in a `Journal` that survives a fault.  `Run` is
the monad of such computations; what neither announces nor asks is plain `Except Fault`.
-/

namespace Autodiff

/-- What a computation announces. -/
inductive Event where
  | allocated (chunk limit : Nat)
  /-- An external function is about to run on a block, with the number of adjoint slots. -/
  | entered (direction : Direction) (token : Nat) (name : String)
      (fixed dynamic : List UInt8) (slots : Nat)
  | appended (statements : Nat)
  | erasing (statements : Nat)
  | resetting (statements : Nat)
  | rewinding (target : Cut) (dropped : Nat)
  | readOutside (identifier : Nat) (size : Nat)
  deriving DecidableEq

namespace Event

/-- The log line of an event, with its level in front. -/
def text : Event → String
  | allocated chunk limit => s!"TRACE allocating chunk {chunk} with room for {limit} items"
  | entered direction token name _ _ _ =>
    s!"TRACE {direction.text} through low-level function `{name}` ({tokenText token})"
  | appended n => s!"DEBUG appended {n} statements"
  | erasing n => s!"DEBUG erasing {n} statements"
  | resetting n => s!"DEBUG resetting tape with {n} statements"
  | rewinding target n =>
    s!"DEBUG resetting tape to statement {target.text}, dropping {n} statements"
  | readOutside identifier size =>
    s!"DEBUG identifier {identifier} is outside the adjoint vector (size {size}), reading slot 0"

end Event

def tally (key : Nat) : List (Nat × Nat) → List (Nat × Nat)
  | [] => [(key, 1)]
  | (k, n) :: rest => if k = key then (k, n + 1) :: rest else (k, n) :: tally key rest

def tallied (key : Nat) : List (Nat × Nat) → Nat
  | [] => 0
  | (k, n) :: rest => if k = key then n else tallied key rest

theorem tallied_tally (key other : Nat) (counts : List (Nat × Nat)) :
    tallied other (tally key counts) = tallied other counts + if key = other then 1 else 0 := by
  induction counts with
  | nil => simp [tally, tallied]
  | cons entry rest ih =>
    obtain ⟨k, n⟩ := entry
    by_cases hk : k = key
    · subst hk
      by_cases ho : k = other <;> simp [tally, tallied, ho]
    · simp only [tally, if_neg hk]
      by_cases ho : k = other
      · have hne : key ≠ other := fun h => hk (ho.trans h.symm)
        simp [tallied, ho, hne]
      · simp [tallied, ho, ih]

/-- The events so far, and by the key of an external function how often it was asked for a size. -/
structure Journal where
  events : Array Event := #[]
  asked : List (Nat × Nat) := []

namespace Journal

def note (j : Journal) (es : List Event) : Journal :=
  { j with events := j.events ++ es.toArray }

def timesAsked (j : Journal) (key : Nat) : Nat := tallied key j.asked

def ask (j : Journal) (key : Nat) : Journal := { j with asked := tally key j.asked }

theorem timesAsked_ask (j : Journal) (key other : Nat) :
    (j.ask key).timesAsked other = j.timesAsked other + if key = other then 1 else 0 :=
  tallied_tally key other j.asked

end Journal

/-- A computation that may fault and keeps a journal. -/
abbrev Run := ExceptT Fault (StateM Journal)

namespace Run

def note (es : List Event) : Run Unit := modifyThe Journal fun j => j.note es

/-- Count one more question to the function with the given key, and say how many came before. -/
def ask (key : Nat) : Run Nat :=
  modifyGetThe Journal fun j => (j.timesAsked key, j.ask key)

/-- Outcome and journal of a computation that starts with the given journal. -/
def outcome {α : Type} (c : Run α) (j : Journal) : Except Fault α × Journal :=
  StateT.run (ExceptT.run c) j

@[simp] theorem outcome_pure {α : Type} (a : α) (j : Journal) :
    (pure a : Run α).outcome j = (.ok a, j) :=
  rfl

@[simp] theorem outcome_throw {α : Type} (e : Fault) (j : Journal) :
    (throw e : Run α).outcome j = (.error e, j) :=
  rfl

@[simp] theorem outcome_note (es : List Event) (j : Journal) :
    (note es).outcome j = (.ok (), j.note es) :=
  rfl

@[simp] theorem outcome_ask (key : Nat) (j : Journal) :
    (ask key).outcome j = (.ok (j.timesAsked key), j.ask key) :=
  rfl

@[simp] theorem outcome_liftM {α : Type} (x : Except Fault α) (j : Journal) :
    (liftM x : Run α).outcome j = (x, j) := by
  cases x <;> rfl

@[simp] theorem outcome_ofExcept {α : Type} (x : Except Fault α) (j : Journal) :
    (MonadExcept.ofExcept x : Run α).outcome j = (x, j) := by
  cases x <;> rfl

@[simp] theorem outcome_bind {α β : Type} (c : Run α) (f : α → Run β) (j : Journal) :
    (c >>= f).outcome j =
      match c.outcome j with
      | (.ok a, j') => (f a).outcome j'
      | (.error e, j') => (.error e, j') := by
  change (match c j with | (r, j') => ExceptT.bindCont f r j') =
    match c j with
    | (.ok a, j') => f a j'
    | (.error e, j') => (.error e, j')
  obtain ⟨r, j'⟩ := c j
  cases r <;> rfl

end Run

end Autodiff
