import Autodiff.Proofs.Outcome
import Autodiff.Tape.Variables
import Mathlib.Logic.Function.Basic

/-!
# Straight-line programs

A program is a list of commands on variables that it knows by name.  A command runs on a `Machine`,
which is a tape with the variables that belong to it.  A name that was never given to a variable
stands for a constant, and so does the name of a variable that was released.

To the tape there are only five kinds of commands.  `Primitive` names them, with what is stored
worked out from the values of the variables, and `Command.run_eq` reduces commands to primitives.
-/

namespace Autodiff

/-! ## Commands -/

/-- A command; a variable is named by the number in front, or is the one to be changed. -/
inductive Command (F : Type) where
  | input (name : Nat) (x : F)
  | constant (name : Nat) (x : F)
  | unary (name : Nat) (op : Operation) (a : Nat)
  | binary (name : Nat) (op : Operation) (a b : Nat)
  | unaryInto (target : Nat) (op : Operation) (a : Nat)
  | binaryInto (target : Nat) (op : Operation) (a b : Nat)
  | apply (target : Nat) (op : Operation)
  | applyWith (target : Nat) (op : Operation) (b : Nat)
  | copy (name a : Nat)
  | assign (target a : Nat)
  | assignConstant (target : Nat) (x : F)
  | markOutput (target : Nat)
  | release (target : Nat)
  | setActive (active : Bool)

/-- A tape, the variables that belong to it by name, and the identifiers that its inputs were given
in the order of their registration. -/
structure Machine (F : Type) (s : Scheme) where
  tape : Tape F s
  variableOf : Nat → Variable F
  inputs : List Nat

namespace Machine

variable {F : Type} {s : Scheme}

def start [Zero F] (t : Tape F s) : Machine F s := ⟨t, fun _ => .constant 0, []⟩

def identifier (m : Machine F s) (name : Nat) : Nat := (m.variableOf name).identifier

def value (m : Machine F s) (name : Nat) : F := (m.variableOf name).value

/-- Give a name to a variable that was made on the way to the tape `t`. -/
def bind (m : Machine F s) (name : Nat) (a : Variable F) (t : Tape F s) : Machine F s :=
  { m with tape := t, variableOf := Function.update m.variableOf name a }

theorem variableOf_bind (m : Machine F s) (name : Nat) (a : Variable F) (t : Tape F s) :
    (m.bind name a t).variableOf = Function.update m.variableOf name a :=
  rfl

@[simp] theorem identifier_bind_self (m : Machine F s) (name : Nat) (a : Variable F)
    (t : Tape F s) : (m.bind name a t).identifier name = a.identifier := by
  rw [identifier, variableOf_bind, Function.update_self]

theorem identifier_bind_of_ne (m : Machine F s) {name other : Nat} (h : other ≠ name)
    (a : Variable F) (t : Tape F s) : (m.bind name a t).identifier other = m.identifier other := by
  rw [identifier, variableOf_bind, Function.update_of_ne h]
  rfl

theorem identifier_update {m m' : Machine F s} {name : Nat} {a : Variable F}
    (h : m'.variableOf = Function.update m.variableOf name a) (x : Nat) :
    m'.identifier x = if x = name then a.identifier else m.identifier x := by
  rw [identifier, h, Function.update_apply]
  split <;> rfl

theorem value_update {m m' : Machine F s} {name : Nat} {a : Variable F}
    (h : m'.variableOf = Function.update m.variableOf name a) (x : Nat) :
    m'.value x = if x = name then a.value else m.value x := by
  rw [value, h, Function.update_apply]
  split <;> rfl

end Machine

section Run

variable {F : Type} [Zero F] [One F] [Add F] [Sub F] [Mul F] [Div F] [Neg F] [IntCast F]
  [Elementary F] {s : Scheme}

def Command.run (c : Command F) (m : Machine F s) : Run (Machine F s) :=
  match c with
  | input name x => do
    let (a, t) ← m.tape.input x
    let m := m.bind name a t
    return if a.isActive then { m with inputs := m.inputs ++ [a.identifier] } else m
  | constant name x => return m.bind name (.constant x) m.tape
  | unary name op a => do
    let (a, t) ← m.tape.unary op (m.variableOf a)
    return m.bind name a t
  | binary name op a b => do
    let (a, t) ← m.tape.binary op (m.variableOf a) (m.variableOf b)
    return m.bind name a t
  | unaryInto target op a => do
    let (a, t) ← m.tape.unaryInto (m.variableOf target) op (m.variableOf a)
    return m.bind target a t
  | binaryInto target op a b => do
    let (a, t) ← m.tape.binaryInto (m.variableOf target) op (m.variableOf a) (m.variableOf b)
    return m.bind target a t
  | apply target op => do
    let (a, t) ← m.tape.apply (m.variableOf target) op
    return m.bind target a t
  | applyWith target op b => do
    let (a, t) ← m.tape.applyWith (m.variableOf target) op (m.variableOf b)
    return m.bind target a t
  | copy name a => do
    let (a, t) ← m.tape.copy (m.variableOf a)
    return m.bind name a t
  | assign target a => do
    let (a, t) ← m.tape.assign (m.variableOf target) (m.variableOf a)
    return m.bind target a t
  | assignConstant target x => do
    let (a, t) ← m.tape.assignConstant (m.variableOf target) x
    return m.bind target a t
  | markOutput target => do
    let (a, t) ← m.tape.markOutput (m.variableOf target)
    return m.bind target a t
  | release target => do
    let t ← m.tape.releaseVariable (m.variableOf target)
    return m.bind target (.constant 0) t
  | setActive active => return { m with tape := m.tape.setActive active }

def runAll (cs : List (Command F)) (m : Machine F s) : Run (Machine F s) :=
  cs.foldlM (fun m c => c.run m) m

end Run

/-! ## Primitives -/

/-- What a command comes to for the tape. -/
inductive Primitive (F : Type) where
  /-- A new input. -/
  | input (name : Nat) (x : F)
  /-- Store `x` with its derivatives by the named variables. Only an overwriting command lets the
  tape know of the variable that had the name before. -/
  | store (name : Nat) (x : F) (overwrites : Bool) (operands : List (F × Nat))
  /-- Make a variable a constant. The tape may be told to take its identifier back. -/
  | drop (name : Nat) (x : F) (releases : Bool)
  | output (name : Nat)
  | setActive (active : Bool)

namespace Command

variable {F : Type}

/-- The operation of a command takes as many operands as the command has for it. -/
def Fits : Command F → Prop
  | unary _ op _ | unaryInto _ op _ | apply _ op => op.isBinary = false
  | binary _ op _ _ | binaryInto _ op _ _ | applyWith _ op _ => op.isBinary = true
  | _ => True

variable [Zero F] [One F] [Add F] [Sub F] [Mul F] [Div F] [Neg F] [IntCast F] [Elementary F]

/-- The result of an operation on one variable, and its derivative by it. -/
def ofUnary (value : Nat → F) (name : Nat) (overwrites : Bool) (op : Operation) (a : Nat) :
    Primitive F :=
  let result := op.value (value a) 0
  .store name result overwrites [((op.partials (value a) 0 result).1, a)]

/-- The result of an operation on two variables, and its derivatives by them. -/
def ofBinary (value : Nat → F) (name : Nat) (overwrites : Bool) (op : Operation) (a b : Nat) :
    Primitive F :=
  let result := op.value (value a) (value b)
  let (da, db) := op.partials (value a) (value b) result
  .store name result overwrites [(da, a), (db, b)]

/-- What a command comes to where the variables have the given values. -/
def primitive (value : Nat → F) : Command F → Primitive F
  | input name x => .input name x
  | constant name x => .drop name x false
  | unary name op a => ofUnary value name false op a
  | binary name op a b => ofBinary value name false op a b
  | unaryInto target op a => ofUnary value target true op a
  | binaryInto target op a b => ofBinary value target true op a b
  | apply target op => ofUnary value target true op target
  | applyWith target op b => ofBinary value target true op target b
  | copy name a => .store name (value a) false [(1, a)]
  | assign target a => .store target (value a) true [(1, a)]
  | assignConstant target x => .drop target x true
  | markOutput target => .output target
  | release target => .drop target 0 true
  | setActive active => .setActive active

end Command

namespace Primitive

variable {F : Type} {s : Scheme}

/-- The arguments that the tape is handed for some operands. -/
def arguments (m : Machine F s) (operands : List (F × Nat)) : List (F × Nat) :=
  operands.map fun e => (e.1, m.identifier e.2)

/-- The tape without a variable, which it may be told of. -/
def retire (m : Machine F s) (name : Nat) (releases : Bool) : Except Fault (Tape F s) :=
  if releases then m.tape.release (m.identifier name) else .ok m.tape

def run [One F] (m : Machine F s) : Primitive F → Run (Machine F s)
  | input name x => do
    let (identifier, t) ← m.tape.registerInput
    let m := m.bind name ⟨x, identifier⟩ t
    return if identifier != passive then { m with inputs := m.inputs ++ [identifier] } else m
  | store name x overwrites operands => do
    let (identifier, t) ← m.tape.store (if overwrites then m.identifier name else passive)
      (arguments m operands)
    return m.bind name ⟨x, identifier⟩ t
  | drop name x releases => do
    let t ← retire m name releases
    return m.bind name (.constant x) t
  | output name => do
    let (identifier, t) ← m.tape.registerOutput (m.identifier name)
    return m.bind name ⟨m.value name, identifier⟩ t
  | setActive active => return { m with tape := m.tape.setActive active }

end Primitive

section Reduction

variable {F : Type} [Zero F] [One F] [Add F] [Sub F] [Mul F] [Div F] [Neg F] [IntCast F]
  [Elementary F] {s : Scheme}

theorem Tape.unaryInto_eq {op : Operation} (h : op.isBinary = false) (t : Tape F s)
    (target a : Variable F) :
    t.unaryInto target op a = do
      let (identifier, t) ← t.store target.identifier
        [((op.partials a.value 0 (op.value a.value 0)).1, a.identifier)]
      return (⟨op.value a.value 0, identifier⟩, t) := by
  simp only [unaryInto, h, Bool.false_eq_true, ↓reduceIte]

theorem Tape.binaryInto_eq {op : Operation} (h : op.isBinary = true) (t : Tape F s)
    (target a b : Variable F) :
    t.binaryInto target op a b = do
      let (identifier, t) ← t.store target.identifier
        [((op.partials a.value b.value (op.value a.value b.value)).1, a.identifier),
          ((op.partials a.value b.value (op.value a.value b.value)).2, b.identifier)]
      return (⟨op.value a.value b.value, identifier⟩, t) := by
  simp only [binaryInto, h, ↓reduceIte]

theorem Command.run_eq {c : Command F} (h : c.Fits) (m : Machine F s) :
    c.run m = (c.primitive m.value).run m := by
  cases c with
  | input name x =>
    simp only [run, Tape.input, bind_assoc, pure_bind]
    rfl
  | constant name x => rfl
  | unary name op a =>
    have hop : op.isBinary = false := h
    simp only [run, Tape.unary, m.tape.unaryInto_eq hop, bind_assoc, pure_bind]
    rfl
  | binary name op a b =>
    have hop : op.isBinary = true := h
    simp only [run, Tape.binary, m.tape.binaryInto_eq hop, bind_assoc, pure_bind]
    rfl
  | unaryInto target op a =>
    have hop : op.isBinary = false := h
    simp only [run, m.tape.unaryInto_eq hop, bind_assoc, pure_bind]
    rfl
  | binaryInto target op a b =>
    have hop : op.isBinary = true := h
    simp only [run, m.tape.binaryInto_eq hop, bind_assoc, pure_bind]
    rfl
  | apply target op =>
    have hop : op.isBinary = false := h
    simp only [run, Tape.apply, m.tape.unaryInto_eq hop, bind_assoc, pure_bind]
    rfl
  | applyWith target op b =>
    have hop : op.isBinary = true := h
    simp only [run, Tape.applyWith, m.tape.binaryInto_eq hop, bind_assoc, pure_bind]
    rfl
  | copy name a =>
    simp only [run, Tape.copy, Tape.assign, bind_assoc, pure_bind]
    rfl
  | assign target a =>
    simp only [run, Tape.assign, bind_assoc, pure_bind]
    rfl
  -- Both release the old identifier; only the shape of the binds is different.
  | assignConstant target x =>
    show liftM (m.tape.release (m.identifier target) >>= _) >>= _ =
      liftM (m.tape.release (m.identifier target)) >>= _
    cases m.tape.release (m.identifier target) <;> rfl
  | markOutput target =>
    simp only [run, Tape.markOutput, bind_assoc, pure_bind]
    rfl
  | release target => rfl
  | setActive active => rfl

end Reduction

end Autodiff
