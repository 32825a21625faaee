import Autodiff.Tape.Editing

/-!
# Histories

Which statements a tape holds depends on everything that was done with it: what was recorded, to
which positions it was reset, what was appended and erased.  A `History` keeps the plain list of
those statements next to the tape, and `Reached` says which tapes can be reached from a new one and
with which history.
-/

namespace Autodiff

/-! ## External functions -/

/-- The external functions of a program, by key.  They keep to what is asked of all of them: the
number of dynamic bytes is derived from the fixed bytes alone, without side effects, and the slots
of a vector are read and written, never added or removed. -/
structure Library (F : Type) where
  function : Nat → External F
  key_function : ∀ key, (function key).key = key
  dynamicSize_eq : ∀ key asked fixed,
    (function key).dynamicSize asked fixed = (function key).dynamicSize 0 fixed
  size_forward : ∀ {key fixed dynamic v w},
    (function key).forward fixed dynamic v = .ok w → w.size = v.size
  size_reverse : ∀ {key fixed dynamic v w},
    (function key).reverse fixed dynamic v = .ok w → w.size = v.size

namespace Library

variable {F : Type}

/-- Functions that leave the vector alone. The one fixed byte of their blocks says how many dynamic
bytes there are. -/
def counting : Library F where
  function key := {
    key := key
    name := "counting"
    fixedSize := 1
    dynamicSize := fun _ fixed => .ok (fixed.bytes.getD 0 0).toNat
    forward := fun _ _ v => .ok v
    reverse := fun _ _ v => .ok v }
  key_function _ := rfl
  dynamicSize_eq _ _ _ := rfl
  size_forward h := by
    cases h
    rfl
  size_reverse h := by
    cases h
    rfl

instance : Inhabited (Library F) := ⟨counting⟩

end Library

/-- `write` fills its two views by writing fields to them, whatever makes it choose the fields. -/
def Fills (write : Writer → Writer → Except Fault (Writer × Writer)) : Prop :=
  ∀ {fixed dynamic fixed' dynamic'}, write fixed dynamic = .ok (fixed', dynamic') →
    (∃ fs, fixed.putAll fs = .ok fixed') ∧ ∃ fs, dynamic.putAll fs = .ok dynamic'

theorem fills_putAll (fs gs : List Field) :
    Fills fun fixed dynamic => do
      let fixed ← fixed.putAll fs
      let dynamic ← dynamic.putAll gs
      return (fixed, dynamic) := by
  intro fixed dynamic fixed' dynamic' h
  simp only [Fault.bind_eq_ok_iff] at h
  obtain ⟨w, hfixed, w', hdynamic, h⟩ := h
  cases h
  exact ⟨⟨fs, hfixed⟩, ⟨gs, hdynamic⟩⟩

/-! ## Histories -/

/-- The statements that a tape holds, and the positions taken from it that it still contains, each
with the number of statements before it. -/
structure History (F : Type) where
  statements : List (Statement F) := []
  marks : List (Position × Nat) := []

namespace History

variable {F : Type}

def extend (h : History F) (ss : List (Statement F)) : History F :=
  { h with statements := h.statements ++ ss }

/-- Keep a position at the end of the recording. -/
def mark (h : History F) (p : Position) : History F :=
  { h with marks := (p, h.statements.length) :: h.marks }

/-- Drop everything behind a position that has `n` statements before it. -/
def cut (h : History F) (p : Position) (n : Nat) : History F where
  statements := h.statements.take n
  marks := h.marks.filter fun m => decide (m.1 ≤ p)

/-- Drop the statements from number `i` up to number `k`, and every position behind `p`. -/
def erase (h : History F) (p : Position) (i k : Nat) : History F :=
  (h.cut p i).extend (h.statements.drop k)

/-- `p` is a position of the tape with `n` statements before it. -/
def Valid (h : History F) (p : Position) (n : Nat) : Prop :=
  (p = .zero ∧ n = 0) ∨ (p, n) ∈ h.marks

/-- The statements from number `i` up to number `k`. -/
def between (h : History F) (i k : Nat) : List (Statement F) := (h.statements.take k).drop i

theorem take_append_between (h : History F) {i k : Nat} (hik : i ≤ k) :
    h.statements.take i ++ h.between i k = h.statements.take k := by
  have hsplit := List.take_append_drop i (h.statements.take k)
  rwa [List.take_take, Nat.min_eq_left hik] at hsplit

theorem extend_nil (h : History F) : h.extend [] = h := by
  rw [extend, List.append_nil]

theorem valid_zero (h : History F) : h.Valid .zero 0 := Or.inl ⟨rfl, rfl⟩

theorem valid_mark (h : History F) (p : Position) : (h.mark p).Valid p h.statements.length :=
  Or.inr (List.mem_cons_self ..)

theorem Valid.mark {h : History F} {p : Position} {n : Nat} (hp : h.Valid p n) (q : Position) :
    (h.mark q).Valid p n := by
  rcases hp with hzero | hmem
  · exact Or.inl hzero
  · exact Or.inr (List.mem_cons_of_mem _ hmem)

theorem Valid.cut {h : History F} {p q : Position} {n : Nat} (hp : h.Valid p n) (hle : p ≤ q)
    (k : Nat) : (h.cut q k).Valid p n := by
  rcases hp with hzero | hmem
  · exact Or.inl hzero
  · exact Or.inr (List.mem_filter.2 ⟨hmem, decide_eq_true hle⟩)

theorem Valid.extend {h : History F} {p : Position} {n : Nat} (hp : h.Valid p n)
    (ss : List (Statement F)) : (h.extend ss).Valid p n :=
  hp

end History

/-! ## What is recorded -/

namespace Tape

variable {F : Type} {s : Scheme}

/-- What an assignment records that gave the identifier `target`. -/
def newAssignment (t : Tape F s) (target : Nat) (arguments : List (F × Nat)) :
    List (Statement F) :=
  let entries := arguments.filter fun e => e.2 != passive
  if !t.active || entries.isEmpty then [] else [.normal target entries]

/-- What a new independent variable records. -/
def newInput (t : Tape F s) (identifier : Nat) : List (Statement F) :=
  if t.active then [.input identifier] else []

/-- What an output with the given identifier records for a variable. -/
def newOutput [One F] (t : Tape F s) (identifier output : Nat) : List (Statement F) :=
  if identifier = passive then [] else t.newAssignment output [(1, identifier)]

end Tape

/-- What a block records whose views were filled like this; a passive tape leaves none. -/
def newBlock {F : Type} (token : Nat) : Option (Writer × Writer) → List (Statement F)
  | some (fixed, dynamic) =>
    [.block token (max fixed.largest dynamic.largest) fixed.bytes.toList dynamic.bytes.toList]
  | none => []

/-- The history of a tape after erasing; a refusal leaves it as it was. -/
def History.erased {F : Type} (h : History F) (p : Position) (i k : Nat) :
    Except Refusal Unit → History F
  | .ok () => h.erase p i k
  | .error _ => h

/-! ## Tapes that can be reached -/

section Reached

variable {F : Type} [Zero F] [One F] [FixedWidth F]

/-- A step that records, edits or resets, and what becomes of the history.  Other tapes that a step
takes statements from, or uses on the way, are `Known` with their histories. -/
inductive RecordingStep (lib : Library F) (Known : Tape F .reuse → History F → Prop) :
    {s : Scheme} → Tape F s → History F → Tape F s → History F → Prop
  | register {s : Scheme} {t t' : Tape F s} {h : History F} {key token : Nat} :
    t.register (lib.function key) = .ok (token, t') → RecordingStep lib Known t h t' h
  | setActive {s : Scheme} {t : Tape F s} {h : History F} (active : Bool) :
    RecordingStep lib Known t h (t.setActive active) h
  | mark {s : Scheme} {t : Tape F s} {h : History F} :
    RecordingStep lib Known t h t (h.mark t.position)
  | release {s : Scheme} {t t' : Tape F s} {h : History F} {identifier : Nat} :
    t.release identifier = .ok t' → RecordingStep lib Known t h t' h
  | store {s : Scheme} {t t' : Tape F s} {h : History F} {target identifier : Nat}
      {arguments : List (F × Nat)} {j j' : Journal} :
    (t.store target arguments).outcome j = (.ok (identifier, t'), j') →
      RecordingStep lib Known t h t' (h.extend (t.newAssignment identifier arguments))
  | registerInput {s : Scheme} {t t' : Tape F s} {h : History F} {identifier : Nat}
      {j j' : Journal} :
    t.registerInput.outcome j = (.ok (identifier, t'), j') →
      RecordingStep lib Known t h t' (h.extend (t.newInput identifier))
  | registerOutput {s : Scheme} {t t' : Tape F s} {h : History F} {identifier output : Nat}
      {j j' : Journal} :
    (t.registerOutput identifier).outcome j = (.ok (output, t'), j') →
      RecordingStep lib Known t h t' (h.extend (t.newOutput identifier output))
  | pushBlock {s : Scheme} {t t' : Tape F s} {h : History F} {token fixedSize dynamicSize : Nat}
      {write : Writer → Writer → Except Fault (Writer × Writer)}
      {views : Option (Writer × Writer)} {j j' : Journal} :
    Fills write →
      (t.pushBlock token fixedSize dynamicSize write).outcome j = (.ok (views, t'), j') →
      RecordingStep lib Known t h t' (h.extend (newBlock token views))
  | reset {s : Scheme} {t t' : Tape F s} {h : History F} {j j' : Journal} :
    t.reset.outcome j = (.ok t', j') → RecordingStep lib Known t h t' {}
  | resetTo {s : Scheme} {t t' : Tape F s} {h : History F} {p : Position} {n : Nat}
      {j j' : Journal} :
    h.Valid p n → (t.resetTo p).outcome j = (.ok t', j') →
      RecordingStep lib Known t h t' (h.cut p n)
  | append {t t' source : Tape F .reuse} {h h' : History F} {p q : Position} {i k : Nat}
      {j j' : Journal} :
    Known source h' → h'.Valid p i → h'.Valid q k →
      (t.append source p q).outcome j = (.ok (.ok t'), j') →
      RecordingStep lib Known t h t' (h.extend (h'.between i k))
  | erase {t t' : Tape F .reuse} {h : History F} {p q : Position} {i k : Nat}
      {result : Except Refusal Unit} {j j' : Journal} :
    h.Valid p i → h.Valid q k → (t.erase p q).outcome j = (.ok (result, t'), j') →
      RecordingStep lib Known t h t' (h.erased p i k result)
  /-- Erasing by way of another tape, which is left as `scratch'`. -/
  | eraseWith {t t' scratch scratch' : Tape F .reuse} {h h' : History F} {p q : Position}
      {i k : Nat} {result : Except Refusal Unit} {j j' : Journal} :
    Known scratch h' → h.Valid p i → h.Valid q k →
      (t.eraseWith scratch p q).outcome j = (.ok (result, t', scratch'), j') →
      RecordingStep lib Known t h t' (h.erased p i k result)

/-- The tapes that can be reached from new ones, with what they hold. -/
inductive Reached (lib : Library F) : {s : Scheme} → Tape F s → History F → Prop
  | create {s : Scheme} {settings : Settings} {v : Adjoints F} {t : Tape F s} :
    Tape.create settings v = .ok t → Reached lib t {}
  /-- Sweeps and access to gradients change the vector alone. -/
  | setVector {s : Scheme} {t : Tape F s} {h : History F} (v : Adjoints F) :
    Reached lib t h → Reached lib { t with adjoints := v } h
  | step {s : Scheme} {t t' : Tape F s} {h h' : History F} :
    Reached lib t h → RecordingStep lib (Reached lib) t h t' h' → Reached lib t' h'

/-- Whatever new tapes have, and every step keeps, can be said of every tape that is reached.  It
may be used of the other tapes that take part in a step, too. -/
@[induction_eliminator]
theorem Reached.induction {lib : Library F}
    {motive : ∀ {s : Scheme} (t : Tape F s) (h : History F), Reached lib t h → Prop}
    (create : ∀ {s : Scheme} {settings : Settings} {v : Adjoints F} {t : Tape F s}
      (hc : Tape.create settings v = .ok t), motive t {} (.create hc))
    (setVector : ∀ {s : Scheme} {t : Tape F s} {h : History F} (v : Adjoints F)
      (hr : Reached lib t h), motive t h hr → motive { t with adjoints := v } h (.setVector v hr))
    (step : ∀ {s : Scheme} {t t' : Tape F s} {h h' : History F} (hr : Reached lib t h)
      (hstep : RecordingStep lib (Reached lib) t h t' h'), motive t h hr →
      RecordingStep lib (fun t h => ∃ hr, motive t h hr) t h t' h' → motive t' h' (.step hr hstep))
    {s : Scheme} {t : Tape F s} {h : History F} (hr : Reached lib t h) : motive t h hr := by
  refine @Reached.rec F _ _ _ lib motive
    (fun t h t' h' _ => RecordingStep lib (fun t h => ∃ hr, motive t h hr) t h t' h')
    ?create ?setVector ?step ?register ?setActive ?mark ?release ?store ?registerInput
    ?registerOutput ?pushBlock ?reset ?resetTo ?append ?erase ?eraseWith s t h hr
  case create => exact create
  case setVector => exact setVector
  case step => exact step
  -- What is known of another tape is the hypothesis of the induction for it.
  case append => exact fun hr hp hq hc hm => .append ⟨hr, hm⟩ hp hq hc
  case eraseWith => exact fun hr hp hq hc hm => .eraseWith ⟨hr, hm⟩ hp hq hc
  case register => exact .register
  case setActive => exact .setActive
  case mark => exact .mark
  case release => exact .release
  case store => exact .store
  case registerInput => exact .registerInput
  case registerOutput => exact .registerOutput
  case pushBlock => exact .pushBlock
  case reset => exact .reset
  case resetTo => exact .resetTo
  case erase => exact .erase

theorem Reached.mark {lib : Library F} {s : Scheme} {t : Tape F s} {h : History F}
    (hr : Reached lib t h) : Reached lib t (h.mark t.position) :=
  hr.step .mark

end Reached

end Autodiff
