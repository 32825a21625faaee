/-!
# Cuts and positions

A `Cut` is a place between two items of one chunked stream.  A `Position` cuts all five streams of
a recording at once.  Both are ordered lexicographically, a position by its statement cut first.
-/

namespace Autodiff

/-- The two ways to walk a recording. -/
inductive Direction where
  | forward
  | reverse
  deriving DecidableEq

namespace Direction

def text : Direction → String
  | forward => "forward"
  | reverse => "reverse"

end Direction

/-! ## Cuts -/

/-- A chunk number and an offset into that chunk. -/
structure Cut where
  chunk : Nat
  offset : Nat
  deriving DecidableEq, Inhabited

namespace Cut

def zero : Cut := ⟨0, 0⟩

def Before (p q : Cut) : Prop :=
  p.chunk < q.chunk ∨ (p.chunk = q.chunk ∧ p.offset < q.offset)

instance : LT Cut := ⟨Before⟩

instance : LE Cut := ⟨fun p q => p < q ∨ p = q⟩

instance (p q : Cut) : Decidable (p < q) :=
  inferInstanceAs (Decidable (p.chunk < q.chunk ∨ (p.chunk = q.chunk ∧ p.offset < q.offset)))

instance (p q : Cut) : Decidable (p ≤ q) :=
  inferInstanceAs (Decidable (p < q ∨ p = q))

theorem lt_iff {p q : Cut} :
    p < q ↔ p.chunk < q.chunk ∨ (p.chunk = q.chunk ∧ p.offset < q.offset) :=
  Iff.rfl

theorem le_iff {p q : Cut} :
    p ≤ q ↔ p.chunk < q.chunk ∨ (p.chunk = q.chunk ∧ p.offset ≤ q.offset) := by
  obtain ⟨pc, po⟩ := p
  obtain ⟨qc, qo⟩ := q
  show (pc < qc ∨ (pc = qc ∧ po < qo)) ∨ (⟨pc, po⟩ : Cut) = ⟨qc, qo⟩ ↔ _
  simp only [Cut.mk.injEq]
  omega

theorem le_refl (p : Cut) : p ≤ p := Or.inr rfl

theorem le_total (p q : Cut) : p ≤ q ∨ q ≤ p := by
  simp only [le_iff]
  omega

theorem zero_le (p : Cut) : zero ≤ p := by
  simp only [le_iff, zero]
  omega

def text (p : Cut) : String :=
  s!"ChunkPosition \x7b chunk: {p.chunk}, data: {p.offset} \x7d"

end Cut

/-! ## Positions -/

/-- A cut through every stream, with the identifier counter at that point. -/
structure Position where
  statements : Cut
  partials : Cut
  tokens : Cut
  fixed : Cut
  dynamic : Cut
  counter : Nat
  deriving DecidableEq, Inhabited

namespace Position

def zero : Position := ⟨.zero, .zero, .zero, .zero, .zero, 0⟩

/-- The components in the order in which positions are compared. -/
def coordinates (p : Position) : List Nat :=
  [p.statements.chunk, p.statements.offset, p.partials.chunk, p.partials.offset, p.tokens.chunk,
    p.tokens.offset, p.fixed.chunk, p.fixed.offset, p.dynamic.chunk, p.dynamic.offset, p.counter]

instance : LT Position := ⟨fun p q => List.lt p.coordinates q.coordinates⟩

instance : LE Position := ⟨fun p q => List.le p.coordinates q.coordinates⟩

instance (p q : Position) : Decidable (p < q) := List.decidableLT p.coordinates q.coordinates

instance (p q : Position) : Decidable (p ≤ q) := List.decidableLE p.coordinates q.coordinates

theorem coordinates_injective {p q : Position} (h : p.coordinates = q.coordinates) : p = q := by
  obtain ⟨⟨_, _⟩, ⟨_, _⟩, ⟨_, _⟩, ⟨_, _⟩, ⟨_, _⟩, _⟩ := p
  obtain ⟨⟨_, _⟩, ⟨_, _⟩, ⟨_, _⟩, ⟨_, _⟩, ⟨_, _⟩, _⟩ := q
  simp_all [coordinates]

theorem le_refl (p : Position) : p ≤ p := List.le_refl p.coordinates

theorem le_total (p q : Position) : p ≤ q ∨ q ≤ p := List.le_total p.coordinates q.coordinates

theorem le_antisymm {p q : Position} (hpq : p ≤ q) (hqp : q ≤ p) : p = q :=
  coordinates_injective (List.le_antisymm hpq hqp)

def text (p : Position) : String :=
  s!"Position \x7b statements: {p.statements.text}, jacobians: {p.partials.text}, " ++
    s!"tokens: {p.tokens.text}, fixed: {p.fixed.text}, dynamic: {p.dynamic.text}, " ++
    s!"index: {p.counter} \x7d"

end Position

namespace Direction

/-- Whether a walk in this direction may start at the first cut and stop at the second. -/
def Ordered {α : Type} [LE α] : Direction → α → α → Prop
  | forward, start, stop => start ≤ stop
  | reverse, start, stop => stop ≤ start

instance {α : Type} [LE α] [∀ a b : α, Decidable (a ≤ b)] (d : Direction) (start stop : α) :
    Decidable (d.Ordered start stop) := by
  cases d <;> unfold Ordered <;> infer_instance

end Direction

end Autodiff
