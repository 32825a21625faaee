import Autodiff.Proofs.Recording.Layout
import Mathlib.Logic.Function.Basic

/-!
# The effect of a replay on slots

On a vector that has all the slots it needs, a statement that is not a block never faults and never
changes the number of slots.  What it does to their values is a function of the values alone, with
every sum taken in the order in which the replay takes it.
-/

namespace Autodiff

/-! ## Slots -/

namespace Adjoints

variable {F : Type} [Zero F]

/-- The value of a slot. Slots that do not exist count as zero. -/
def slot (v : Adjoints F) (i : Nat) : F := v.getD i 0

theorem slot_of_lt {v : Adjoints F} {i : Nat} (h : i < v.size) : v.slot i = v[i] := by
  simp [slot, h]

theorem slot_of_size_le {v : Adjoints F} {i : Nat} (h : v.size ≤ i) : v.slot i = 0 := by
  rw [slot, Array.getD_eq_getD_getElem?, Array.getElem?_eq_none h]
  rfl

theorem fetch_of_lt {v : Adjoints F} {i : Nat} (h : i < v.size) : v.fetch i = .ok (v.slot i) := by
  rw [fetch_eq_ok_iff, slot_of_lt h, Array.getElem?_eq_getElem h]

theorem getElem?_eq_slot {v : Adjoints F} {i : Nat} (h : i < v.size) : v[i]? = some (v.slot i) := by
  rw [Array.getElem?_eq_getElem h, slot_of_lt h]

theorem slot_ofSize (n i : Nat) : (ofSize n : Adjoints F).slot i = 0 := by
  rw [slot, ofSize, Array.getD_eq_getD_getElem?, Array.getElem?_replicate]
  split <;> rfl

theorem slot_clear (v : Adjoints F) (i : Nat) : v.clear.slot i = 0 := by
  rw [slot, clear, Array.getD_eq_getD_getElem?, Array.getElem?_map]
  cases v[i]? <;> rfl

theorem slot_set {v : Adjoints F} {i : Nat} (h : i < v.size) (x : F) :
    slot (v.set i x h) = Function.update v.slot i x := by
  funext k
  by_cases hk : k = i
  · subst hk
    rw [Function.update_self, slot_of_lt (by simpa using h), Array.getElem_set_self]
  · rw [Function.update_of_ne hk]
    simp only [slot, Array.getD_eq_getD_getElem?]
    rw [Array.getElem?_set_ne h (Ne.symm hk)]

theorem exists_put {v : Adjoints F} {i : Nat} (h : i < v.size) (x : F) :
    ∃ w, v.put i x = .ok w ∧ w.size = v.size ∧ w.slot = Function.update v.slot i x :=
  ⟨v.set i x h, put_of_lt h x, Array.size_set h, slot_set h x⟩

/-! ### Steps that came to an end -/

theorem eq_slot_of_fetch {v : Adjoints F} {i : Nat} {x : F} (h : v.fetch i = .ok x) :
    x = v.slot i := by
  rw [slot, Array.getD_eq_getD_getElem?, fetch_eq_ok_iff.1 h]
  rfl

theorem slot_put {v w : Adjoints F} {i : Nat} {x : F} (h : v.put i x = .ok w) :
    w.slot = Function.update v.slot i x := by
  unfold put at h
  split at h
  · next hi =>
    cases h
    exact slot_set hi x
  · cases h

theorem slot_add [Add F] {v w : Adjoints F} {i : Nat} {x : F} (h : v.add i x = .ok w) :
    w.slot = Function.update v.slot i (v.slot i + x) := by
  rw [add, Fault.bind_eq_ok_iff] at h
  obtain ⟨y, hfetch, hput⟩ := h
  rw [slot_put hput, eq_slot_of_fetch hfetch]

theorem slot_pull {v w : Adjoints F} {i : Nat} {x : F} (h : v.pull i = .ok (x, w)) :
    x = v.slot i ∧ w.slot = Function.update v.slot i 0 := by
  simp only [pull, Fault.bind_eq_ok_iff] at h
  obtain ⟨y, hfetch, u, herase, h⟩ := h
  cases h
  exact ⟨eq_slot_of_fetch hfetch, slot_put herase⟩

/-! ### The number of slots -/

omit [Zero F] in
theorem size_put {v w : Adjoints F} {i : Nat} {x : F} (h : v.put i x = .ok w) :
    w.size = v.size := by
  unfold put at h
  split at h
  · cases h
    exact Array.size_set _
  · cases h

omit [Zero F] in
theorem size_add [Add F] {v w : Adjoints F} {i : Nat} {x : F} (h : v.add i x = .ok w) :
    w.size = v.size := by
  rw [add, Fault.bind_eq_ok_iff] at h
  obtain ⟨y, -, hput⟩ := h
  exact size_put hput

theorem size_pull {v w : Adjoints F} {i : Nat} {x : F} (h : v.pull i = .ok (x, w)) :
    w.size = v.size := by
  simp only [pull, Fault.bind_eq_ok_iff] at h
  obtain ⟨y, -, w', hput, h⟩ := h
  cases h
  exact size_put hput

end Adjoints

open Adjoints

namespace Statement

variable {F : Type}

/-! ## Slots of one statement -/

/-- The sum that a forward sweep takes over the arguments. -/
def gathered [Add F] [Mul F] (u : Nat → F) (entries : List (F × Nat)) (acc : F) : F :=
  entries.foldl (fun acc e => acc + e.1 * u e.2) acc

/-- What a reverse sweep adds to the arguments. -/
def scattered [Add F] [Mul F] (bar : F) (entries : List (F × Nat)) (u : Nat → F) : Nat → F :=
  entries.foldl (fun u e => Function.update u e.2 (u e.2 + e.1 * bar)) u

/-- The effect of a statement on the values of the slots; blocks are left out. -/
def effect [Zero F] [Add F] [Mul F] [BEq F] (d : Direction) (x : Statement F) (u : Nat → F) :
    Nat → F :=
  match x, d with
  | normal t entries, .forward => Function.update u t (gathered u entries 0)
  | normal t entries, .reverse =>
    if u t != 0 then scattered (u t) entries (Function.update u t 0) else Function.update u t 0
  | _, _ => u

/-! ## Identifiers of one statement -/

theorem entry_le_largest {t : Nat} {entries : List (F × Nat)} {e : F × Nat} (he : e ∈ entries) :
    e.2 ≤ (normal t entries).largest := by
  show e.2 ≤ (entries.map fun e => e.2).foldl max t
  rw [List.foldl_map]
  exact (le_foldl_max (fun e : F × Nat => e.2) entries t).2 e he

theorem target_le_largest {t : Nat} {entries : List (F × Nat)} :
    t ≤ (normal t entries).largest := by
  show t ≤ (entries.map fun e => e.2).foldl max t
  rw [List.foldl_map]
  exact (le_foldl_max (fun e : F × Nat => e.2) entries t).1

/-! ## Sweeps over one statement that came to an end -/

section Covered

variable [Zero F] [Add F] [Mul F] {v : Adjoints F}

theorem eq_gathered_of_gather {entries : List (F × Nat)} {acc x : F}
    (h : gather v entries acc = .ok x) : x = gathered v.slot entries acc := by
  induction entries generalizing acc with
  | nil =>
    cases h
    rfl
  | cons e entries ih =>
    rw [gather, Fault.bind_eq_ok_iff] at h
    obtain ⟨y, hfetch, hrest⟩ := h
    rw [ih hrest, eq_slot_of_fetch hfetch]
    rfl

theorem slot_scatter {entries : List (F × Nat)} {bar : F} {w : Adjoints F}
    (h : scatter bar entries v = .ok w) : w.slot = scattered bar entries v.slot := by
  induction entries generalizing v with
  | nil =>
    cases h
    rfl
  | cons e entries ih =>
    rw [scatter, Fault.bind_eq_ok_iff] at h
    obtain ⟨u, hadd, hrest⟩ := h
    rw [ih hrest, slot_add hadd]
    rfl

theorem slot_propagate [BEq F] {g : Registry F} {d : Direction} {x : Statement F}
    (hx : x.kind ≠ .block) {w : Adjoints F} (h : x.propagate g d v = .ok w) :
    w.slot = x.effect d v.slot := by
  cases x with
  | block token largest fixed dynamic => exact absurd rfl hx
  | input t =>
    cases h
    cases d <;> rfl
  | normal t entries =>
    cases d with
    | forward =>
      simp only [propagate, Fault.bind_eq_ok_iff] at h
      obtain ⟨y, hgather, hput⟩ := h
      rw [slot_put hput, eq_gathered_of_gather hgather]
      rfl
    | reverse =>
      simp only [propagate, Fault.bind_eq_ok_iff] at h
      obtain ⟨⟨bar, u⟩, hpull, h⟩ := h
      obtain ⟨rfl, hslot⟩ := slot_pull hpull
      -- A zero adjoint is not handed on.
      by_cases hbar : (v.slot t != 0) = true
      · rw [if_pos hbar] at h
        simp only [effect, if_pos hbar]
        rw [slot_scatter h, hslot]
      · rw [if_neg hbar] at h
        cases h
        simp only [effect, if_neg hbar]
        exact hslot

/-! ## Vectors that are large enough -/

theorem gather_eq_ok {entries : List (F × Nat)} (h : ∀ e ∈ entries, e.2 < v.size) (acc : F) :
    gather v entries acc = .ok (gathered v.slot entries acc) := by
  induction entries generalizing acc with
  | nil => rfl
  | cons e entries ih =>
    obtain ⟨p, a⟩ := e
    have ha : a < v.size := h (p, a) (List.mem_cons_self ..)
    simp only [gather, fetch_of_lt ha, bind, Except.bind]
    exact ih (fun e he => h e (List.mem_cons_of_mem _ he)) _

theorem exists_scatter {entries : List (F × Nat)} (h : ∀ e ∈ entries, e.2 < v.size) (bar : F) :
    ∃ w, scatter bar entries v = .ok w ∧ w.size = v.size := by
  induction entries generalizing v with
  | nil => exact ⟨v, rfl, rfl⟩
  | cons e entries ih =>
    obtain ⟨p, a⟩ := e
    have ha : a < v.size := h (p, a) (List.mem_cons_self ..)
    obtain ⟨w₁, hput, hsize, -⟩ := exists_put ha (v.slot a + p * bar)
    have hrest : ∀ e ∈ entries, e.2 < w₁.size := by
      intro e he
      rw [hsize]
      exact h e (List.mem_cons_of_mem _ he)
    obtain ⟨w, hscatter, hsize'⟩ := ih hrest
    refine ⟨w, ?_, hsize'.trans hsize⟩
    simp only [scatter, add, fetch_of_lt ha, hput, bind, Except.bind]
    exact hscatter

theorem exists_propagate [BEq F] (g : Registry F) (d : Direction) {x : Statement F}
    (hx : x.kind ≠ .block) (hlt : x.largest < v.size) :
    ∃ w, x.propagate g d v = .ok w ∧ w.size = v.size ∧ w.slot = x.effect d v.slot := by
  obtain ⟨w, hpropagate, hsize⟩ : ∃ w, x.propagate g d v = .ok w ∧ w.size = v.size := by
    cases x with
    | block token largest fixed dynamic => exact absurd rfl hx
    | input t => exact ⟨v, rfl, rfl⟩
    | normal t entries =>
      have ht : t < v.size := Nat.lt_of_le_of_lt target_le_largest hlt
      have hentries : ∀ e ∈ entries, e.2 < v.size := fun e he =>
        Nat.lt_of_le_of_lt (entry_le_largest he) hlt
      cases d with
      | forward =>
        obtain ⟨w, hput, hsize, -⟩ := exists_put ht (gathered v.slot entries 0)
        refine ⟨w, ?_, hsize⟩
        simp only [propagate, gather_eq_ok hentries, bind, Except.bind]
        exact hput
      | reverse =>
        obtain ⟨w₁, herase, hsize, -⟩ := exists_put ht (0 : F)
        have hpull : v.pull t = .ok (v.slot t, w₁) := by
          simp only [pull, erase, fetch_of_lt ht, herase, bind, Except.bind, pure, Except.pure]
        have hentries' : ∀ e ∈ entries, e.2 < w₁.size := by
          intro e he
          rw [hsize]
          exact hentries e he
        simp only [propagate, hpull, bind, Except.bind]
        split
        · obtain ⟨w, hscatter, hsize'⟩ := exists_scatter hentries' (v.slot t)
          exact ⟨w, hscatter, hsize'.trans hsize⟩
        · exact ⟨w₁, rfl, hsize⟩
  exact ⟨w, hpropagate, hsize, slot_propagate hx hpropagate⟩

end Covered

end Statement

end Autodiff
