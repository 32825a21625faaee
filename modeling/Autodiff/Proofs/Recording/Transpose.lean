import Autodiff.Proofs.Recording.Slots
import Mathlib.Algebra.BigOperators.Ring.Finset
import Mathlib.Tactic.Ring

/-!
# One statement in both directions

Over a commutative ring the reverse map of a statement is the transpose of its forward map, also
when the target is among the arguments, when an argument comes twice and when a zero adjoint makes
the reverse map skip the arguments.
-/

open Finset

namespace Autodiff

variable {F : Type} [CommRing F]

/-- The sum over the first `n` slots of the products of two families. -/
def dot (n : Nat) (u v : Nat → F) : F := ∑ i ∈ range n, u i * v i

theorem dot_comm (n : Nat) (u v : Nat → F) : dot n u v = dot n v u := by
  unfold dot
  exact sum_congr rfl fun i _ => mul_comm (u i) (v i)

theorem dot_update_left {n a : Nat} (ha : a < n) (x : F) (u v : Nat → F) :
    dot n (Function.update u a x) v = dot n u v + (x - u a) * v a := by
  have hterm (i : Nat) :
      Function.update u a x i * v i = u i * v i + if i = a then (x - u a) * v a else 0 := by
    by_cases hi : i = a
    · rw [hi, Function.update_self, if_pos rfl]
      ring
    · rw [Function.update_of_ne hi, if_neg hi, add_zero]
  unfold dot
  simp only [hterm]
  rw [sum_add_distrib, sum_ite_eq' (range n) a, if_pos (mem_range.2 ha)]

theorem dot_update_right {n a : Nat} (ha : a < n) (x : F) (u v : Nat → F) :
    dot n u (Function.update v a x) = dot n u v + u a * (x - v a) := by
  rw [dot_comm, dot_update_left ha, dot_comm, mul_comm]

theorem dot_single_left {n a : Nat} (ha : a < n) (x : F) (v : Nat → F) :
    dot n (Function.update (fun _ => 0) a x) v = x * v a := by
  have hzero : dot n (fun _ => 0) v = 0 := by
    unfold dot
    exact Finset.sum_eq_zero fun i _ => zero_mul (v i)
  rw [dot_update_left ha, hzero, zero_add, sub_zero]

theorem dot_single_right {n a : Nat} (ha : a < n) (u : Nat → F) :
    dot n u (Function.update (fun _ => 0) a 1) = u a := by
  rw [dot_comm, dot_single_left ha, one_mul]

namespace Statement

theorem gathered_eq_add (u : Nat → F) (entries : List (F × Nat)) (acc : F) :
    gathered u entries acc = acc + gathered u entries 0 := by
  induction entries generalizing acc with
  | nil => exact (add_zero acc).symm
  | cons e entries ih =>
    show gathered u entries (acc + e.1 * u e.2) = acc + gathered u entries (0 + e.1 * u e.2)
    rw [ih, ih (0 + e.1 * u e.2)]
    ring

/-- Scattering adds to the dot product what gathering takes from the other side. -/
theorem dot_scattered {n : Nat} {entries : List (F × Nat)} (h : ∀ e ∈ entries, e.2 < n) (bar : F)
    (u v : Nat → F) :
    dot n (scattered bar entries u) v = dot n u v + bar * gathered v entries 0 := by
  induction entries generalizing u with
  | nil => exact (by rw [mul_zero, add_zero] : dot n u v = dot n u v + bar * 0)
  | cons e entries ih =>
    show dot n (scattered bar entries (Function.update u e.2 (u e.2 + e.1 * bar))) v =
      dot n u v + bar * gathered v entries (0 + e.1 * v e.2)
    rw [ih fun e he => h e (List.mem_cons_of_mem _ he),
      dot_update_left (h e (List.mem_cons_self ..)), gathered_eq_add v entries (0 + _)]
    ring

theorem scattered_zero (entries : List (F × Nat)) (u : Nat → F) : scattered 0 entries u = u := by
  induction entries generalizing u with
  | nil => rfl
  | cons e entries ih =>
    show scattered 0 entries (Function.update u e.2 (u e.2 + e.1 * 0)) = u
    rw [mul_zero, add_zero, Function.update_eq_self, ih]

variable [BEq F] [LawfulBEq F]

-- Skipping a zero adjoint changes nothing, so the test for it can be left out.
theorem effect_reverse_normal (t : Nat) (entries : List (F × Nat)) (u : Nat → F) :
    (normal t entries).effect .reverse u = scattered (u t) entries (Function.update u t 0) := by
  show (if u t != 0 then scattered (u t) entries (Function.update u t 0)
    else Function.update u t 0) = _
  by_cases hbar : u t = 0
  · rw [hbar, scattered_zero, ite_self]
  · rw [if_pos (by simpa using hbar)]

theorem dot_effect {n : Nat} {x : Statement F} (hlt : x.largest < n) (u v : Nat → F) :
    dot n (x.effect .reverse u) v = dot n u (x.effect .forward v) := by
  cases x with
  | input t => rfl
  | block token largest fixed dynamic => rfl
  | normal t entries =>
    have ht : t < n := Nat.lt_of_le_of_lt target_le_largest hlt
    have hentries : ∀ e ∈ entries, e.2 < n := fun e he =>
      Nat.lt_of_le_of_lt (entry_le_largest he) hlt
    have hforward : (normal t entries).effect .forward v =
        Function.update v t (gathered v entries 0) := rfl
    rw [effect_reverse_normal, dot_scattered hentries, dot_update_left ht, hforward,
      dot_update_right ht]
    ring

end Statement

end Autodiff
