import Mathlib.Algebra.BigOperators.Fin
import Mathlib.Algebra.Order.BigOperators.Group.Finset

/-!
# Counting threads by where they are

Every thread is at a place, and a weight says what a place counts for.  A step moves one thread, so
the total changes by the weights of the place it leaves and of the place it reaches.
-/

set_option autoImplicit false

namespace KernelLabs.Lib

open Function Finset

section Weights
variable {T P : Type} [Fintype T]

def total (weight : P → Nat) (place : T → P) : Nat := ∑ t, weight (place t)

section
variable [DecidableEq T] (weight : P → Nat) (place : T → P)
include weight place

theorem total_update (t : T) (next : P) :
    total weight (update place t next) + weight (place t) =
      total weight place + weight next := by
  have moved : (fun u => weight (update place t next u)) =
      update (fun u => weight (place u)) t (weight next) :=
    funext (apply_update (fun _ p => weight p) place t next)
  have rest := sum_erase_add univ (fun u => weight (place u)) (mem_univ t)
  rw [total, total, moved, sum_update_of_mem (mem_univ t),
    sdiff_singleton_eq_erase]
  omega

theorem le_total (t : T) : weight (place t) ≤ total weight place := by
  have rest := sum_erase_add univ (fun u => weight (place u)) (mem_univ t)
  rw [total]
  omega

theorem add_le_total {t u : T} (ne : t ≠ u) :
    weight (place t) + weight (place u) ≤ total weight place := by
  rw [total, ← sum_pair (f := fun v => weight (place v)) ne]
  exact sum_le_sum_of_subset (subset_univ _)

end

variable {place : T → P} {weight : P → Nat}

theorem total_le_total {weight' : P → Nat} (less : ∀ t, weight (place t) ≤ weight' (place t)) :
    total weight place ≤ total weight' place :=
  sum_le_sum fun t _ => less t

theorem exists_of_total_pos (pos : 0 < total weight place) : ∃ t, 0 < weight (place t) := by
  by_contra none
  have zero : total weight place = 0 := by
    apply sum_eq_zero
    intro t _
    exact Nat.eq_zero_of_not_pos fun pos => none ⟨t, pos⟩
  omega

theorem total_eq_zero (none : ∀ t, weight (place t) = 0) : total weight place = 0 :=
  sum_eq_zero fun t _ => none t

end Weights

end KernelLabs.Lib
