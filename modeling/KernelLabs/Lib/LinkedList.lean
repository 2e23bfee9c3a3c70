import Mathlib.Data.List.Basic
import Mathlib.Logic.Function.Iterate

/-!
# Linked lists in a memory

`next a` is the link stored with the element at address `a`, and address 0 ends a list.
`Linked next p l` says that the links from `p` on run through exactly the addresses `l`.
-/

set_option autoImplicit false

namespace KernelLabs.Lib

open Function List

def Linked (next : Nat → Nat) : Nat → List Nat → Prop
  | p, [] => p = 0
  | p, a :: rest => p = a ∧ a ≠ 0 ∧ Linked next (next a) rest

section Lists
variable {next next' : Nat → Nat} {l : List Nat}

theorem Linked.congr : ∀ {p : Nat}, Linked next p l →
    (∀ a ∈ l, next' a = next a) → Linked next' p l := by
  induction l with
  | nil => intro p linked _; exact linked
  | cons a rest ih =>
    intro p linked same
    obtain ⟨head, nonnull, tail⟩ := linked
    refine ⟨head, nonnull, ?_⟩
    rw [same a mem_cons_self]
    exact ih tail fun b member => same b (mem_cons_of_mem a member)

theorem Linked.unique : ∀ {l' : List Nat} {p : Nat}, Linked next p l →
    Linked next p l' → l = l' := by
  induction l with
  | nil =>
    intro l' p linked linked'
    cases l' with
    | nil => rfl
    | cons a rest => exact absurd (linked'.1.symm.trans linked) linked'.2.1
  | cons a rest ih =>
    intro l' p linked linked'
    cases l' with
    | nil => exact absurd (linked.1.symm.trans linked') linked.2.1
    | cons b rest' =>
      have same : a = b := linked.1.symm.trans linked'.1
      subst same
      rw [ih linked.2.2 linked'.2.2]

theorem Linked.cons_of_ne {p : Nat} (linked : Linked next p l) (nonnull : p ≠ 0) :
    ∃ rest, l = p :: rest ∧ Linked next (next p) rest := by
  cases l with
  | nil => exact absurd linked nonnull
  | cons a rest =>
    obtain ⟨rfl, -, tail⟩ := linked
    exact ⟨rest, rfl, tail⟩

/-! ## Cutting a list -/

theorem Linked.iterate_mem : ∀ {p k : Nat}, Linked next p l → k < l.length →
    next^[k] p ∈ l := by
  induction l with
  | nil => intro p k _ below; exact absurd below (Nat.not_lt_zero k)
  | cons a rest ih =>
    intro p k linked below
    obtain ⟨rfl, -, tail⟩ := linked
    cases k with
    | zero => exact mem_cons_self
    | succ k =>
      have member := ih tail (Nat.lt_of_succ_lt_succ below)
      exact mem_cons_of_mem p member

/-- Writing the end marker into element `k` leaves the list up to it; the rest starts at the link
that was there. -/
theorem Linked.cut : ∀ {p k : Nat}, Linked next p l → l.Nodup → k < l.length →
    Linked (update next (next^[k] p) 0) p (l.take (k + 1)) ∧
      Linked (update next (next^[k] p) 0) (next (next^[k] p)) (l.drop (k + 1)) := by
  induction l with
  | nil => intro p k _ _ below; exact absurd below (Nat.not_lt_zero k)
  | cons a rest ih =>
    intro p k linked nodup below
    obtain ⟨rfl, nonnull, tail⟩ := linked
    obtain ⟨notInRest, nodup⟩ := nodup_cons.mp nodup
    cases k with
    | zero =>
      refine ⟨⟨rfl, nonnull, update_self p 0 next⟩, ?_⟩
      refine Linked.congr tail fun b member => update_of_ne ?_ 0 next
      rintro rfl
      exact notInRest member
    | succ k =>
      have within : k < rest.length := Nat.lt_of_succ_lt_succ below
      obtain ⟨first, second⟩ := ih tail nodup within
      have other : p ≠ next^[k] (next p) := fun same =>
        notInRest (same ▸ tail.iterate_mem within)
      refine ⟨⟨rfl, nonnull, ?_⟩, second⟩
      rw [Function.iterate_succ_apply, update_of_ne other]
      exact first

end Lists

end KernelLabs.Lib
