
/-!
# Exclusive ownership of resources

Every owner has at most one resource, and `0` stands for none.  No resource has two owners, and a
resource that has an owner is marked as used.  An owner may take a resource that is not marked, and
a group of owners may give back what it has.
-/

set_option autoImplicit false

namespace KernelLabs.Lib

section Exclusive
variable {O R : Type} [Zero R]

structure Exclusive (own : O → R) (used : R → Prop) : Prop where
  distinct : ∀ o o', own o ≠ 0 → own o = own o' → o = o'
  marked : ∀ o, own o ≠ 0 → used (own o)

variable {own own' : O → R} {used used' : R → Prop}

theorem Exclusive.take [DecidableEq O] (ex : Exclusive own used) {o : O} {r : R} (free : ¬ used r)
    (gets : ∀ x, own' x = if x = o then r else own x) (marks : ∀ x, used x → used' x)
    (mark : used' r) : Exclusive own' used' where
  distinct x y has same := by
    rw [gets x] at has
    rw [gets x, gets y] at same
    by_cases here : x = o
    · rw [if_pos here] at has same
      by_cases there : y = o
      · rw [here, there]
      · rw [if_neg there] at same
        rw [same] at has
        exact absurd (same ▸ ex.marked y has) free
    · rw [if_neg here] at has same
      by_cases there : y = o
      · rw [if_pos there] at same
        exact absurd (same ▸ ex.marked x has) free
      · rw [if_neg there] at same
        exact ex.distinct x y has same
  marked x has := by
    rw [gets x] at has ⊢
    by_cases here : x = o
    · rw [if_pos here]
      exact mark
    · rw [if_neg here] at has ⊢
      exact marks _ (ex.marked x has)

theorem Exclusive.drop (ex : Exclusive own used) (group : O → Prop)
    (gone : ∀ x, group x → own' x = 0) (stays : ∀ x, ¬ group x → own' x = own x)
    (marks : ∀ r, used r → (∀ x, group x → own x ≠ r) → used' r) : Exclusive own' used' where
  distinct x y has same := by
    have outside : ¬ group x := fun inside => has (gone x inside)
    have outside' : ¬ group y := by
      intro inside
      rw [same] at has
      exact has (gone y inside)
    rw [stays x outside] at has
    rw [stays x outside, stays y outside'] at same
    exact ex.distinct x y has same
  marked x has := by
    have outside : ¬ group x := fun inside => has (gone x inside)
    rw [stays x outside] at has ⊢
    refine marks _ (ex.marked x has) fun y inside same => ?_
    rw [← ex.distinct x y has same.symm] at inside
    exact outside inside

end Exclusive

end KernelLabs.Lib
