import Mathlib.Data.List.Nodup

/-!
# Queues and the place of their members

A family of lists that hold each member in at most one of them, once, namely in the one that
`place` names.
-/

set_option autoImplicit false

namespace KernelLabs.Lib

open Function List

section Queues
variable {I T : Type}

def Queued (queue : I → List T) (place : T → Option I) : Prop :=
  ∀ i, (queue i).Nodup ∧ ∀ t, t ∈ queue i ↔ place t = some i

variable {queue : I → List T} {place : T → Option I} {i : I} {t : T}

theorem Queued.mem (queued : Queued queue place) : t ∈ queue i ↔ place t = some i :=
  (queued i).2 t

/-- In a list that is ordered by a key, the first member that meets a condition has the least key
of those that do. -/
theorem find_least {list : List T} {key : T → Nat} {p : T → Bool}
    (order : list.Pairwise fun a b => key a < key b) (member : t ∈ list) (meets : p t = true) :
    ∃ first, list.find? p = some first ∧ key first ≤ key t := by
  induction list with
  | nil => cases member
  | cons a rest ih =>
    obtain ⟨before, order⟩ := pairwise_cons.mp order
    by_cases here : p a = true
    · refine ⟨a, find?_cons_of_pos here, ?_⟩
      rcases mem_cons.mp member with same | later
      · exact Nat.le_of_eq (congrArg key same.symm)
      · exact Nat.le_of_lt (before t later)
    have later : t ∈ rest := by
      rcases mem_cons.mp member with same | later
      · exact absurd (same ▸ meets) here
      · exact later
    obtain ⟨first, found, least⟩ := ih order later
    exact ⟨first, by rw [find?_cons_of_neg here]; exact found, least⟩

theorem Queued.change [DecidableEq I] [DecidableEq T] (queued : Queued queue place)
    {list : List T} {now : Option I} (nodup : list.Nodup)
    (here : t ∈ list ↔ now = some i) (others : ∀ x, x ≠ t → (x ∈ list ↔ x ∈ queue i))
    (apart : ∀ j, j ≠ i → place t ≠ some j ∧ now ≠ some j) :
    Queued (update queue i list) (update place t now) := by
  intro j
  by_cases list_is : j = i
  · subst list_is
    rw [update_self]
    refine ⟨nodup, fun x => ?_⟩
    by_cases member : x = t
    · rw [member, update_self]
      exact here
    · rw [update_of_ne member, others x member]
      exact queued.mem
  · rw [update_of_ne list_is]
    refine ⟨(queued j).1, fun x => ?_⟩
    by_cases member : x = t
    · rw [member, update_self, queued.mem]
      obtain ⟨before, after⟩ := apart j list_is
      simp only [before, after]
    · rw [update_of_ne member]
      exact queued.mem

variable [DecidableEq I]

theorem update_eq_some {held : I → Option T} {value : Option T} {j : I}
    (now : update held i value j = some t) :
    (j = i ∧ value = some t) ∨ (j ≠ i ∧ held j = some t) := by
  by_cases same : j = i
  · rw [same, update_self] at now
    exact Or.inl ⟨same, now⟩
  · rw [update_of_ne same] at now
    exact Or.inr ⟨same, now⟩

variable [DecidableEq T]

section
variable (queued : Queued queue place)
include queued

theorem Queued.append (free : place t = none) :
    Queued (update queue i (queue i ++ [t])) (update place t (some i)) := by
  have absent : t ∉ queue i := by
    rw [queued.mem, free]
    simp
  apply queued.change
  · rw [nodup_append]
    exact ⟨(queued i).1, nodup_singleton t, by
      intro a member b single same
      rw [mem_singleton] at single
      exact absent (single ▸ same ▸ member)⟩
  · simp
  · intro x other
    simp [other]
  · intro j other
    rw [free]
    simp [Ne.symm other]

theorem Queued.erase (member : place t = some i) :
    Queued (update queue i ((queue i).erase t)) (update place t none) := by
  apply queued.change
  · exact (queued i).1.erase t
  · simp [(queued i).1.not_mem_erase]
  · intro x other
    exact mem_erase_of_ne other
  · intro j other
    rw [member]
    simp [Ne.symm other]

theorem Queued.erase_all (member : place t = some i) :
    (fun j => (queue j).erase t) = update queue i ((queue i).erase t) := by
  funext j
  by_cases same : j = i
  · rw [same, update_self]
  · rw [update_of_ne same]
    apply erase_of_not_mem
    rw [queued.mem, member]
    simp [Ne.symm same]

theorem Queued.count : (queue i).count t = if place t = some i then 1 else 0 := by
  by_cases member : t ∈ queue i
  · rw [if_pos (queued.mem.mp member), count_eq_one_of_mem (queued i).1 member]
  · rw [if_neg (fun placed => member (queued.mem.mpr placed)), count_eq_zero_of_not_mem member]

end

end Queues

end KernelLabs.Lib
