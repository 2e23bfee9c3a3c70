import Mathlib.Logic.Nontrivial.Basic

/-!
# One step after another, one write after another

`steps step n s` makes the steps `0, …, n - 1`, of which any may fail.  `foldlM_update` is a loop that
checks and writes each of several places once.  `scatter m t v n` is the
memory `m` after `v j` was written at `t j` for `j = 0, …, n - 1` in this order; where two
writes hit the same cell the later one stays.
-/

set_option autoImplicit false

namespace KernelLabs.Lib

open Function List

section Steps
variable {S : Type}

def steps (step : Nat → S → Option S) : Nat → S → Option S
  | 0, s => some s
  | n + 1, s => (steps step n s).bind (step n)

variable (step : Nat → S → Option S)

theorem steps_add (m n : Nat) (s : S) :
    steps step (m + n) s = (steps step m s).bind (steps (fun i => step (m + i)) n) := by
  induction n with
  | zero => simp [steps]
  | succ n hyp =>
    rw [← Nat.add_assoc]
    simp only [steps, hyp, Option.bind_assoc]

theorem steps_of_le {m n : Nat} (le : m ≤ n) (s : S) :
    steps step n s = (steps step m s).bind (steps (fun i => step (m + i)) (n - m)) := by
  rw [← steps_add, Nat.add_sub_cancel' le]

end Steps

theorem foldlM_update {A V : Type} [DecidableEq A] (step : (A → V) → A → Option (A → V)) (g : A → V)
    (ok : A → V → Prop) (works : ∀ m x, ok x (m x) → step m x = some (update m x (g x)))
    {places : List A} (distinct : places.Nodup) {m : A → V} (all : ∀ x ∈ places, ok x (m x)) :
    places.foldlM step m = some fun x => if x ∈ places then g x else m x := by
  induction places generalizing m with
  | nil => simp
  | cons place rest ih =>
    obtain ⟨fresh, distinct⟩ := nodup_cons.mp distinct
    have others : ∀ x ∈ rest, ok x (update m place (g place) x) := by
      intro x member
      have other : x ≠ place := fun same => fresh (same ▸ member)
      rw [update_of_ne other]
      exact all x (mem_cons_of_mem place member)
    rw [foldlM_cons, works m place (all place mem_cons_self)]
    refine (ih distinct others).trans (congrArg some (funext fun x => ?_))
    by_cases here : x = place
    · subst here
      simp [fresh]
    · simp [here]

section Scatter
variable {A V : Type} [DecidableEq A]

def scatter (m : A → V) (t : Nat → A) (v : Nat → V) : Nat → A → V
  | 0 => m
  | n + 1 => update (scatter m t v n) (t n) (v n)

variable (m : A → V) (t : Nat → A) (v : Nat → V)

theorem scatter_of_forall_ne (n : Nat) (x : A) (missed : ∀ j, j < n → t j ≠ x) :
    scatter m t v n x = m x := by
  induction n with
  | zero => rfl
  | succ n hyp =>
    rw [scatter, update_of_ne (missed n (by omega)).symm]
    exact hyp fun j below => missed j (by omega)

theorem scatter_congr {m m' : A → V} {t t' : Nat → A} (v : Nat → V) {n : Nat} {x : A}
    (base : m x = m' x) (same : ∀ j, j < n → t j = t' j) :
    scatter m t v n x = scatter m' t' v n x := by
  induction n with
  | zero => exact base
  | succ n hyp =>
    rw [scatter, scatter, same n (by omega)]
    by_cases here : x = t' n
    · rw [here, update_self, update_self]
    · rw [update_of_ne here, update_of_ne here]
      exact hyp fun j below => same j (by omega)

theorem scatter_of_last {n i : Nat} (below : i < n) (last : ∀ j, i < j → j < n → t j ≠ t i) :
    scatter m t v n (t i) = v i := by
  induction n with
  | zero => omega
  | succ n hyp =>
    rw [scatter]
    by_cases same : i = n
    · subst same
      exact update_self ..
    · rw [update_of_ne (last n (by omega) (by omega)).symm]
      exact hyp (by omega) fun j above within => last j above (by omega)

/-- A cell that gets the `i`-th value whatever the values are was hit by the `i`-th write, and by
none after it. -/
theorem hit_of_scatter [Nontrivial V] (m : A → V) (t : Nat → A) (n i : Nat) (x : A)
    (always : ∀ v, scatter m t v n x = v i) : i < n ∧ t i = x ∧ ∀ j, i < j → j < n → t j ≠ x := by
  obtain ⟨p, q, differ⟩ := exists_pair_ne V
  induction n with
  | zero =>
    have one := always fun _ => p
    have other := always fun _ => q
    exact absurd (one.symm.trans other) differ
  | succ n hyp =>
    by_cases hit : t n = x
    · have same : i = n := by
        by_contra apart
        have value := always (update (fun _ => p) i q)
        rw [scatter, hit, update_self, update_self, update_of_ne (Ne.symm apart)] at value
        exact differ value
      subst same
      exact ⟨by omega, hit, fun j above below => by omega⟩
    have before : ∀ v, scatter m t v n x = v i := by
      intro v
      have value := always v
      rwa [scatter, update_of_ne (Ne.symm hit)] at value
    obtain ⟨below, here, after⟩ := hyp before
    refine ⟨by omega, here, ?_⟩
    intro j above within
    by_cases final : j = n
    · subst final
      exact hit
    · exact after j above (by omega)

end Scatter

end KernelLabs.Lib
