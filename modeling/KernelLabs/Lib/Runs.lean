import Mathlib.Data.List.Basic

/-!
# Runs of a deterministic step function

A run is a finite list of operations folded over a step function; whatever the
environment chooses (scheduling, memory contents, allocation results) is part of
the operation.  `RunMeets` says that every step of a run meets a condition on the
state before it, and the rules below lift what one step preserves to a whole run.
-/

set_option autoImplicit false

namespace KernelLabs.Lib

open List

section Runs
variable {S A : Type}

/-- Every operation of the run meets `cond` in the state it is applied to. -/
def RunMeets (step : S → A → S) (cond : S → A → Prop) : S → List A → Prop
  | _, [] => True
  | s, a :: rest => cond s a ∧ RunMeets step cond (step s a) rest

instance decidableRunMeets (step : S → A → S) (cond : S → A → Prop)
    [∀ s a, Decidable (cond s a)] : ∀ (s : S) (ops : List A), Decidable (RunMeets step cond s ops)
  | _, [] => .isTrue trivial
  | s, a :: rest =>
    @instDecidableAnd _ _ _ (decidableRunMeets step cond (step s a) rest)

theorem run_invariant (step : S → A → S) (cond : S → A → Prop) (inv : S → Prop)
    (keep : ∀ s a, inv s → cond s a → inv (step s a)) (ops : List A) :
    ∀ s : S, inv s → RunMeets step cond s ops → inv (ops.foldl step s) := by
  induction ops with
  | nil => intro s start _; exact start
  | cons a rest ih =>
    intro s start meets
    exact ih (step s a) (keep s a start meets.1) meets.2

variable {step : S → A → S} {cond : S → A → Prop} {ops : List A} {allowed : A → Prop}

theorem runMeets_of_forall (all : ∀ s a, cond s a) (ops : List A) :
    ∀ s : S, RunMeets step cond s ops := by
  induction ops with
  | nil => intro s; trivial
  | cons a rest ih =>
    intro s
    exact ⟨all s a, ih (step s a)⟩

theorem runMeets_of_mem (all : ∀ a ∈ ops, allowed a) (s : S) :
    RunMeets step (fun _ a => allowed a) s ops := by
  induction ops generalizing s with
  | nil => trivial
  | cons a rest ih =>
    exact ⟨all a mem_cons_self, ih (fun b member => all b (mem_cons_of_mem a member)) (step s a)⟩

/-- If an allowed step from the invariant keeps it under the condition and leaves the good states
without it, the runs of allowed steps that meet the condition are those that reach good states
only. -/
theorem run_exact_within (step : S → A → S) (allowed cond : S → A → Prop) (inv good : S → Prop)
    (sound : ∀ s, inv s → good s) (keep : ∀ s a, inv s → allowed s a → cond s a → inv (step s a))
    (leave : ∀ s a, inv s → allowed s a → good (step s a) → cond s a) (ops : List A) :
    ∀ s : S, inv s → RunMeets step allowed s ops →
      (RunMeets step cond s ops ↔ ∀ pre, pre <+: ops → good (pre.foldl step s)) := by
  induction ops with
  | nil =>
    intro s start _
    refine ⟨fun _ pre isPrefix => ?_, fun _ => trivial⟩
    rw [prefix_nil.mp isPrefix]
    exact sound s start
  | cons a rest ih =>
    intro s start within
    constructor
    · intro meets pre isPrefix
      rcases pre with _ | ⟨b, pre⟩
      · exact sound s start
      · obtain ⟨rfl, tail⟩ := cons_prefix_cons.mp isPrefix
        exact (ih (step s b) (keep s b start within.1 meets.1) within.2).mp meets.2 pre tail
    · intro all
      have met : cond s a := leave s a start within.1 (all [a] (by simp))
      refine ⟨met, (ih (step s a) (keep s a start within.1 met) within.2).mpr
        fun pre isPrefix => ?_⟩
      exact all (a :: pre) (cons_prefix_cons.mpr ⟨rfl, isPrefix⟩)

theorem run_exact (step : S → A → S) (cond : S → A → Prop) (inv good : S → Prop)
    (sound : ∀ s, inv s → good s) (keep : ∀ s a, inv s → cond s a → inv (step s a))
    (leave : ∀ s a, inv s → good (step s a) → cond s a) (ops : List A) (s : S) (start : inv s) :
    RunMeets step cond s ops ↔ ∀ pre, pre <+: ops → good (pre.foldl step s) :=
  run_exact_within step (fun _ _ => True) cond inv good sound
    (fun s a ok _ => keep s a ok) (fun s a ok _ => leave s a ok) ops s start
    (runMeets_of_forall (fun _ _ => trivial) ops s)

variable {cond' : S → A → Prop}

theorem RunMeets.and :
    ∀ {s : S}, RunMeets step cond s ops → RunMeets step cond' s ops →
      RunMeets step (fun s a => cond s a ∧ cond' s a) s ops := by
  induction ops with
  | nil => intro s _ _; trivial
  | cons a rest ih =>
    intro s meets meets'
    exact ⟨⟨meets.1, meets'.1⟩, ih meets.2 meets'.2⟩

theorem RunMeets.of_invariant {inv : S → Prop} (keep : ∀ s a, inv s → cond s a → inv (step s a))
    (gives : ∀ s a, inv s → cond s a → cond' s a) :
    ∀ {s : S}, inv s → RunMeets step cond s ops → RunMeets step cond' s ops := by
  induction ops with
  | nil => intro s _ _; trivial
  | cons a rest ih =>
    intro s start meets
    exact ⟨gives s a start meets.1, ih (keep s a start meets.1) meets.2⟩

variable {pre : List A}

theorem RunMeets.append :
    ∀ {s : S}, RunMeets step cond s (pre ++ ops) →
      RunMeets step cond s pre ∧ RunMeets step cond (pre.foldl step s) ops := by
  induction pre with
  | nil => intro s meets; exact ⟨trivial, meets⟩
  | cons a rest ih =>
    intro s meets
    obtain ⟨first, later⟩ := ih meets.2
    exact ⟨⟨meets.1, first⟩, later⟩

theorem RunMeets.concat :
    ∀ {s : S}, RunMeets step cond s pre → RunMeets step cond (pre.foldl step s) ops →
      RunMeets step cond s (pre ++ ops) := by
  induction pre with
  | nil => intro s _ later; exact later
  | cons a rest ih =>
    intro s first later
    exact ⟨first.1, ih first.2 later⟩

theorem RunMeets.and_forall {s : S} (meets : RunMeets step cond s ops)
    (all : ∀ a ∈ ops, allowed a) : RunMeets step (fun s a => allowed a ∧ cond s a) s ops :=
  (runMeets_of_mem all s).and meets

theorem reached_invariant (step : S → A → Option S) (inv : S → Prop)
    (keep : ∀ s a s', inv s → step s a = some s' → inv s') (ops : List A) :
    ∀ s s' : S, inv s → ops.foldlM step s = some s' → inv s' := by
  induction ops with
  | nil =>
    intro s s' start run
    cases run
    exact start
  | cons a rest ih =>
    intro s s' start run
    rw [foldlM_cons] at run
    obtain ⟨next, stepped, later⟩ := Option.bind_eq_some_iff.mp run
    exact ih next s' (keep s a next start stepped) later

/-- A step function that can fail follows a total one along every run that meets the
condition of the total one. -/
theorem run_follows {T : Type} (step : S → A → Option S) (follow : T → A → T)
    (cond : T → A → Prop) (rel : S → T → Prop)
    (keep : ∀ s t a, rel s t → cond t a → ∃ s', step s a = some s' ∧ rel s' (follow t a))
    (ops : List A) : ∀ (s : S) (t : T), rel s t → RunMeets follow cond t ops →
      ∃ s', ops.foldlM step s = some s' ∧ rel s' (ops.foldl follow t) := by
  induction ops with
  | nil => intro s t start _; exact ⟨s, rfl, start⟩
  | cons a rest ih =>
    intro s t start meets
    obtain ⟨next, stepped, related⟩ := keep s t a start meets.1
    obtain ⟨last, run, result⟩ := ih next (follow t a) related meets.2
    exact ⟨last, by rw [foldlM_cons, stepped]; exact run, result⟩

/-! ## Runs with outputs -/

def outputs {O : Type} (step : S → A → S × O) : S → List A → List O
  | _, [] => []
  | s, a :: rest => (step s a).2 :: outputs step (step s a).1 rest

/-- Two machines give out the same as long as related states stay related and give out the same. -/
theorem outputs_eq {T O : Type} (step : S → A → S × O) (step' : T → A → T × O)
    (cond : S → A → Prop) (rel : S → T → Prop) (keep : ∀ s t a, rel s t → cond s a →
      rel (step s a).1 (step' t a).1 ∧ (step s a).2 = (step' t a).2) (ops : List A) :
    ∀ (s : S) (t : T), rel s t → RunMeets (fun s a => (step s a).1) cond s ops →
      outputs step s ops = outputs step' t ops := by
  induction ops with
  | nil => intro s t _ _; rfl
  | cons a rest ih =>
    intro s t related meets
    obtain ⟨next, same⟩ := keep s t a related meets.1
    rw [outputs, outputs, same, ih _ _ next meets.2]

end Runs

end KernelLabs.Lib
