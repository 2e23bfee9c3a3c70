import KernelLabs.Lib.Runs
import Mathlib.Data.List.Nodup

/-!
# A queue served in rotation

The first of the queue is served and goes to its end; others may leave, and new ones join at the
end.  Between two services of one member, every other member that stays is served exactly once: it
stands before the first member in the queue until it is served, and behind it from then on.
-/

set_option autoImplicit false

namespace KernelLabs.Lib

open List

section Rotation
variable {K : Type} [DecidableEq K]

inductive RotStep (queue log : List K) : List K → List K → Prop where
  | same : RotStep queue log queue log
  | clear : RotStep queue log [] log
  | join (new : K) (absent : new ∉ queue) : RotStep queue log (queue ++ [new]) log
  | serve (first : K) (rest left : List K) (members : left = queue ∨ ∃ gone, left = queue.erase gone)
      (head : left = first :: rest) : RotStep queue log (rest ++ [first]) (log ++ [first])

def Between (c d : K) (queue mid : List K) : Prop :=
  c ∉ mid ∧ ∃ ahead behind, queue = ahead ++ c :: behind ∧
    (d ∈ ahead ∧ mid.count d = 0 ∨ d ∈ behind ∧ mid.count d = 1)

variable {c d : K} {queue log queue' log' mid : List K}

theorem RotStep.nodup (step : RotStep queue log queue' log') (nodup : queue.Nodup) :
    queue'.Nodup := by
  cases step with
  | same => exact nodup
  | clear => exact nodup_nil
  | join new absent =>
    rw [nodup_append_comm]
    exact nodup_cons.mpr ⟨absent, nodup⟩
  | serve first rest left members head =>
    have leftNodup : left.Nodup := by
      rcases members with rfl | ⟨gone, rfl⟩
      · exact nodup
      · exact nodup.erase gone
    rw [nodup_append_comm]
    rw [head] at leftNodup
    exact leftNodup

theorem RotStep.log_grows (step : RotStep queue log queue' log') : ∃ more, log' = log ++ more := by
  cases step with
  | same | clear | join => exact ⟨[], (append_nil log).symm⟩
  | serve first rest left members head => exact ⟨[first], rfl⟩

theorem RotStep.between (step : RotStep queue log queue' (log ++ [c])) (other : d ≠ c)
    (member : d ∈ queue') : Between c d queue' [] := by
  generalize served : log ++ [c] = log' at step
  cases step with
  | same | clear | join => exact absurd served (by simp)
  | serve first rest left members head =>
    obtain rfl : c = first := by simpa using served
    refine ⟨not_mem_nil, rest, [], rfl, .inl ⟨?_, count_nil⟩⟩
    rcases mem_append.mp member with before | last
    · exact before
    · exact absurd (mem_singleton.mp last) other

theorem Between.leave (between : Between c d queue mid) {gone : K} (notC : gone ≠ c)
    (notD : gone ≠ d) : Between c d (queue.erase gone) mid := by
  obtain ⟨unserved, ahead, behind, rfl, place⟩ := between
  refine ⟨unserved, ?_⟩
  rw [erase_append]
  split
  · refine ⟨ahead.erase gone, behind, rfl, ?_⟩
    rcases place with ⟨member, count⟩ | later
    · exact .inl ⟨(mem_erase_of_ne notD.symm).mpr member, count⟩
    · exact .inr later
  · refine ⟨ahead, behind.erase gone, ?_, ?_⟩
    · rw [erase_cons_tail (by simpa using notC.symm)]
    · rcases place with before | ⟨member, count⟩
      · exact .inl before
      · exact .inr ⟨(mem_erase_of_ne notD.symm).mpr member, count⟩

theorem Between.serve {first : K} {rest : List K} (between : Between c d (first :: rest) mid)
    (nodup : (first :: rest).Nodup) :
    first = c ∧ mid.count d = 1 ∨ Between c d (rest ++ [first]) (mid ++ [first]) := by
  obtain ⟨unserved, ahead, behind, order, place⟩ := between
  cases ahead with
  | nil =>
    cases order
    rcases place with ⟨never, _⟩ | ⟨_, once⟩
    · cases never
    · exact .inl ⟨rfl, once⟩
  | cons x ahead =>
    cases order
    have distinct := nodup_cons.mp nodup
    have notC : first ≠ c := by
      rintro rfl
      exact distinct.1 (mem_append_right _ mem_cons_self)
    refine .inr ⟨?_, ahead, behind ++ [first], by simp, ?_⟩
    · rw [mem_append, mem_singleton, not_or]
      exact ⟨unserved, fun same => notC same.symm⟩
    rw [count_append]
    by_cases same : first = d
    · subst same
      refine .inr ⟨mem_append_right _ mem_cons_self, ?_⟩
      rcases place with ⟨_, none⟩ | ⟨member, _⟩
      · rw [none, count_singleton_self]
      · exact absurd (mem_append_right ahead (mem_cons_of_mem c member)) distinct.1
    have zero : List.count d [first] = 0 := by
      rw [count_singleton, if_neg (by simpa using same)]
    rw [zero, Nat.add_zero]
    rcases place with ⟨member, none⟩ | ⟨member, once⟩
    · rcases mem_cons.mp member with equal | later
      · exact absurd equal.symm same
      · exact .inl ⟨later, none⟩
    · exact .inr ⟨mem_append_left _ member, once⟩

theorem Between.step (between : Between c d queue mid) (nodup : queue.Nodup)
    (step : RotStep queue log queue' log') (cIn : c ∈ queue') (dIn : d ∈ queue') :
    log' = log ++ [c] ∧ mid.count d = 1 ∨
      ∃ more, log' = log ++ more ∧ Between c d queue' (mid ++ more) := by
  cases step with
  | same => exact .inr ⟨[], (append_nil _).symm, by rw [append_nil]; exact between⟩
  | clear => cases cIn
  | join new absent =>
    refine .inr ⟨[], (append_nil _).symm, ?_⟩
    rw [append_nil]
    obtain ⟨unserved, ahead, behind, rfl, place⟩ := between
    refine ⟨unserved, ahead, behind ++ [new], by simp, ?_⟩
    rcases place with before | ⟨member, once⟩
    · exact .inl before
    · exact .inr ⟨mem_append_left _ member, once⟩
  | serve first rest left members head =>
    have stays : ∀ k, k ∈ rest ++ [first] → k ∈ left := by
      intro k member
      rw [head]
      rcases mem_append.mp member with later | here
      · exact mem_cons_of_mem first later
      · exact mem_cons.mpr (.inl (mem_singleton.mp here))
    have still : Between c d left mid ∧ left.Nodup := by
      rcases members with rfl | ⟨gone, rfl⟩
      · exact ⟨between, nodup⟩
      · refine ⟨between.leave ?_ ?_, nodup.erase gone⟩
        · rintro rfl
          exact nodup.not_mem_erase (stays _ cIn)
        · rintro rfl
          exact nodup.not_mem_erase (stays _ dIn)
    rw [head] at still
    rcases still.1.serve still.2 with ⟨rfl, once⟩ | goesOn
    · exact .inl ⟨rfl, once⟩
    · exact .inr ⟨[first], rfl, goesOn⟩

end Rotation

section Runs
variable {K S A : Type} [DecidableEq K] (step : S → A → S) (queue log : S → List K)

def Rotates (s : S) (ops : List A) : Prop :=
  RunMeets step (fun s a => RotStep (queue s) (log s) (queue (step s a)) (log (step s a))) s ops

variable {step queue log}

theorem Rotates.log_grows {ops : List A} : ∀ {s : S}, Rotates step queue log s ops →
    ∃ more, log (ops.foldl step s) = log s ++ more := by
  induction ops with
  | nil =>
    intro s _
    exact ⟨[], (append_nil _).symm⟩
  | cons a rest ih =>
    intro s rotates
    obtain ⟨first, same⟩ := RotStep.log_grows rotates.1
    obtain ⟨more, later⟩ := ih rotates.2
    refine ⟨first ++ more, ?_⟩
    rw [foldl_cons, later, same, append_assoc]

theorem eq_of_append_cons {c : K} {l l' m m' : List K} (absent : c ∉ l) (absent' : c ∉ l')
    (same : l ++ c :: m = l' ++ c :: m') : l = l' := by
  have front : ∀ k n : List K, c ∉ k → (k ++ c :: n).takeWhile (fun x => decide (x ≠ c)) = k := by
    intro k n notIn
    rw [takeWhile_append_of_pos, takeWhile_cons]
    · simp
    · intro x member
      exact decide_eq_true fun equal => notIn (equal ▸ member)
  rw [← front l m absent, same, front l' m' absent']

/-- Until `c` is served again, `d` is served once. -/
theorem Rotates.served_once {c d : K} {base : List K} {ops : List A} : ∀ {s : S} {mid : List K},
    Rotates step queue log s ops → log s = base ++ mid → Between c d (queue s) mid →
    (queue s).Nodup →
    (∀ pre, pre <+: ops → c ∈ queue (pre.foldl step s) ∧ d ∈ queue (pre.foldl step s)) →
    ∀ {between : List K}, log (ops.foldl step s) = base ++ between ++ [c] → c ∉ between →
      between.count d = 1 := by
  induction ops with
  | nil =>
    intro s mid _ logged state _ _ between final unserved
    have same : mid = between ++ [c] := by
      rw [foldl_nil, logged, append_assoc] at final
      exact append_cancel_left final
    rw [same] at state
    exact absurd (mem_append_right _ (mem_singleton_self c)) state.1
  | cons a rest ih =>
    intro s mid rotates logged state nodup stay between final unserved
    obtain ⟨cIn, dIn⟩ := stay [a] (by simp)
    rcases state.step nodup rotates.1 cIn dIn with ⟨served, once⟩ | ⟨more, later, goesOn⟩
    · obtain ⟨more, grown⟩ := Rotates.log_grows rotates.2
      rw [foldl_cons, grown, served, logged, append_assoc, append_assoc, append_assoc] at final
      have same := eq_of_append_cons state.1 unserved (append_cancel_left final)
      rw [← same]
      exact once
    · refine ih rotates.2 ?_ goesOn (rotates.1.nodup nodup) ?_ final unserved
      · rw [later, logged, append_assoc]
      · intro pre isPrefix
        exact stay (a :: pre) (cons_prefix_cons.mpr ⟨rfl, isPrefix⟩)

end Runs

end KernelLabs.Lib
