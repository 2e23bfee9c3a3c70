import Mathlib.Data.List.Nodup

/-!
# Control handed from client to worker and back

Threads that hand control to each other: a running client gives a job to a passive worker and
waits, the worker runs, and when the job is done the worker is passive again and the client runs
on.  A worker may be the client of another worker meanwhile.  `Jobs` ties the list of open jobs to
the control states: every waiting thread has one open job, every worker that is not passive has
one, and no worker has two.
-/

set_option autoImplicit false

namespace KernelLabs.Lib

open Function List

inductive Control where
  | passive
  | running
  | waiting
  deriving DecidableEq, Repr

open Control

section Handoff
variable {T : Type}

structure Jobs (state : T → Control) (worker : T → Prop) (jobs : List (T × T)) : Prop where
  nodup : jobs.Nodup
  oneClient : ∀ t t' w, (t, w) ∈ jobs → (t', w) ∈ jobs → t = t'
  oneWorker : ∀ t w w', (t, w) ∈ jobs → (t, w') ∈ jobs → w = w'
  waits : ∀ t, state t = .waiting ↔ ∃ w, (t, w) ∈ jobs
  busy : ∀ w, worker w → state w ≠ .passive → ∃ t, (t, w) ∈ jobs
  active : ∀ t w, (t, w) ∈ jobs → state w ≠ .passive

variable {state : T → Control} {worker : T → Prop} {jobs : List (T × T)} {t w : T}
  (ok : Jobs state worker jobs)
include ok

theorem Jobs.passive (works : worker w) (idle : ∀ x, (x, w) ∉ jobs) : state w = .passive := by
  by_contra active
  obtain ⟨x, job⟩ := ok.busy w works active
  exact idle x job

theorem Jobs.no_job (awake : state t ≠ .waiting) (v : T) : (t, v) ∉ jobs := by
  intro job
  exact awake ((ok.waits t).mpr ⟨v, job⟩)

theorem Jobs.workers {worker' : T → Prop} (only : ∀ v, worker' v → state v = .passive ∨ worker v) :
    Jobs state worker' jobs := by
  refine { ok with busy := ?_ }
  intro v works active
  rcases only v works with passive | before
  · exact absurd passive active
  · exact ok.busy v before active

variable [DecidableEq T]

def handTo (state : T → Control) (t w : T) : T → Control :=
  update (update state t .waiting) w .running

def handBack (state : T → Control) (t w : T) : T → Control :=
  update (update state w .passive) t .running

omit ok in
theorem handTo_worker : handTo state t w w = .running := update_self ..

omit ok in
theorem handTo_client (apart : t ≠ w) : handTo state t w t = .waiting := by
  rw [handTo, update_of_ne apart, update_self]

omit ok in
theorem handTo_other {x : T} (notClient : x ≠ t) (notWorker : x ≠ w) :
    handTo state t w x = state x := by
  rw [handTo, update_of_ne notWorker, update_of_ne notClient]

omit ok in
theorem handBack_client : handBack state t w t = .running := update_self ..

omit ok in
theorem handBack_worker (apart : t ≠ w) : handBack state t w w = .passive := by
  rw [handBack, update_of_ne apart.symm, update_self]

omit ok in
theorem handBack_other {x : T} (notClient : x ≠ t) (notWorker : x ≠ w) :
    handBack state t w x = state x := by
  rw [handBack, update_of_ne notClient, update_of_ne notWorker]

omit [DecidableEq T] in
omit ok in
theorem client_cons {x : T} (notClient : x ≠ t) :
    (∃ v, (x, v) ∈ (t, w) :: jobs) ↔ ∃ v, (x, v) ∈ jobs := by
  constructor
  · intro some
    obtain ⟨v, member⟩ := some
    rcases mem_cons.mp member with equal | job
    · cases equal
      exact absurd rfl notClient
    · exact ⟨v, job⟩
  · intro some
    obtain ⟨v, job⟩ := some
    exact ⟨v, mem_cons_of_mem _ job⟩

theorem Jobs.begin (runs : state t = .running) (works : worker w) (idle : ∀ x, (x, w) ∉ jobs) :
    Jobs (handTo state t w) worker ((t, w) :: jobs) := by
  have off := ok.passive works idle
  have apart : t ≠ w := fun same => by simp [← same, runs] at off
  have free : ∀ v, (t, v) ∉ jobs := ok.no_job (by rw [runs]; exact noConfusion)
  have still : ∀ v, (w, v) ∉ jobs := ok.no_job (by rw [off]; exact noConfusion)
  refine ⟨nodup_cons.mpr ⟨free w, ok.nodup⟩, ?_, ?_, ?_, ?_, ?_⟩
  · intro x x' v first second
    rcases mem_cons.mp first with equal | job
    · cases equal
      rcases mem_cons.mp second with equal' | job'
      · cases equal'
        rfl
      · exact absurd job' (idle x')
    · rcases mem_cons.mp second with equal' | job'
      · cases equal'
        exact absurd job (idle x)
      · exact ok.oneClient x x' v job job'
  · intro x v v' first second
    rcases mem_cons.mp first with equal | job
    · cases equal
      rcases mem_cons.mp second with equal' | job'
      · cases equal'
        rfl
      · exact absurd job' (free v')
    · rcases mem_cons.mp second with equal' | job'
      · cases equal'
        exact absurd job (free v)
      · exact ok.oneWorker x v v' job job'
  · intro x
    by_cases isClient : x = t
    · subst isClient
      rw [handTo_client apart]
      exact ⟨fun _ => ⟨w, mem_cons_self⟩, fun _ => rfl⟩
    rw [client_cons isClient]
    by_cases isWorker : x = w
    · subst isWorker
      rw [handTo_worker]
      constructor
      · intro never
        cases never
      · intro some
        obtain ⟨v, job⟩ := some
        exact absurd job (still v)
    · rw [handTo_other isClient isWorker]
      exact ok.waits x
  · intro v works' active
    by_cases isWorker : v = w
    · subst isWorker
      exact ⟨t, mem_cons_self⟩
    have before : state v ≠ .passive := by
      by_cases isClient : v = t
      · rw [isClient, runs]
        exact noConfusion
      · rwa [handTo_other isClient isWorker] at active
    obtain ⟨x, job⟩ := ok.busy v works' before
    exact ⟨x, mem_cons_of_mem _ job⟩
  · intro x v member
    by_cases isWorker : v = w
    · rw [isWorker, handTo_worker]
      exact noConfusion
    by_cases isClient : v = t
    · rw [isClient, handTo_client apart]
      exact noConfusion
    · rw [handTo_other isClient isWorker]
      rcases mem_cons.mp member with equal | job
      · cases equal
        exact absurd rfl isWorker
      · exact ok.active x v job

theorem Jobs.left (job : (t, w) ∈ jobs) {x v : T} (rest : (x, v) ∈ jobs.erase (t, w)) :
    (x, v) ∈ jobs ∧ x ≠ t ∧ v ≠ w := by
  obtain ⟨differ, member⟩ := ok.nodup.mem_erase_iff.mp rest
  refine ⟨member, ?_, ?_⟩
  · intro same
    subst same
    rw [ok.oneWorker x v w member job] at differ
    exact differ rfl
  · intro same
    subst same
    rw [ok.oneClient x t v member job] at differ
    exact differ rfl

theorem Jobs.stays {x v : T} (member : (x, v) ∈ jobs) (other : x ≠ t ∨ v ≠ w) :
    (x, v) ∈ jobs.erase (t, w) := by
  refine ok.nodup.mem_erase_iff.mpr ⟨?_, member⟩
  intro equal
  cases equal
  rcases other with differ | differ
  · exact differ rfl
  · exact differ rfl

theorem Jobs.finish (job : (t, w) ∈ jobs) (runs : state w = .running) :
    Jobs (handBack state t w) worker (jobs.erase (t, w)) := by
  have waiting := (ok.waits t).mpr ⟨w, job⟩
  have apart : t ≠ w := fun same => by simp [same, runs] at waiting
  refine ⟨ok.nodup.erase _, ?_, ?_, ?_, ?_, ?_⟩
  · intro x x' v first second
    exact ok.oneClient x x' v (ok.left job first).1 (ok.left job second).1
  · intro x v v' first second
    exact ok.oneWorker x v v' (ok.left job first).1 (ok.left job second).1
  · intro x
    by_cases isClient : x = t
    · rw [isClient, handBack_client]
      constructor
      · intro never
        cases never
      · intro some
        obtain ⟨v, rest⟩ := some
        exact absurd rfl (ok.left job rest).2.1
    have same : (∃ v, (x, v) ∈ jobs.erase (t, w)) ↔ ∃ v, (x, v) ∈ jobs := by
      constructor
      · intro some
        obtain ⟨v, rest⟩ := some
        exact ⟨v, (ok.left job rest).1⟩
      · intro some
        obtain ⟨v, member⟩ := some
        exact ⟨v, ok.stays member (Or.inl isClient)⟩
    rw [same, ← ok.waits x]
    by_cases isWorker : x = w
    · rw [isWorker, handBack_worker apart, runs]
      constructor
      · intro never
        cases never
      · intro never
        cases never
    · rw [handBack_other isClient isWorker]
  · intro v works' active
    have notWorker : v ≠ w := by
      intro same
      apply active
      rw [same, handBack_worker apart]
    have before : state v ≠ .passive := by
      by_cases isClient : v = t
      · rw [isClient, waiting]
        exact noConfusion
      · rwa [handBack_other isClient notWorker] at active
    obtain ⟨x, member⟩ := ok.busy v works' before
    exact ⟨x, ok.stays member (Or.inr notWorker)⟩
  · intro x v rest
    obtain ⟨member, _, notWorker⟩ := ok.left job rest
    by_cases isClient : v = t
    · rw [isClient, handBack_client]
      exact noConfusion
    · rw [handBack_other isClient notWorker]
      exact ok.active x v member

end Handoff

end KernelLabs.Lib
