import KernelLabs.ChCore.Ipc.NotificationRuns

/-!
# The conservation law under each event

A wait that returns at once, a thread that blocks, a signal that is kept or wakes a thread, a
timeout, a thread that comes back: what each does to the lists and to the counts.
-/

set_option autoImplicit false

namespace KernelLabs.ChCore

open Lib Function List WaitPhase NotificSys

section Ledger
variable {N : Nat} {S : NotificSys N} {k : NotificKernel N} {t n : Nat}

theorem waitingOf_update (notific : Nat → Notific) (n : Nat) (r : Notific) :
    waitingOf (update notific n r) =
      update (waitingOf notific) n r.waitingThreads :=
  funext (apply_update (fun _ r => r.waitingThreads) notific n r)

theorem blockedOf_update (phase : Nat → WaitPhase) (t : Nat) (p : WaitPhase) :
    blockedOf (update phase t p) = update (blockedOf phase) t p.blockedOn :=
  funext (apply_update (fun _ p => p.blockedOn) phase t p)

theorem signalledOf_update (phase : Nat → WaitPhase) (t : Nat) (p : WaitPhase) :
    signalledOf (update phase t p) =
      update (signalledOf phase) t p.signalledBy :=
  funext (apply_update (fun _ p => p.signalledBy) phase t p)

variable {p : WaitPhase} {phase : Nat → WaitPhase}

theorem blockedOf_same (before : blockedOf phase t = none) (now : p.blockedOn = none) :
    blockedOf (update phase t p) = blockedOf phase := by
  rw [blockedOf_update, now, ← before, update_eq_self]

theorem signalledOf_same (before : signalledOf phase t = none) (now : p.signalledBy = none) :
    signalledOf (update phase t p) = signalledOf phase := by
  rw [signalledOf_update, now, ← before, update_eq_self]

theorem Conserved.mem (law : Conserved S) :
    t ∈ (S.kernel.notific n).waitingThreads ↔ S.phase t = .blocked n := by
  have member := law.waiting.mem (t := t) (i := n)
  simp only [waitingOf, blockedOf] at member
  rw [member]
  cases S.phase t <;> simp [blockedOn]

abbrev WaitsIn (S : NotificSys N) (k : NotificKernel N) (x : Nat) : Prop :=
  WaitOk (k.state x) (k.ret x) (k.cb x) (k.pendingNotific x) (S.wakes x) (S.timed x) (S.phase x)

/-- A step that changes only how threads run, what their timeouts are and which CPU is where. -/
theorem Conserved.silent (law : Conserved S) (notific : k.notific = S.kernel.notific)
    (once : ∀ x, WaitsIn S k x) : Conserved (S.record k .silent) := by
  refine ⟨?_, ?_, ?_, law.woken, ?_, once⟩
  · simpa only [record, notific] using law.count
  · simpa only [record, notific] using law.waiting
  · simpa only [record, notific] using law.noWaiter
  · simpa only [record, notific] using law.signals

theorem record_runs_on {r : Int} (active : S.phase t = .active) :
    S.record k (.resumed t r) = S.record k .silent := by
  simp only [record, active, wokenFrom]

theorem record_comes_back {r : Int} (woken : (S.phase t).wokenFrom = some n) :
    S.record k (.resumed t r) = S.comesBack k t n r := by
  simp only [record, woken]

section
variable (law : Conserved S)
include law

/-- A woken thread comes back: its notification is counted with the waits that returned 0, and no
longer with the threads woken by a signal; after a timeout nothing is counted. -/
theorem Conserved.ledger (woken : (S.phase t).wokenFrom = some n) :
    Queued (update S.woken n ((S.woken n).erase t))
        (signalledOf (update S.phase t .active)) ∧
      ∀ j, S.signals j = S.return0 n (S.kernel.ret t) j +
        (update S.woken n ((S.woken n).erase t) j).length +
          (S.kernel.notific j).notDelivered := by
  have here := law.once t
  cases phase : S.phase t with
  | active | blocked => simp [phase, wokenFrom] at woken
  | signalled m =>
    rw [phase] at here woken
    cases woken
    have place : signalledOf S.phase t = some n := by
      simp [signalledOf, phase, signalledBy]
    have member := law.woken.mem.mpr place
    refine ⟨by rw [signalledOf_update]; exact law.woken.erase place, fun j => ?_⟩
    have sum := law.signals j
    simp only [return0, here.2, if_true]
    by_cases same : j = n
    · subst same
      have positive := length_pos_of_mem member
      simp only [update_self, length_erase_of_mem member]
      omega
    · simp only [update_of_ne same]
      exact sum
  | timedOut m =>
    rw [phase] at here
    have place : signalledOf S.phase t = none := by
      simp [signalledOf, phase, signalledBy]
    have absent : t ∉ S.woken n := by simp [law.woken.mem, place]
    have nonzero : ¬ (-eAGAIN = 0) := by decide
    rw [erase_of_not_mem absent, update_eq_self, signalledOf_same place rfl]
    simp only [return0, here.2.2, nonzero, if_false]
    exact ⟨law.woken, law.signals⟩

theorem Conserved.comesBack (notific : k.notific = S.kernel.notific)
    (woken : (S.phase t).wokenFrom = some n) (others : ∀ x, x ≠ t → WaitsIn S k x) :
    Conserved (S.comesBack k t n (S.kernel.ret t)) := by
  have here := law.once t
  have free : blockedOf S.phase t = none := by
    unfold blockedOf
    cases phase : S.phase t <;> simp_all [wokenFrom, blockedOn]
  have once : ∀ x, WaitOk (k.state x) (k.ret x) (k.cb x) (k.pendingNotific x) (S.wakes x)
      (S.timed x) (update S.phase t .active x) := by
    intro x
    by_cases same : x = t
    · rw [same, update_self]
      cases phase : S.phase t <;> simp_all [wokenFrom, WaitOk]
    · rw [update_of_ne same]
      exact others x same
  obtain ⟨queued, signals⟩ := law.ledger woken
  refine ⟨?_, ?_, ?_, queued, ?_, once⟩
  · simpa only [NotificSys.comesBack, notific] using law.count
  · simp only [NotificSys.comesBack, notific]
    rw [blockedOf_same free rfl]
    exact law.waiting
  · simpa only [NotificSys.comesBack, notific] using law.noWaiter
  · simpa only [NotificSys.comesBack, notific] using signals

theorem Conserved.resumed (notific : k.notific = S.kernel.notific)
    (free : ∀ m, S.phase t ≠ .blocked m) (once : ∀ x, x ≠ t → WaitsIn S k x) :
    Conserved (S.record k (.resumed t (S.kernel.ret t))) := by
  cases phase : S.phase t with
  | blocked m => exact absurd phase (free m)
  | active =>
    rw [record_runs_on phase]
    apply law.silent notific
    intro x
    by_cases same : x = t
    · have here := law.once t
      rw [phase] at here
      rw [same, WaitsIn, phase]
      exact here
    · exact once x same
  | signalled m | timedOut m =>
    have woken : (S.phase t).wokenFrom = some m := by rw [phase]; rfl
    rw [record_comes_back woken]
    exact law.comesBack notific woken once

/-- `not_delivered_notifc_count` changes, and with it what was counted of the signals. -/
theorem Conserved.counted {delivered : Nat} {signals returned : Nat → Nat}
    (noWaiter : 0 < delivered → (S.kernel.notific n).waitingThreads = [])
    (others : ∀ m, m ≠ n → signals m = S.signals m ∧ returned m = S.returned m)
    (sum : signals n = returned n + (S.woken n).length + delivered) : Conserved { S with
      kernel := { S.kernel with
        notific := update S.kernel.notific n
          { S.kernel.notific n with notDelivered := delivered } }
      signals := signals
      returned := returned } := by
  refine ⟨?_, ?_, ?_, law.woken, ?_, law.once⟩
  · simp only [forall_update_iff (S.kernel.notific)
      (p := fun _ r => r.waitingCount = r.waitingThreads.length)]
    exact ⟨law.count n, fun m _ => law.count m⟩
  · have same : waitingOf (update S.kernel.notific n
        { S.kernel.notific n with notDelivered := delivered }) = waitingOf S.kernel.notific := by
      rw [waitingOf_update]
      exact update_eq_self n (waitingOf S.kernel.notific)
    simp only [same]
    exact law.waiting
  · simp only [forall_update_iff (S.kernel.notific)
      (p := fun _ r => 0 < r.notDelivered → r.waitingThreads = [])]
    exact ⟨noWaiter, fun m _ => law.noWaiter m⟩
  · intro m
    by_cases same : m = n
    · simp only [same, update_self]
      exact sum
    · simp only [update_of_ne same, others m same]
      exact law.signals m

theorem Conserved.blocked {c : Fin N} {timeout : Bool}
    (active : S.phase t = .active) (notific : k.notific = (blockOn S.kernel c t n).notific)
    (empty : (S.kernel.notific n).notDelivered = 0)
    (small : (S.kernel.notific n).waitingCount + 1 < 2 ^ 32) (waits : k.state t = .waiting)
    (zero : k.ret t = 0) (sleeps : timeout = true → k.cb t = true ∧ k.pendingNotific t = some n)
    (others : ∀ x, x ≠ t → WaitsIn S k x) : Conserved (S.record k (.blocked t n timeout)) := by
  have free : blockedOf S.phase t = none := by simp [blockedOf, active, blockedOn]
  simp only [record]
  refine ⟨?_, ?_, ?_, ?_, ?_, ?_⟩
  · simp only [notific, blockOn, forall_update_iff (S.kernel.notific)
      (p := fun _ r => r.waitingCount = r.waitingThreads.length)]
    refine ⟨?_, fun m _ => law.count m⟩
    rw [Nat.mod_eq_of_lt small, law.count n, length_append, length_singleton]
  · simp only [notific, blockOn, waitingOf_update, blockedOf_update]
    exact law.waiting.append free
  · simp only [notific, blockOn, forall_update_iff (S.kernel.notific)
      (p := fun _ r => 0 < r.notDelivered → r.waitingThreads = [])]
    exact ⟨fun positive => by omega, fun m _ => law.noWaiter m⟩
  · simp only []
    rw [signalledOf_same (by simp [signalledOf, active, signalledBy]) rfl]
    exact law.woken
  · intro m
    have sum := law.signals m
    by_cases same : m = n
    · subst same
      simpa only [notific, blockOn, update_self] using sum
    · simpa only [notific, blockOn, update_of_ne same] using sum
  · intro x
    by_cases same : x = t
    · subst same
      simp only [update_self]
      exact ⟨rfl, waits, zero, sleeps⟩
    · simpa only [update_of_ne same] using others x same

theorem Conserved.leaves {r : Notific} {woken : Nat → List Nat} {signals : Nat → Nat}
    (notific : k.notific = update S.kernel.notific n r) (blocked : S.phase t = .blocked n)
    (off : p.blockedOn = none)
    (list : r.waitingThreads = ((S.kernel.notific n).waitingThreads.erase t))
    (count : r.waitingCount = (S.kernel.notific n).waitingCount - 1)
    (delivered : r.notDelivered = (S.kernel.notific n).notDelivered)
    (queued : Queued woken (update (signalledOf S.phase) t p.signalledBy))
    (sum : ∀ m, signals m = S.returned m + (woken m).length + (S.kernel.notific m).notDelivered)
    (once : WaitOk (k.state t) (k.ret t) (k.cb t) (k.pendingNotific t) 1 (S.timed t) p)
    (others : ∀ x, x ≠ t → WaitsIn S k x) :
    Conserved { S with
      kernel := k
      phase := update S.phase t p
      wakes := update S.wakes t (S.wakes t + 1)
      woken := woken
      signals := signals } := by
  have member := law.mem.mpr blocked
  have unwoken : S.wakes t = 0 := by
    have here := law.once t
    rw [blocked] at here
    exact here.1
  refine ⟨?_, ?_, ?_, ?_, ?_, ?_⟩
  · simp only [notific, forall_update_iff (S.kernel.notific)
      (p := fun _ r => r.waitingCount = r.waitingThreads.length)]
    refine ⟨?_, fun m _ => law.count m⟩
    rw [count, list, law.count n, length_erase_of_mem member]
  · simp only [notific, waitingOf_update, blockedOf_update, list, off]
    exact law.waiting.erase (by simp [blockedOf, blocked, blockedOn])
  · simp only [notific, forall_update_iff (S.kernel.notific)
      (p := fun _ r => 0 < r.notDelivered → r.waitingThreads = [])]
    refine ⟨fun positive => ?_, fun m _ => law.noWaiter m⟩
    rw [delivered] at positive
    rw [law.noWaiter n positive] at member
    cases member
  · simp only [signalledOf_update]
    exact queued
  · intro m
    by_cases same : m = n
    · subst same
      simp only [notific, update_self, delivered]
      exact sum m
    · simpa only [notific, update_of_ne same] using sum m
  · intro x
    by_cases same : x = t
    · subst same
      simp only [update_self, unwoken]
      exact once
    · simpa only [update_of_ne same] using others x same

end

end Ledger

end KernelLabs.ChCore
