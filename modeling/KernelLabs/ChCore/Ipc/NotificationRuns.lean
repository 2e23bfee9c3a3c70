import KernelLabs.Lib.Runs
import KernelLabs.Lib.Queues
import KernelLabs.ChCore.Ipc.Notification

/-!
# Signals and waits over whole runs

A signal takes its target out of the waiting list under the lock of the notification, and removes
the timeout of the target after the lock was released.  On the direct path the target keeps
`TS_WAITING` until the switch, and on both paths the target may be blocked again, in a new wait,
when the old signal comes to its timeout.  `NotificSafe` says when a step does not meet the target
of a signal in this state; the runs all of whose steps are safe are exactly the runs in which the
notifications are conserved.
-/

set_option autoImplicit false

namespace KernelLabs.ChCore

open Lib Function

inductive WaitPhase where
  | active
  | blocked (n : Nat)
  | signalled (n : Nat)
  | timedOut (n : Nat)
  deriving DecidableEq, Repr

def WaitPhase.blockedOn : WaitPhase → Option Nat
  | .blocked n => some n
  | _ => none

def WaitPhase.signalledBy : WaitPhase → Option Nat
  | .signalled n => some n
  | _ => none

def WaitPhase.wokenFrom : WaitPhase → Option Nat
  | .signalled n => some n
  | .timedOut n => some n
  | _ => none

/-- The kernel's data and the history: of each thread the phase, the wake-ups since it blocked and
whether it waits with a timeout; of each notification the threads woken and not yet back, the
signals and the waits that returned 0. -/
structure NotificSys (N : Nat) where
  kernel : NotificKernel N
  phase : Nat → WaitPhase
  wakes : Nat → Nat
  timed : Nat → Bool
  woken : Nat → List Nat
  signals : Nat → Nat
  returned : Nat → Nat

section History
variable {N : Nat}

def NotificSys.return0 (S : NotificSys N) (n : Nat) (r : Int) : Nat → Nat :=
  if r = 0 then update S.returned n (S.returned n + 1) else S.returned

def NotificSys.comesBack (S : NotificSys N) (k : NotificKernel N) (t n : Nat) (r : Int) :
    NotificSys N :=
  { S with
    kernel := k
    phase := update S.phase t .active
    woken := update S.woken n ((S.woken n).erase t)
    returned := S.return0 n r }

def NotificSys.record (S : NotificSys N) (k : NotificKernel N) : NotificEvent → NotificSys N
  | .silent => { S with kernel := k }
  | .waitReturned n r => { S with kernel := k, returned := S.return0 n r }
  | .blocked t n timeout =>
    { S with
      kernel := k
      phase := update S.phase t (.blocked n)
      wakes := update S.wakes t 0
      timed := update S.timed t timeout }
  | .kept n => { S with kernel := k, signals := update S.signals n (S.signals n + 1) }
  | .signalled t n =>
    { S with
      kernel := k
      phase := update S.phase t (.signalled n)
      wakes := update S.wakes t (S.wakes t + 1)
      woken := update S.woken n (S.woken n ++ [t])
      signals := update S.signals n (S.signals n + 1) }
  | .timedOut t n =>
    { S with
      kernel := k
      phase := update S.phase t (.timedOut n)
      wakes := update S.wakes t (S.wakes t + 1) }
  | .resumed t r =>
    match (S.phase t).wokenFrom with
    | none => { S with kernel := k }
    | some n => S.comesBack k t n r

/-- A step that cannot be made changes nothing; after a step that stops the kernel there is no
state. -/
def notificStep (S : Option (NotificSys N)) (op : NotificOp N) : Option (NotificSys N) :=
  S.bind fun S =>
    if NotificEnabled S.kernel op then
      (notificOp S.kernel op).map fun p => S.record p.1 p.2
    else some S

/-- A blocked thread was not woken, and a signal or its timeout can wake it; a woken thread was
woken once, by a signal to return 0 or by its timeout to return `-EAGAIN`. -/
def WaitOk (state : TState) (ret : Int) (cb : Bool) (pending : Option Nat) (wakes : Nat)
    (timed : Bool) : WaitPhase → Prop
  | .active => wakes ≤ 1
  | .blocked n =>
    wakes = 0 ∧ state = .waiting ∧ ret = 0 ∧ (timed = true → cb = true ∧ pending = some n)
  | .signalled _ => wakes = 1 ∧ ret = 0
  | .timedOut _ => wakes = 1 ∧ timed = true ∧ ret = -eAGAIN

def waitingOf (notific : Nat → Notific) : Nat → List Nat := fun n => (notific n).waitingThreads

def blockedOf (phase : Nat → WaitPhase) : Nat → Option Nat := fun t => (phase t).blockedOn

def signalledOf (phase : Nat → WaitPhase) : Nat → Option Nat := fun t => (phase t).signalledBy

structure Conserved (S : NotificSys N) : Prop where
  count : ∀ n, (S.kernel.notific n).waitingCount = (S.kernel.notific n).waitingThreads.length
  waiting : Queued (waitingOf S.kernel.notific) (blockedOf S.phase)
  noWaiter : ∀ n, 0 < (S.kernel.notific n).notDelivered →
    (S.kernel.notific n).waitingThreads = []
  woken : Queued S.woken (signalledOf S.phase)
  signals : ∀ n, S.signals n =
    S.returned n + (S.woken n).length + (S.kernel.notific n).notDelivered
  once : ∀ t, WaitOk (S.kernel.state t) (S.kernel.ret t) (S.kernel.cb t)
    (S.kernel.pendingNotific t) (S.wakes t) (S.timed t) (S.phase t)

def NotificKept (S : Option (NotificSys N)) : Prop := ∃ T, S = some T ∧ Conserved T

def BlockedTimed (S : NotificSys N) (t : Nat) : Prop :=
  (S.phase t).blockedOn ≠ none ∧ S.timed t = true

instance (S : NotificSys N) (t : Nat) : Decidable (BlockedTimed S t) :=
  inferInstanceAs (Decidable (_ ∧ _))

/-- No timeout is removed from a thread that blocked again with one, `pending_notific` is the
signal's own or cleared, a timer wakes only a thread that waits with a timeout, a sleeper is
enqueued after its last timeout was removed, and no counter wraps. -/
def SafeOn (S : NotificSys N) : NotificOp N → Prop
  | .wait _ t n isBlock timeout =>
    (S.kernel.notific n).notDelivered = 0 → isBlock = true →
      (timeout = true → S.kernel.cb t = false) ∧
        (S.kernel.notific n).waitingCount + 1 < 2 ^ 32
  | .signal _ n _ _ =>
    (0 < (S.kernel.notific n).notDelivered ∨ (S.kernel.notific n).waitingCount = 0) →
      (S.kernel.notific n).notDelivered + 1 < 2 ^ 32
  | .signalStep _ pc =>
    ((pc.stage = .dequeue ∨ pc.stage = .clear) → ¬ BlockedTimed S pc.target) ∧
      (pc.stage = .compare → S.kernel.pendingNotific pc.target = none ∨
        S.kernel.pendingNotific pc.target = some pc.notifc)
  | .expire t =>
    S.kernel.pendingNotific t ≠ none ∧ (S.kernel.state t = .waiting → BlockedTimed S t)
  | .run _ _ => True
  | .preempt _ _ => True

instance (S : NotificSys N) : ∀ op, Decidable (SafeOn S op) := by
  rintro ⟨⟩ <;> dsimp only [SafeOn] <;> infer_instance

def NotificSafe (S : Option (NotificSys N)) (op : NotificOp N) : Prop :=
  ∀ T ∈ S, NotificEnabled T.kernel op → SafeOn T op

instance (S : Option (NotificSys N)) (op : NotificOp N) : Decidable (NotificSafe S op) := by
  unfold NotificSafe
  infer_instance

end History

/-! ## Threads on CPUs and targets of direct switches -/

section Cpus
variable {N : Nat}

def DirectAt (cpu : Fin N → Option SignalPc) (c : Fin N) : Prop :=
  ∃ pc, cpu c = some pc ∧ pc.direct = true

def DirectTarget (cpu : Fin N → Option SignalPc) (t : Nat) : Prop :=
  ∃ c pc, cpu c = some pc ∧ pc.direct = true ∧ pc.target = t

structure CpusOk (current : Fin N → Option Nat) (cpu : Fin N → Option SignalPc)
    (state : Nat → TState) (phase : Nat → WaitPhase) : Prop where
  onCpu : ∀ c t, current c = some t →
    phase t = .active ∧ (state t = .running ∨ state t = .ready ∧ DirectAt cpu c)
  apart : ∀ c c' t, current c = some t → current c' = some t → c = c'
  direct : ∀ c pc, cpu c = some pc → pc.direct = true →
    state pc.target = .waiting ∧ phase pc.target = .signalled pc.notifc
  one : ∀ c c' pc pc', cpu c = some pc → cpu c' = some pc' → pc.direct = true →
    pc'.direct = true → pc.target = pc'.target → c = c'
  switch : ∀ c pc, cpu c = some pc → pc.stage = .switch → pc.direct = true
  awake : ∀ t, state t = .waiting → phase t ≠ .active

variable {current : Fin N → Option Nat} {cpu : Fin N → Option SignalPc} {state : Nat → TState}
  {phase : Nat → WaitPhase} {c : Fin N} {t n : Nat} {pc : SignalPc}
  (ok : CpusOk current cpu state phase)
include ok

theorem CpusOk.not_target (other : ∀ m, phase t ≠ .signalled m) : ¬ DirectTarget cpu t := by
  rintro ⟨c, pc, place, direct, rfl⟩
  exact other pc.notifc (ok.direct c pc place direct).2

theorem CpusOk.not_current (waits : state t = .waiting) (c : Fin N) : current c ≠ some t := by
  intro this
  rcases (ok.onCpu c t this).2 with runs | ⟨ready, _⟩
  · rw [waits] at runs
    cases runs
  · rw [waits] at ready
    cases ready

theorem CpusOk.thread (st : TState) (ph : WaitPhase) (off : ∀ c, current c ≠ some t)
    (free : ¬ DirectTarget cpu t) (awake : st = .waiting → ph ≠ .active) :
    CpusOk current cpu (update state t st) (update phase t ph) := by
  refine ⟨?_, ok.apart, ?_, ok.one, ok.switch, ?_⟩
  · intro c x place
    have other : x ≠ t := fun same => off c (same ▸ place)
    rw [update_of_ne other, update_of_ne other]
    exact ok.onCpu c x place
  · intro c pc place direct
    have other : pc.target ≠ t := fun same => free ⟨c, pc, place, direct, same⟩
    rw [update_of_ne other, update_of_ne other]
    exact ok.direct c pc place direct
  · intro x
    by_cases same : x = t
    · rw [same, update_self, update_self]
      exact awake
    · rw [update_of_ne same, update_of_ne same]
      exact ok.awake x

theorem CpusOk.release (c : Fin N) : CpusOk (update current c none) cpu state phase := by
  have before : ∀ d x, update current c none d = some x → current d = some x := by
    intro d x place
    rcases update_eq_some place with ⟨_, none⟩ | ⟨_, old⟩
    · cases none
    · exact old
  refine ⟨?_, ?_, ok.direct, ok.one, ok.switch, ok.awake⟩
  · intro d x place
    exact ok.onCpu d x (before d x place)
  · intro d d' x place place'
    exact ok.apart d d' x (before d x place) (before d' x place')

theorem CpusOk.released (place : current c = some t) (d : Fin N) :
    update current c none d ≠ some t := by
  intro other
  rcases update_eq_some other with ⟨_, none⟩ | ⟨apart, other⟩
  · cases none
  · exact apart (ok.apart d c t other place)

theorem CpusOk.hold (active : phase t = .active) (runs : state t = .running)
    (off : ∀ c, current c ≠ some t) : CpusOk (update current c (some t)) cpu state phase := by
  refine ⟨?_, ?_, ok.direct, ok.one, ok.switch, ok.awake⟩
  · intro d x place
    rcases update_eq_some place with ⟨_, ⟨⟩⟩ | ⟨_, old⟩
    · exact ⟨active, .inl runs⟩
    · exact ok.onCpu d x old
  intro d d' x place place'
  rcases update_eq_some place with ⟨here, ⟨⟩⟩ | ⟨_, old⟩
  · rcases update_eq_some place' with ⟨here', _⟩ | ⟨_, old'⟩
    · rw [here, here']
    · exact absurd old' (off d')
  · rcases update_eq_some place' with ⟨_, ⟨⟩⟩ | ⟨_, old'⟩
    · exact absurd old (off d)
    · exact ok.apart d d' x old old'

theorem CpusOk.enter (idle : cpu c = none) (begins : pc.stage = .readCb)
    (free : ¬ DirectTarget cpu pc.target) (target : pc.direct = true →
      state pc.target = .waiting ∧ phase pc.target = .signalled pc.notifc) :
    CpusOk current (update cpu c (some pc)) state phase := by
  refine ⟨?_, ok.apart, ?_, ?_, ?_, ok.awake⟩
  · intro d x place
    obtain ⟨active, runs | ⟨ready, p, busy, direct⟩⟩ := ok.onCpu d x place
    · exact ⟨active, .inl runs⟩
    · have other : d ≠ c := by
        intro same
        rw [same, idle] at busy
        cases busy
      exact ⟨active, .inr ⟨ready, p, by rw [update_of_ne other]; exact busy, direct⟩⟩
  · intro d p place direct
    rcases update_eq_some place with ⟨_, ⟨⟩⟩ | ⟨_, old⟩
    · exact target direct
    · exact ok.direct d p old direct
  · intro d d' p p' place place' direct direct' same
    rcases update_eq_some place with ⟨here, ⟨⟩⟩ | ⟨_, old⟩
    · rcases update_eq_some place' with ⟨here', _⟩ | ⟨_, old'⟩
      · rw [here, here']
      · exact absurd ⟨d', p', old', direct', same.symm⟩ free
    · rcases update_eq_some place' with ⟨_, ⟨⟩⟩ | ⟨_, old'⟩
      · exact absurd ⟨d, p, old, direct, same⟩ free
      · exact ok.one d d' p p' old old' direct direct' same
  · intro d p place last
    rcases update_eq_some place with ⟨_, ⟨⟩⟩ | ⟨_, old⟩
    · rw [begins] at last
      cases last
    · exact ok.switch d p old last

theorem CpusOk.move (place : cpu c = some pc) {next : Option SignalPc}
    (same : ∀ p ∈ next, p.target = pc.target ∧ p.notifc = pc.notifc ∧
      p.direct = pc.direct ∧ (p.stage = .switch → p.direct = true))
    (left : next = none → pc.direct = true → current c = none) :
    CpusOk current (update cpu c next) state phase := by
  -- what is in a signal now was in one for the same target before
  have before : ∀ d p, update cpu c next d = some p →
      ∃ q, cpu d = some q ∧ p.target = q.target ∧ p.notifc = q.notifc ∧ p.direct = q.direct ∧
        (p.stage = .switch → p.direct = true) := by
    intro d p now
    rcases update_eq_some now with ⟨here, after⟩ | ⟨_, old⟩
    · exact ⟨pc, here ▸ place, same p after⟩
    · exact ⟨p, old, rfl, rfl, rfl, ok.switch d p old⟩
  refine ⟨?_, ok.apart, ?_, ?_, ?_, ok.awake⟩
  · intro d x thread
    obtain ⟨active, runs | ⟨ready, p, busy, direct⟩⟩ := ok.onCpu d x thread
    · exact ⟨active, .inl runs⟩
    refine ⟨active, .inr ⟨ready, ?_⟩⟩
    by_cases here : d = c
    · subst here
      rw [place] at busy
      cases busy
      cases after : next with
      | none =>
        rw [left after direct] at thread
        cases thread
      | some q =>
        exact ⟨q, by rw [update_self], (same q (by rw [after]; rfl)).2.2.1.trans direct⟩
    · exact ⟨p, by rw [update_of_ne here]; exact busy, direct⟩
  · intro d p now direct
    obtain ⟨q, old, target, notifc, directs, _⟩ := before d p now
    rw [target, notifc]
    exact ok.direct d q old (directs ▸ direct)
  · intro d d' p p' now now' direct direct' targets
    obtain ⟨q, old, target, _, directs, _⟩ := before d p now
    obtain ⟨q', old', target', _, directs', _⟩ := before d' p' now'
    exact ok.one d d' q q' old old' (directs ▸ direct) (directs' ▸ direct')
      (by rw [← target, ← target', targets])
  · intro d p now
    exact (before d p now).choose_spec.2.2.2.2

theorem CpusOk.ready (place : current c = some t) (busy : DirectAt cpu c) :
    CpusOk current cpu (update state t .ready) phase := by
  have active := (ok.onCpu c t place).1
  have free : ¬ DirectTarget cpu t := ok.not_target (by simp [active])
  refine ⟨?_, ok.apart, ?_, ok.one, ok.switch, ?_⟩
  · intro d x other
    by_cases same : x = t
    · subst same
      rw [ok.apart d c x other place, update_self]
      exact ⟨active, .inr ⟨rfl, busy⟩⟩
    · rw [update_of_ne same]
      exact ok.onCpu d x other
  · intro d p now direct
    have other : p.target ≠ t := fun same => free ⟨d, p, now, direct, same⟩
    rw [update_of_ne other]
    exact ok.direct d p now direct
  · exact (forall_update_iff state fun x st => st = .waiting → phase x ≠ .active).mpr
      ⟨nofun, fun x _ => ok.awake x⟩

end Cpus

end KernelLabs.ChCore
