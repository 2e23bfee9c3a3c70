import KernelLabs.ChCore.Ipc.Connection

/-!
# Notifications

Model of `kernel/ipc/notification.c` with the timeouts of `kernel/irq/timer.c`, on `N` CPUs.  The
sections under a lock are one step each; what `try_remove_timeout` and `switch_to_thread` do after
the lock was released are steps of their own, so that another CPU may come in between.  A CPU takes
no timer interrupt while it is in a signal.  A thread is in the sleep list of its `sleep_cpu` if and
only if its `cb` is set.  A step is `none` if a `BUG_ON` fires, a NULL pointer is read or a list
node that is linked is linked a second time.
-/

set_option autoImplicit false

namespace KernelLabs.ChCore

open Function

inductive TState where
  | running
  | ready
  | waiting
  deriving DecidableEq, Repr

structure Notific where
  notDelivered : Nat
  waitingCount : Nat
  waitingThreads : List Nat
  deriving DecidableEq, Repr

/-- Where a signal stands: before `sleep_state.cb` is read, before `try_dequeue_sleeper`, before
`pending_notific` is compared or cleared, before `switch_to_thread`. -/
inductive SignalStage where
  | readCb
  | dequeue
  | compare
  | clear
  | switch
  deriving DecidableEq, Repr

structure SignalPc where
  stage : SignalStage
  notifc : Nat
  target : Nat
  direct : Bool
  deriving DecidableEq, Repr

/-- The notifications, of each thread the state, the return value and the sleep state, and of each
CPU the thread on it (`none` for the idle thread) and the signal it is in. -/
structure NotificKernel (N : Nat) where
  notific : Nat → Notific
  state : Nat → TState
  ret : Nat → Int
  cb : Nat → Bool
  pendingNotific : Nat → Option Nat
  sleepCpu : Nat → Fin N
  current : Fin N → Option Nat
  cpu : Fin N → Option SignalPc

inductive NotificEvent where
  | silent
  | waitReturned (n : Nat) (r : Int)
  | blocked (t n : Nat) (timeout : Bool)
  | kept (n : Nat)
  | signalled (t n : Nat)
  | timedOut (t n : Nat)
  | resumed (t : Nat) (r : Int)
  deriving DecidableEq, Repr

section Kernel
variable {N : Nat}

/-- `enqueue_sleeper` on the CPU `c`, with `pending_notific` as the caller has set it. -/
def enqueueSleeper (s : NotificKernel N) (c : Fin N) (t n : Nat) : Option (NotificKernel N) :=
  if s.cb t then none
  else
    some { s with
      cb := update s.cb t true
      pendingNotific := update s.pendingNotific t (some n)
      sleepCpu := update s.sleepCpu t c }

/-- The thread `t` on the CPU `c` is linked in `waiting_threads` and gives up the CPU. -/
def blockOn (s : NotificKernel N) (c : Fin N) (t n : Nat) : NotificKernel N :=
  { s with
    notific := update s.notific n
      { s.notific n with
        waitingCount := ((s.notific n).waitingCount + 1) % 2 ^ 32
        waitingThreads := (s.notific n).waitingThreads ++ [t] }
    state := update s.state t .waiting
    ret := update s.ret t 0
    current := update s.current c none }

def waitNotific (s : NotificKernel N) (c : Fin N) (t n : Nat) (isBlock timeout : Bool) :
    Option (NotificKernel N × NotificEvent) :=
  let notifc := s.notific n
  if 0 < notifc.notDelivered then
    some ({ s with
        notific := update s.notific n
          { notifc with notDelivered := notifc.notDelivered - 1 } },
      .waitReturned n 0)
  else if isBlock then
    if timeout then
      (enqueueSleeper (blockOn s c t n) c t n).map fun s => (s, .blocked t n true)
    else some (blockOn s c t n, .blocked t n false)
  else some (s, .waitReturned n (-eAGAIN))

/-- `sched_enqueue(current_thread)`; the idle thread is not enqueued. -/
def enqueueCurrent (s : NotificKernel N) (c : Fin N) : NotificKernel N :=
  match s.current c with
  | none => s
  | some cur =>
    { s with state := update s.state cur .ready, ret := update s.ret cur 0 }

/-- `target` leaves the waiting list, whose other threads are `rest`; the CPU goes on with it after
the section. -/
def takeTarget (s : NotificKernel N) (c : Fin N) (n target : Nat) (rest : List Nat)
    (direct : Bool) : NotificKernel N :=
  { s with
    notific := update s.notific n
      { s.notific n with
        waitingCount := (s.notific n).waitingCount - 1
        waitingThreads := rest }
    cpu := update s.cpu c
      (some { stage := .readCb, notifc := n, target := target, direct := direct }) }

/-- The section of `signal_notific` on the CPU `c`; `fits` says that the affinity of the target
allows this CPU. -/
def signalNotific (s : NotificKernel N) (c : Fin N) (n : Nat) (enableDirectSwitch fits : Bool) :
    Option (NotificKernel N × NotificEvent) :=
  let notifc := s.notific n
  if 0 < notifc.notDelivered ∨ notifc.waitingCount = 0 then
    some ({ s with
        notific := update s.notific n
          { notifc with notDelivered := (notifc.notDelivered + 1) % 2 ^ 32 } },
      .kept n)
  else
    match notifc.waitingThreads with
    | [] => none
    | target :: rest =>
      let direct := enableDirectSwitch && fits
      let taken := takeTarget s c n target rest direct
      -- on the direct path the target keeps its state until the switch
      if direct then some (enqueueCurrent taken c, .signalled target n)
      else
        some ({ taken with state := update s.state target .ready },
          .signalled target n)

def afterTimeout (pc : SignalPc) : Option SignalPc :=
  if pc.direct then some { pc with stage := .switch } else none

/-- The next step of a signal on the CPU `c`: `try_remove_timeout`, then `switch_to_thread`. -/
def signalStep (s : NotificKernel N) (c : Fin N) (pc : SignalPc) :
    Option (NotificKernel N × NotificEvent) :=
  match pc.stage with
  | .readCb =>
    some ({ s with
        cpu := update s.cpu c
          (if s.cb pc.target then some { pc with stage := .dequeue } else afterTimeout pc) },
      .silent)
  | .dequeue =>
    some ({ s with
        cb := update s.cb pc.target false
        cpu := update s.cpu c (some { pc with stage := .compare }) },
      .silent)
  | .compare =>
    if s.pendingNotific pc.target ≠ none ∧ s.pendingNotific pc.target ≠ some pc.notifc then none
    else
      some ({ s with cpu := update s.cpu c (some { pc with stage := .clear }) },
        .silent)
  | .clear =>
    some ({ s with
        pendingNotific := update s.pendingNotific pc.target none
        cpu := update s.cpu c (afterTimeout pc) },
      .silent)
  | .switch =>
    if s.state pc.target = .ready then none
    else
      some ({ s with
          state := update s.state pc.target .running
          current := update s.current c (some pc.target)
          cpu := update s.cpu c none },
        .resumed pc.target (s.ret pc.target))

/-- `list_del(&thread->notification_queue_node)`: the node leaves whatever list it is in, and one
that just left the head of a list changes nothing. -/
def listDel (notific : Nat → Notific) (t : Nat) : Nat → Notific :=
  fun m => { notific m with waitingThreads := (notific m).waitingThreads.erase t }

/-- `handle_timer_irq` for the sleeper `t`: `notific_timer_cb`, which holds the lock of the
notification inside the section of the sleep list. -/
def timerExpires (s : NotificKernel N) (t : Nat) : Option (NotificKernel N × NotificEvent) :=
  match s.pendingNotific t with
  | none => none
  | some n =>
    let removed :=
      { s with
        cb := update s.cb t false
        pendingNotific := update s.pendingNotific t none }
    if s.state t ≠ .waiting then some (removed, .silent)
    else if (s.notific n).waitingCount = 0 then none
    else
      some ({ removed with
          notific := update (listDel s.notific t) n
            { listDel s.notific t n with waitingCount := (s.notific n).waitingCount - 1 }
          ret := update s.ret t (-eAGAIN)
          state := update s.state t .ready },
        .timedOut t n)

/-- The scheduler lets the ready thread `t` run on the CPU `c`; a thread that was blocked comes
back from `wait_notific` here. -/
def runReady (s : NotificKernel N) (c : Fin N) (t : Nat) : NotificKernel N × NotificEvent :=
  ({ s with
      state := update s.state t .running
      current := update s.current c (some t) },
    .resumed t (s.ret t))

def preempt (s : NotificKernel N) (c : Fin N) (t : Nat) : NotificKernel N × NotificEvent :=
  ({ s with
      state := update s.state t .ready
      current := update s.current c none },
    .silent)

inductive NotificOp (N : Nat) where
  | wait (c : Fin N) (t n : Nat) (isBlock timeout : Bool)
  | signal (c : Fin N) (n : Nat) (enableDirectSwitch fits : Bool)
  | signalStep (c : Fin N) (pc : SignalPc)
  | expire (t : Nat)
  | run (c : Fin N) (t : Nat)
  | preempt (c : Fin N) (t : Nat)
  deriving DecidableEq, Repr

/-- The steps the machine can make.  A ready thread is chosen when its kernel stack is free, which
it is not while a CPU still has it as its thread. -/
def NotificEnabled (s : NotificKernel N) : NotificOp N → Prop
  | .wait c t _ _ _ => s.current c = some t ∧ s.cpu c = none
  | .signal c _ _ _ => s.cpu c = none
  | .signalStep c pc => s.cpu c = some pc
  | .expire t => s.cb t = true ∧ s.cpu (s.sleepCpu t) = none
  | .run c t =>
    s.current c = none ∧ s.cpu c = none ∧ s.state t = .ready ∧ ∀ c', s.current c' ≠ some t
  | .preempt c t => s.current c = some t ∧ s.cpu c = none

instance (s : NotificKernel N) : ∀ op, Decidable (NotificEnabled s op) := by
  rintro ⟨⟩ <;> dsimp only [NotificEnabled] <;> infer_instance

def notificOp (s : NotificKernel N) : NotificOp N → Option (NotificKernel N × NotificEvent)
  | .wait c t n isBlock timeout => waitNotific s c t n isBlock timeout
  | .signal c n enableDirectSwitch fits => signalNotific s c n enableDirectSwitch fits
  | .signalStep c pc => signalStep s c pc
  | .expire t => timerExpires s t
  | .run c t => some (runReady s c t)
  | .preempt c t => some (preempt s c t)

end Kernel

end KernelLabs.ChCore
