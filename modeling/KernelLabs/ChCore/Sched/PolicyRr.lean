import KernelLabs.ChCore.Ipc.Connection

/-!
# The round-robin scheduler

Model of `kernel/sched/policy_rr.c` with `switch_to_thread` and `find_next_runnable_thread_in_list`
of `kernel/sched/sched.c`, on `N` CPUs.  A section under an `rr_ready_queue_lock` is one step, and
so is every read and every store made without the lock; a CPU is at one of these steps, so that
other CPUs may come in between.  `none` is a kernel that stopped at a `BUG_ON`.
-/

set_option autoImplicit false

namespace KernelLabs.ChCore

open Function

inductive ThreadState where
  | init
  | ready
  | inter
  | running
  | exit
  | waiting
  | exiting
  deriving DecidableEq, Repr

def defaultBudget : Nat := 1

def maxPrio : Nat := 255

/-- Where a CPU is in the scheduler: what it returned last, or the step it makes next.  `inSched`
says whether `rr_sched` called the function. -/
inductive RrPc (N : Nat) where
  | returned (r : Int)
  | chosen (t : Nat)
  | enqueueNoAff (t : Nat) (inSched : Bool)
  | enqueueAff (t : Nat) (inSched : Bool)
  | enqueuePrio (t cpuid : Nat) (inSched : Bool)
  | enqueueSection (t : Nat) (cpuid : Fin N) (inSched : Bool)
  | dequeueCpuid (t : Nat)
  | dequeueSection (t : Nat) (cpuid : Fin N)
  | chooseEmpty (inSched : Bool)
  | chooseSection (inSched : Bool)
  | schedRunning (old : Nat)
  | schedWaiting (old : Nat)
  | schedOld (old : Nat)
  | schedBudget (old : Nat)
  | schedRefill (old : Nat)
  | schedInter (old : Nat)
  | switchCheck (target : Nat)
  | switchCpuid (target : Nat)
  | switchState (target : Nat)
  | switchStack (target : Nat)
  deriving DecidableEq, Repr

/-- The thread contexts, the ready queues, and of each CPU its thread and where it is.  `affinity`
is `none` for `NO_AFF`; `stackFree` is `KS_FREE`. -/
structure RrKernel (N : Nat) where
  state : Nat → ThreadState
  cpuid : Nat → Fin N
  affinity : Nat → Option Nat
  prio : Nat → Nat
  budget : Nat → Nat
  stackFree : Nat → Bool
  queue : Fin N → List Nat
  current : Fin N → Option Nat
  pc : Fin N → RrPc N

section Kernel
variable {N : Nat} (idleThreads : Fin N → Nat)

def IsIdle (t : Nat) : Prop := ∃ c, idleThreads c = t

instance (t : Nat) : Decidable (IsIdle idleThreads t) :=
  inferInstanceAs (Decidable (∃ c, idleThreads c = t))

def RrKernel.goto (s : RrKernel N) (c : Fin N) (pc : RrPc N) : RrKernel N :=
  { s with pc := update s.pc c pc }

def enqueueReturns (s : RrKernel N) (c : Fin N) (r : Int) (inSched : Bool) : Option (RrKernel N) :=
  if inSched then
    if r = 0 then some (s.goto c (.chooseEmpty true)) else none
  else some (s.goto c (.returned r))

def chooseReturns (s : RrKernel N) (c : Fin N) (t : Nat) (inSched : Bool) : RrKernel N :=
  s.goto c (if inSched then .switchCheck t else .chosen t)

/-- `rr_sched_enqueue` begins: an idle thread is not enqueued. -/
def enqueueBegins (s : RrKernel N) (c : Fin N) (t : Nat) (inSched : Bool) : Option (RrKernel N) :=
  if IsIdle idleThreads t then enqueueReturns s c 0 inSched
  else some (s.goto c (.enqueueNoAff t inSched))

/-- `__rr_sched_enqueue` of a thread that is not `TS_READY`. -/
def link (s : RrKernel N) (t : Nat) (cpuid : Fin N) : RrKernel N :=
  { s with
    cpuid := update s.cpuid t cpuid
    state := update s.state t .ready
    queue := update s.queue cpuid (s.queue cpuid ++ [t]) }

/-- `__rr_sched_dequeue` of a thread that is `TS_READY`: the node leaves the queue it is in. -/
def unlink (s : RrKernel N) (t : Nat) : RrKernel N :=
  { s with
    state := update s.state t .inter
    queue := fun d => (s.queue d).erase t }

def storeState (s : RrKernel N) (t : Nat) (state : ThreadState) : RrKernel N :=
  { s with state := update s.state t state }

def storeCpuid (s : RrKernel N) (t : Nat) (cpuid : Fin N) : RrKernel N :=
  { s with cpuid := update s.cpuid t cpuid }

def findNextRunnable (s : RrKernel N) (c : Fin N) : Option Nat :=
  (s.queue c).find? fun t => s.stackFree t || s.current c == some t

inductive RrEvent where
  | silent
  | enqueued (t : Nat)
  deriving DecidableEq, Repr

def silently (s : RrKernel N) : RrKernel N × RrEvent := (s, .silent)

def quiet (s : RrKernel N) : Option (RrKernel N × RrEvent) := some (silently s)

def rrStep (s : RrKernel N) (c : Fin N) : Option (RrKernel N × RrEvent) :=
  match s.pc c with
  | .returned _ => quiet s
  | .chosen _ => quiet s
  | .enqueueNoAff t inSched =>
    match s.affinity t with
    | none => quiet (s.goto c (.enqueuePrio t c inSched))
    | some _ => quiet (s.goto c (.enqueueAff t inSched))
  | .enqueueAff t inSched =>
    -- NO_AFF, stored in the meantime, is no CPU when it is read as a u32
    match s.affinity t with
    | none => quiet (s.goto c (.enqueuePrio t (2 ^ 32 - 1) inSched))
    | some a => quiet (s.goto c (.enqueuePrio t a inSched))
  | .enqueuePrio t cpuid inSched =>
    if maxPrio < s.prio t then (enqueueReturns s c (-eINVAL) inSched).map silently
    else if inRange : cpuid < N then
      quiet (s.goto c (.enqueueSection t ⟨cpuid, inRange⟩ inSched))
    else (enqueueReturns s c (-eINVAL) inSched).map silently
  | .enqueueSection t cpuid inSched =>
    if s.state t = .ready then (enqueueReturns s c (-eINVAL) inSched).map silently
    else (enqueueReturns (link s t cpuid) c 0 inSched).map fun s => (s, .enqueued t)
  | .dequeueCpuid t => quiet (s.goto c (.dequeueSection t (s.cpuid t)))
  | .dequeueSection t _ =>
    if s.state t = .ready then quiet ((unlink s t).goto c (.returned 0))
    else quiet (s.goto c (.returned (-eINVAL)))
  | .chooseEmpty inSched =>
    if s.queue c = [] then quiet (chooseReturns s c (idleThreads c) inSched)
    else quiet (s.goto c (.chooseSection inSched))
  | .chooseSection inSched =>
    if s.queue c = [] then quiet (s.goto c (.chooseEmpty inSched))
    else
      match findNextRunnable s c with
      | none => quiet (chooseReturns s c (idleThreads c) inSched)
      | some t =>
        if s.state t = .ready then quiet (chooseReturns (unlink s t) c t inSched) else none
  | .schedRunning old =>
    if s.state old = .running then quiet (s.goto c (.schedOld old))
    else quiet (s.goto c (.schedWaiting old))
  | .schedWaiting old =>
    if s.state old = .waiting then quiet (s.goto c (.schedOld old)) else none
  | .schedOld old =>
    if s.state old = .running then quiet (s.goto c (.schedBudget old))
    else quiet (s.goto c (.chooseEmpty true))
  | .schedBudget old =>
    if 0 < s.budget old then quiet (s.goto c (.returned 0))
    else quiet (s.goto c (.schedRefill old))
  | .schedRefill old =>
    quiet ({ s with budget := update s.budget old defaultBudget }.goto c
      (.schedInter old))
  | .schedInter old =>
    (enqueueBegins idleThreads (storeState s old .inter) c old true).map silently
  | .switchCheck target =>
    if s.state target = .ready then none
    else if s.current c = some target then quiet (s.goto c (.switchState target))
    else quiet (s.goto c (.switchCpuid target))
  | .switchCpuid target => quiet ((storeCpuid s target c).goto c (.switchState target))
  | .switchState target =>
    quiet ((storeState s target .running).goto c
      (if s.current c = some target then .returned 0 else .switchStack target))
  | .switchStack target =>
    quiet ({ s with
      stackFree := update s.stackFree target false
      current := update s.current c (some target) }.goto c (.returned 0))

def RrPc.isOut : RrPc N → Bool
  | .returned _ => true
  | .chosen _ => true
  | _ => false

/-- Calls of the four functions, their steps, and changes by the rest of the kernel: of states,
though not from or to `TS_READY`, and of data that the scheduler reads. -/
inductive RrOp (N : Nat) where
  | enqueue (c : Fin N) (t : Nat)
  | dequeue (c : Fin N) (t : Nat)
  | chooseThread (c : Fin N)
  | sched (c : Fin N)
  | step (c : Fin N)
  | setState (t : Nat) (state : ThreadState)
  | setAffinity (t : Nat) (affinity : Option Nat)
  | setPrio (t prio : Nat)
  | setBudget (t budget : Nat)
  | setStack (t : Nat) (free : Bool)
  | setCurrent (c : Fin N) (current : Option Nat)
  deriving DecidableEq, Repr

def rrOp (s : RrKernel N) : RrOp N → Option (RrKernel N × RrEvent)
  | .enqueue c t =>
    if (s.pc c).isOut then (enqueueBegins idleThreads s c t false).map silently else quiet s
  | .dequeue c t =>
    if (s.pc c).isOut then
      if IsIdle idleThreads t then none else quiet (s.goto c (.dequeueCpuid t))
    else quiet s
  | .chooseThread c =>
    if (s.pc c).isOut then quiet (s.goto c (.chooseEmpty false)) else quiet s
  | .sched c =>
    if (s.pc c).isOut then
      match s.current c with
      | none => quiet (s.goto c (.chooseEmpty true))
      | some old => quiet (s.goto c (.schedRunning old))
    else quiet s
  | .step c => rrStep idleThreads s c
  | .setState t state =>
    if s.state t = .ready ∨ state = .ready then quiet s
    else quiet (storeState s t state)
  | .setAffinity t affinity => quiet { s with affinity := update s.affinity t affinity }
  | .setPrio t prio => quiet { s with prio := update s.prio t prio }
  | .setBudget t budget => quiet { s with budget := update s.budget t budget }
  | .setStack t free => quiet { s with stackFree := update s.stackFree t free }
  | .setCurrent c current =>
    if (s.pc c).isOut then quiet { s with current := update s.current c current }
    else quiet s

end Kernel

end KernelLabs.ChCore
