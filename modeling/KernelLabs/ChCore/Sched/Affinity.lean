import KernelLabs.Lib.Runs
import KernelLabs.ChCore.Sched.PolicyRr

/-!
# What `rr_sched_enqueue` checks

Model of `sys_create_thread` and `sys_set_affinity` of `kernel/object/thread.c`, of the checks of
`rr_sched_enqueue` and of the functions that stop the kernel when it fails, on `N` CPUs, one call a
step.  The queued thread that a CPU finds, the thread that a notification or a timer wakes and the
object that is allocated come with the call, so that every order of the queues and lists is a run.
-/

set_option autoImplicit false

namespace KernelLabs.ChCore.Affinity

open Lib Function List

def noAff : BitVec 32 := -1

structure ThreadCtx where
  state : ThreadState
  prio : BitVec 32
  affinity : BitVec 32
  deriving DecidableEq, Repr

/-- The threads, and of each CPU its thread, `none` for the idle thread.  `bug` says that a thread
that is not queued could not be enqueued at a `BUG_ON`. -/
structure Kernel (N : Nat) where
  ctx : Nat → Option ThreadCtx
  current : Fin N → Option Nat
  bug : Bool

section Kernel
variable {N : Nat} (s : Kernel N) (c : Fin N) (t : Nat)

def rrSchedEnqueue (ctx : ThreadCtx) : Int × ThreadCtx :=
  let cpuid := if ctx.affinity = noAff then c.val else ctx.affinity.toNat
  if maxPrio < ctx.prio.toNat then (-eINVAL, ctx)
  else if N ≤ cpuid then (-eINVAL, ctx)
  else if ctx.state = .ready then (-eINVAL, ctx)
  else (0, { ctx with state := .ready })

def mustEnqueue : Kernel N :=
  match s.ctx t with
  | none => s
  | some ctx =>
    let r := rrSchedEnqueue c ctx
    { s with
      ctx := update s.ctx t (some r.2)
      bug := s.bug || decide (r.1 ≠ 0 ∧ ctx.state ≠ .ready) }

def stateOf : Option ThreadState := (s.ctx t).map (·.state)

def setState (state : ThreadState) : Kernel N :=
  { s with ctx := update s.ctx t ((s.ctx t).map fun ctx => { ctx with state := state }) }

def wakeUp : Kernel N := mustEnqueue (setState s t .inter) c t

def switchToThread : Kernel N :=
  { setState s t .running with current := update s.current c (some t) }

/-- What `rr_sched` does with the thread that it takes off the CPU; no budget is left. -/
def enqueueOld : Kernel N :=
  match s.current c with
  | none => s
  | some old => if stateOf s old = some .running then wakeUp s c old else s

/-- The CPU finds `next`, or no thread if that is not queued. -/
def rrSched (next : Nat) : Kernel N :=
  let s1 := enqueueOld s c
  if stateOf s1 next = some .ready then switchToThread s1 c next
  else { s1 with current := update s1.current c none }

/-- `t` is the object that is allocated; there is no memory if it is in use. -/
def sysCreateThread (prio isShadow : BitVec 32) : Kernel N :=
  if (s.ctx t).isSome then s
  else
    let ctx := { state := .init, prio := prio, affinity := .ofInt 32 ((-1 : Int).tmod N) }
    let s1 := { s with ctx := update s.ctx t (some ctx) }
    if isShadow = 1 then setState s1 t .waiting else wakeUp s1 c t

def sysSetAffinity (aff : BitVec 32) : Kernel N :=
  match s.ctx t with
  | none => s
  | some ctx =>
    if N ≤ aff.toInt then s
    else { s with ctx := update s.ctx t (some { ctx with affinity := aff }) }

/-- `wait_notific` without a notification: the thread blocks. -/
def waitNotific (next : Nat) : Kernel N :=
  match s.current c with
  | none => s
  | some t => rrSched (setState s t .waiting) c next

/-- `signal_notific` with the direct switch, for the first of the waiting threads. -/
def signalNotific (target : Nat) : Kernel N :=
  match s.ctx target with
  | none => s
  | some ctx =>
    if ctx.state ≠ .waiting then s
    else if ctx.affinity = noAff ∨ ctx.affinity = .ofNat 32 c then
      switchToThread ((s.current c).elim s (mustEnqueue s c)) c target
    else wakeUp s c target

/-- `notific_timer_cb` and `sleep_timer_cb`. -/
def timerCb : Kernel N := if stateOf s t = some .waiting then wakeUp s c t else s

/-- `sched` is a `sys_yield` and the end of a timer tick that used up the budget. -/
inductive Op (N : Nat) where
  | createThread (c : Fin N) (t : Nat) (prio isShadow : BitVec 32)
  | setAffinity (t : Nat) (aff : BitVec 32)
  | sched (c : Fin N) (next : Nat)
  | wait (c : Fin N) (next : Nat)
  | notify (c : Fin N) (target : Nat)
  | timer (c : Fin N) (t : Nat)

def step : Op N → Kernel N
  | .createThread c t prio isShadow => sysCreateThread s c t prio isShadow
  | .setAffinity t aff => sysSetAffinity s t aff
  | .sched c next => rrSched s c next
  | .wait c next => waitNotific s c next
  | .notify c target => signalNotific s c target
  | .timer c t => timerCb s c t

def Passes (N : Nat) (ctx : ThreadCtx) : Prop :=
  ctx.prio.toNat ≤ maxPrio ∧ (ctx.affinity = noAff ∨ ctx.affinity.toNat < N)

structure NoBug : Prop where
  passes : ∀ t, ∀ ctx ∈ s.ctx t, Passes N ctx
  noBug : s.bug = false

/-- A call that stores a priority stores none above `MAX_PRIO`, one that stores an affinity no
negative one but `NO_AFF`. -/
def MayStore : Op N → Prop
  | .createThread _ t prio _ => (s.ctx t).isSome ∨ prio.toNat ≤ maxPrio
  | .setAffinity t aff => s.ctx t = none ∨ N ≤ aff.toInt ∨ aff = noAff ∨ 0 ≤ aff.toInt
  | _ => True

variable {s c t} {ctx : ThreadCtx}

theorem rrSchedEnqueue_keeps :
    (rrSchedEnqueue c ctx).2.prio = ctx.prio ∧
      (rrSchedEnqueue c ctx).2.affinity = ctx.affinity := by
  simp only [rrSchedEnqueue]
  split_ifs <;> exact ⟨rfl, rfl⟩

theorem rrSchedEnqueue_succeeds (passes : Passes N ctx) (notQueued : ctx.state ≠ .ready) :
    (rrSchedEnqueue c ctx).1 = 0 := by
  have onCpu : ¬ N ≤ (if ctx.affinity = noAff then c.val else ctx.affinity.toNat) := by
    split_ifs with anywhere
    · exact Nat.not_le.mpr c.isLt
    · exact Nat.not_le.mpr (passes.2.resolve_left anywhere)
  simp [rrSchedEnqueue, onCpu, notQueued, Nat.not_lt.mpr passes.1]

/-- An affinity that is not rejected is the number of a CPU if and only if it is not negative. -/
theorem affinity_lt_iff (small : N < 2 ^ 31) {aff : BitVec 32} (accepted : ¬ N ≤ aff.toInt) :
    aff.toNat < N ↔ 0 ≤ aff.toInt := by
  have bound := aff.isLt
  rw [BitVec.toInt_eq_toNat_cond] at *
  split_ifs at * <;> omega

theorem createdAffinity_passes (c : Fin N) {aff : BitVec 32}
    (created : aff = .ofInt 32 ((-1 : Int).tmod N)) : aff = noAff ∨ aff.toNat < N := by
  obtain _ | _ | N := N
  · exact c.elim0
  · exact .inr (by subst created; decide)
  · refine .inl (created.trans ?_)
    rw [Int.neg_tmod, Int.tmod_eq_of_lt (by decide) (by omega)]
    rfl

section Step
variable (safe : NoBug s)
include safe

theorem NoBug.store (current : Fin N → Option Nat) {entry : Option ThreadCtx}
    (passes : ∀ ctx ∈ entry, Passes N ctx) : NoBug ⟨update s.ctx t entry, current, s.bug⟩ := by
  refine ⟨fun u ctx found => ?_, safe.noBug⟩
  by_cases same : u = t
  · subst same
    exact passes ctx (by simpa using found)
  · exact safe.passes u ctx (by simpa [same] using found)

theorem NoBug.setState (t : Nat) (state : ThreadState) : NoBug (setState s t state) := by
  refine safe.store _ fun ctx found => ?_
  obtain ⟨before, present, rfl⟩ := Option.map_eq_some_iff.mp found
  exact safe.passes t before present

variable (c t)

theorem NoBug.mustEnqueue : NoBug (mustEnqueue s c t) := by
  unfold Affinity.mustEnqueue
  rcases found : s.ctx t with _ | ctx
  · exact safe
  have passes := safe.passes t ctx found
  have quiet := decide_eq_false fun error : (rrSchedEnqueue c ctx).1 ≠ 0 ∧ ctx.state ≠ .ready =>
    error.1 (rrSchedEnqueue_succeeds passes error.2)
  simp only [quiet, Bool.or_false]
  refine safe.store _ fun after stored => ?_
  obtain rfl := Option.some.inj stored
  rwa [Passes, rrSchedEnqueue_keeps.1, rrSchedEnqueue_keeps.2]

theorem NoBug.wakeUp : NoBug (wakeUp s c t) := (safe.setState t .inter).mustEnqueue c t

theorem NoBug.switchToThread : NoBug (switchToThread s c t) :=
  ⟨(safe.setState t .running).passes, safe.noBug⟩

theorem NoBug.rrSched : NoBug (rrSched s c t) := by
  have enqueued : NoBug (enqueueOld s c) := by
    rw [enqueueOld]
    split
    · exact safe
    · split_ifs
      · exact safe.wakeUp c _
      · exact safe
  simp only [Affinity.rrSched]
  split_ifs
  · exact enqueued.switchToThread c t
  · exact ⟨enqueued.passes, enqueued.noBug⟩

theorem NoBug.signalNotific : NoBug (signalNotific s c t) := by
  rw [Affinity.signalNotific]
  split
  · exact safe
  split_ifs
  · exact safe
  · refine NoBug.switchToThread c t ?_
    cases s.current c with
    | none => exact safe
    | some current => exact safe.mustEnqueue c current
  · exact safe.wakeUp c t

theorem NoBug.step (small : N < 2 ^ 31) (op : Op N) (mayStore : MayStore s op) :
    NoBug (step s op) := by
  cases op with
  | createThread c t prio isShadow =>
    simp only [Affinity.step, sysCreateThread]
    split_ifs with used shadow
    · exact safe
    all_goals
      have passes : Passes N ⟨.init, prio, .ofInt 32 ((-1 : Int).tmod N)⟩ :=
        ⟨mayStore.resolve_left used, createdAffinity_passes c rfl⟩
      have stored := safe.store (t := t) s.current fun ctx same => Option.some.inj same ▸ passes
    · exact stored.setState t .waiting
    · exact stored.wakeUp c t
  | setAffinity t aff =>
    simp only [Affinity.step, sysSetAffinity]
    split
    · exact safe
    · rename_i ctx found
      split_ifs with rejected
      · exact safe
      · refine safe.store _ fun after same => Option.some.inj same ▸
          ⟨(safe.passes t ctx found).1, ?_⟩
        rw [affinity_lt_iff small rejected]
        exact (mayStore.resolve_left (by simp [found])).resolve_left rejected
  | sched c next => exact safe.rrSched c next
  | wait c next =>
    simp only [Affinity.step, waitNotific]
    split
    · exact safe
    · exact (safe.setState _ .waiting).rrSched c next
  | notify c target => exact safe.signalNotific c target
  | timer c t =>
    simp only [Affinity.step, timerCb]
    split_ifs
    · exact safe.wakeUp c t
    · exact safe

end Step

theorem mayStore_of_noBug (small : N < 2 ^ 31) (op : Op N) (safe : NoBug (step s op)) :
    MayStore s op := by
  cases op with
  | createThread c t prio isShadow =>
    refine or_iff_not_imp_left.mpr fun unused => ?_
    simp only [step, sysCreateThread, unused, Bool.false_eq_true, if_false] at safe
    split_ifs at safe
    · exact (safe.passes t _ (by simp [setState]; rfl)).1
    · have stored := (safe.passes t _ (by simp [wakeUp, mustEnqueue, setState]; rfl)).1
      rwa [rrSchedEnqueue_keeps.1] at stored
  | setAffinity t aff =>
    refine or_iff_not_imp_left.mpr fun present => or_iff_not_imp_left.mpr fun accepted => ?_
    obtain ⟨ctx, found⟩ := Option.ne_none_iff_exists'.mp present
    rw [← affinity_lt_iff small accepted]
    exact (safe.passes t _ (by simp [step, sysSetAffinity, found, accepted]; rfl)).2
  | _ => trivial

/-- No run stores what `rr_sched_enqueue` rejects, nor stops the kernel there, if and only if no
call stores such a value. -/
theorem enqueue_checks_exact (small : N < 2 ^ 31) (ops : List (Op N)) (start : NoBug s) :
    RunMeets step MayStore s ops ↔ ∀ pre, pre <+: ops → NoBug (pre.foldl step s) :=
  run_exact step MayStore NoBug NoBug (fun _ safe => safe)
    (fun _ op safe mayStore => safe.step small op mayStore)
    (fun _ op _ safe => mayStore_of_noBug small op safe) ops s start

end Kernel

def rootThread : Kernel 4 where
  ctx := update (fun _ => none) 0 (some ⟨.running, 254, 0⟩)
  current := update (fun _ => none) 0 (some 0)
  bug := false

theorem rootThread_noBug : NoBug rootThread := by
  refine ⟨fun t ctx found => ?_, rfl⟩
  by_cases root : t = 0
  · subst root
    obtain rfl := Option.some.inj found
    exact ⟨by decide, .inr (by decide)⟩
  · simp [rootThread, root] at found

def pinned : List (Op 4) := [.createThread 0 1 254 0, .setAffinity 1 2, .sched 0 1]

theorem enqueue_checks_exact_pinned : RunMeets step MayStore rootThread pinned ∧
    ∀ pre, pre <+: pinned → NoBug (pre.foldl step rootThread) := by
  have meets : RunMeets step MayStore rootThread pinned :=
    ⟨.inr (by decide), .inr (.inr (.inr (by decide))), trivial, trivial⟩
  exact ⟨meets, (enqueue_checks_exact (by decide) pinned rootThread_noBug).mp meets⟩

/-- A thread sets its affinity to `-2`, is preempted, and the kernel stops. -/
theorem affinity_minus_two_bug :
    NoBug rootThread ∧ (foldl step rootThread [.setAffinity 0 (-2), .sched 0 0]).bug = true :=
  ⟨rootThread_noBug, by decide⟩

end KernelLabs.ChCore.Affinity
