import KernelLabs.Lib.Runs
import Mathlib.Algebra.Group.Nat.Defs

/-!
# The alarm of the traps lab

Model of `usertrap` (`trap.c`), `syscall`, `sys_sigalarm`, `sys_sigreturn` and the two functions of
`proc.c` that keep the interrupted trapframe.  A trap comes with the registers that `uservec` saves,
which the program sets as it likes between two traps; the trapframe after the trap is what the process
gets back.  The kernel's own fields of the trapframe are left out.  `none` is a kernel that has
panicked or a process that has exited.
-/

set_option autoImplicit false

namespace KernelLabs.Xv6.Alarm

open Lib Function

inductive Reg
  | ra | sp | gp | tp | t0 | t1 | t2 | s0 | s1 | a0 | a1 | a2 | a3 | a4 | a5 | a6 | a7
  | s2 | s3 | s4 | s5 | s6 | s7 | s8 | s9 | s10 | s11 | t3 | t4 | t5 | t6
  deriving DecidableEq

structure Trapframe where
  epc : BitVec 64
  regs : Reg → BitVec 64

def Trapframe.set (f : Trapframe) (r : Reg) (value : BitVec 64) : Trapframe :=
  { f with regs := update f.regs r value }

def Trapframe.next (f : Trapframe) : Trapframe := { f with epc := f.epc + 4 }

structure Proc where
  trapframe : Trapframe
  alarmInterval : BitVec 32
  alarmHandler : BitVec 64
  isHandlerExecuting : Bool
  alarmTicks : BitVec 32
  alarmFrame : Option Trapframe

def alarmStorecontext (kalloc : Bool) (p : Proc) : Option Proc :=
  if kalloc then some { p with alarmFrame := some p.trapframe } else none

/-- Without a stored frame the kernel reads address 0. -/
def alarmRestorecontext (p : Proc) : Option Proc :=
  p.alarmFrame.map fun f => { p with trapframe := f, alarmFrame := none }

def sysSigalarm (p : Proc) : Proc :=
  { p with
    alarmInterval := (p.trapframe.regs .a0).setWidth 32
    alarmHandler := p.trapframe.regs .a1 }

def sysSigreturn (p : Proc) : Option Proc :=
  alarmRestorecontext { p with isHandlerExecuting := false }

def sigalarmNum : BitVec 32 := 22

def sigreturnNum : BitVec 32 := 23

def Trapframe.num (f : Trapframe) : BitVec 32 := (f.regs .a7).setWidth 32

/-- `frame` and `result`: the trapframe that another system call leaves and what it returns. -/
def syscall (frame : Trapframe) (result : BitVec 64) (p : Proc) : Option Proc :=
  if p.trapframe.num = sigreturnNum then
    (sysSigreturn p).map fun p => { p with trapframe := p.trapframe.set .a0 0 }
  else if p.trapframe.num = sigalarmNum then
    some { sysSigalarm p with trapframe := p.trapframe.set .a0 0 }
  else if 0 < p.trapframe.num ∧ p.trapframe.num < sigalarmNum then
    some { p with trapframe := frame.set .a0 result }
  else some { p with trapframe := p.trapframe.set .a0 (-1) }

def timerTick (kalloc : Bool) (p : Proc) : Option Proc :=
  if p.alarmInterval = 0 then some { p with alarmTicks := 0 }
  else if p.alarmTicks + 1 = p.alarmInterval ∧ p.isHandlerExecuting = false then
    (alarmStorecontext kalloc { p with alarmTicks := 0, isHandlerExecuting := true }).map
      fun p => { p with trapframe := { p.trapframe with epc := p.alarmHandler } }
  else some { p with alarmTicks := p.alarmTicks + 1 }

inductive Cause
  | ecall (frame : Trapframe) (result : BitVec 64)
  | timer (kalloc : Bool)
  | device
  | fault

structure Trap where
  user : Trapframe
  cause : Cause
  killed : Bool

def usertrap (p : Proc) (t : Trap) : Option Proc :=
  if t.killed then none
  else
    match t.cause with
    | .ecall frame result => syscall frame result { p with trapframe := t.user.next }
    | .timer kalloc => timerTick kalloc { p with trapframe := t.user }
    | .device => some { p with trapframe := t.user }
    | .fault => none

def Trap.isSigreturn (t : Trap) : Bool :=
  match t.cause with
  | .ecall _ _ => t.user.num == sigreturnNum
  | _ => false

def handlerTrap (p : Proc) (t : Trap) : Option Proc :=
  if t.isSigreturn then none else usertrap p t

structure EntersHandler (p : Proc) (t : Trap) : Prop where
  alive : t.killed = false
  timer : t.cause = .timer true
  interval : p.alarmInterval ≠ 0
  due : p.alarmTicks + 1 = p.alarmInterval
  outside : p.isHandlerExecuting = false

structure InHandler (user : Trapframe) (p : Proc) : Prop where
  executing : p.isHandlerExecuting = true
  stored : p.alarmFrame = some user

variable {user : Trapframe} {p p' : Proc} {t : Trap}

theorem EntersHandler.stored (enters : EntersHandler p t) (trap : usertrap p t = some p') :
    InHandler t.user p' := by
  rw [usertrap, enters.alive, enters.timer] at trap
  simp only [Bool.false_eq_true, if_false, timerTick, enters.interval, enters.due, enters.outside,
    and_self, if_true, alarmStorecontext, Option.map_some, Option.some.injEq] at trap
  subst trap
  exact ⟨rfl, rfl⟩

section
variable (inside : InHandler user p)
include inside

theorem InHandler.timerTick {kalloc : Bool}
    (tick : timerTick kalloc p = some p') : InHandler user p' := by
  -- the second test of the handler flag keeps the stored frame
  have second : ¬ (p.alarmTicks + 1 = p.alarmInterval ∧ p.isHandlerExecuting = false) := by
    simp [inside.executing]
  rw [Alarm.timerTick, if_neg second] at tick
  split at tick <;> cases tick <;> exact ⟨inside.executing, inside.stored⟩

theorem InHandler.syscall {frame : Trapframe} {result : BitVec 64}
    (other : p.trapframe.num ≠ sigreturnNum) (call : syscall frame result p = some p') :
    InHandler user p' := by
  rw [Alarm.syscall, if_neg other] at call
  split at call
  · cases call
    exact ⟨inside.executing, inside.stored⟩
  · split at call <;> cases call <;> exact ⟨inside.executing, inside.stored⟩

theorem InHandler.trap (trap : handlerTrap p t = some p') : InHandler user p' := by
  rw [handlerTrap] at trap
  obtain ⟨other, trap⟩ := Option.ite_none_left_eq_some.mp trap
  rw [usertrap] at trap
  obtain ⟨_, trap⟩ := Option.ite_none_left_eq_some.mp trap
  have saved (f : Trapframe) : InHandler user { p with trapframe := f } :=
    ⟨inside.executing, inside.stored⟩
  cases cause : t.cause with
  | ecall frame result =>
    simp only [cause] at trap
    simp only [Trap.isSigreturn, cause, beq_iff_eq] at other
    exact (saved t.user.next).syscall other trap
  | timer kalloc =>
    simp only [cause] at trap
    exact (saved t.user).timerTick trap
  | device =>
    simp only [cause, Option.some.injEq] at trap
    exact trap ▸ saved t.user
  | fault =>
    simp only [cause] at trap
    cases trap

/-- `syscall` writes the result of `sys_sigreturn` into the restored frame. -/
theorem InHandler.sigreturn (alive : t.killed = false)
    (ends : t.isSigreturn = true) : (usertrap p t).map (·.trapframe) = some (user.set .a0 0) := by
  cases cause : t.cause with
  | ecall frame result =>
    simp only [Trap.isSigreturn, cause, beq_iff_eq] at ends
    have num : t.user.next.num = sigreturnNum := ends
    simp [usertrap, alive, cause, Alarm.syscall, num, sysSigreturn, alarmRestorecontext,
      inside.stored]
  | _ => simp [Trap.isSigreturn, cause] at ends

end

/-- When the handler returns, the interrupted state is back iff its `a0` was 0. -/
theorem sigreturn_restores_iff (traps : List Trap) {handler last : Proc} {sigreturn : Trap}
    (enters : EntersHandler p t) (entered : usertrap p t = some handler)
    (runs : traps.foldlM handlerTrap handler = some last)
    (alive : sigreturn.killed = false) (ends : sigreturn.isSigreturn = true) :
    (usertrap last sigreturn).map (·.trapframe) = some t.user ↔ t.user.regs .a0 = 0 := by
  have inside : InHandler t.user last :=
    reached_invariant handlerTrap (InHandler t.user) (fun _ _ _ => InHandler.trap) traps handler last
      (enters.stored entered) runs
  rw [inside.sigreturn alive ends, Option.some.injEq]
  constructor
  · intro same
    rw [← same]
    exact update_self Reg.a0 0 t.user.regs
  · intro zero
    rw [Trapframe.set, ← zero, update_eq_self]

def alarmProc (value : BitVec 64) : Proc := ⟨⟨0, fun _ => value⟩, 1, 0, false, 0, none⟩

def firstTick (value : BitVec 64) : Trap := ⟨⟨0, fun _ => value⟩, .timer true, false⟩

def sigreturnTrap : Trap :=
  ⟨⟨0, fun _ => 23⟩, .ecall ⟨0, fun _ => 0⟩ 0, false⟩

theorem sigreturn_restores_zero : ∃ handler last,
    usertrap (alarmProc 0) (firstTick 0) = some handler ∧
      [firstTick 3].foldlM handlerTrap handler = some last ∧
      (usertrap last sigreturnTrap).map (·.trapframe) = some (firstTick 0).user := by
  refine ⟨_, _, rfl, rfl, ?_⟩
  exact (sigreturn_restores_iff (t := firstTick 0) (p := alarmProc 0) [firstTick 3]
    ⟨rfl, rfl, by decide, by decide, rfl⟩ rfl rfl rfl (by decide)).mpr rfl

theorem sigreturn_loses_a0 :
    EntersHandler (alarmProc 5) (firstTick 5) ∧ (firstTick 5).user.regs .a0 = 5 ∧
      ([firstTick 5, sigreturnTrap].foldlM usertrap (alarmProc 5)).map (·.trapframe.regs .a0) =
        some 0 :=
  ⟨⟨rfl, rfl, by decide, by decide, rfl⟩, rfl, by decide⟩

/-! ## The period -/

inductive Event
  | tick (kalloc : Bool)
  | sigreturn

abbrev Due (p : Proc) : Prop :=
  p.alarmTicks + 1 = p.alarmInterval ∧ p.isHandlerExecuting = false

/-- A process since its last `sigalarm`.  `since` are the ticks since the handler was entered or,
before that, since the call, when the counter was `left`. -/
structure Watch where
  proc : Proc
  running : Bool
  left : Nat
  since : Nat

def watch (p : Proc) : Watch := ⟨sysSigalarm p, p.isHandlerExecuting, p.alarmTicks.toNat, 0⟩

def watchStep (s : Watch) : Event → Option Watch
  | .tick kalloc => (timerTick kalloc s.proc).map fun p =>
    if Due s.proc then ⟨p, true, 0, 0⟩ else { s with proc := p, since := s.since + 1 }
  | .sigreturn => (sysSigreturn s.proc).map fun p => { s with proc := p, running := false }

/-- The handler returns before the counter is at the interval. -/
def promptStep (s : Watch) : Event → Option Watch
  | .tick kalloc => watchStep s (.tick kalloc)
  | .sigreturn =>
    if s.proc.alarmInterval.toNat ≤ s.left + s.since then none else watchStep s .sigreturn

structure Watch.Ok (n : BitVec 32) (s : Watch) : Prop where
  interval : s.proc.alarmInterval = n
  flag : s.proc.isHandlerExecuting = s.running
  ticks : s.proc.alarmTicks = BitVec.ofNat 32 (s.left + s.since)

def Watch.Early (n : BitVec 32) (s : Watch) : Prop := s.running = false → s.left + s.since < n.toNat

section Period
variable {n : BitVec 32} {s s' : Watch} {e : Event}

theorem Watch.Ok.due (ok : s.Ok n) : Due s.proc ↔
    (s.left + s.since + 1) % 2 ^ 32 = n.toNat ∧ s.running = false := by
  rw [Due, ok.ticks, ok.interval, ok.flag, ← BitVec.toNat_inj, ← BitVec.toNat_ofNat]
  exact and_congr_left' (Eq.congr_left (congrArg BitVec.toNat (BitVec.ofNat_add _ 1).symm))

theorem timerTick_alarm {kalloc : Bool} (interval : p.alarmInterval ≠ 0)
    (tick : timerTick kalloc p = some p') : p'.alarmInterval = p.alarmInterval ∧
    (Due p ∧ p'.isHandlerExecuting = true ∧ p'.alarmTicks = 0 ∨
      ¬ Due p ∧ p'.isHandlerExecuting = p.isHandlerExecuting ∧
        p'.alarmTicks = p.alarmTicks + 1) := by
  rw [timerTick, if_neg interval] at tick
  by_cases due : Due p
  · rw [if_pos due] at tick
    cases kalloc <;> cases tick
    exact ⟨rfl, .inl ⟨due, rfl, rfl⟩⟩
  · rw [if_neg due] at tick
    cases tick
    exact ⟨rfl, .inr ⟨due, rfl, rfl⟩⟩

variable (positive : n ≠ 0) (ok : s.Ok n)
include positive ok

theorem Watch.Ok.step (step : watchStep s e = some s') : s'.Ok n := by
  cases e with
  | tick kalloc =>
    obtain ⟨p, tick, rfl⟩ := Option.map_eq_some_iff.mp step
    obtain ⟨same, rest⟩ := timerTick_alarm (ok.interval ▸ positive) tick
    rcases rest with ⟨due, flag, ticks⟩ | ⟨notDue, flag, ticks⟩
    · rw [if_pos due]
      exact ⟨same.trans ok.interval, flag, ticks⟩
    · rw [if_neg notDue]
      refine ⟨same.trans ok.interval, flag.trans ok.flag, ticks.trans ?_⟩
      rw [ok.ticks]
      exact (BitVec.ofNat_add _ 1).symm
  | sigreturn =>
    obtain ⟨p, returned, rfl⟩ := Option.map_eq_some_iff.mp step
    obtain ⟨frame, _, rfl⟩ := Option.map_eq_some_iff.mp returned
    exact ⟨ok.interval, rfl, ok.ticks⟩

theorem Watch.Early.step (early : s.Early n) (step : promptStep s e = some s') :
    s'.Ok n ∧ s'.Early n := by
  cases e with
  | tick kalloc =>
    refine ⟨ok.step (e := .tick kalloc) positive step, ?_⟩
    obtain ⟨p, _, rfl⟩ := Option.map_eq_some_iff.mp step
    by_cases due : Due s.proc
    · rw [if_pos due]
      exact fun outside => by cases outside
    · rw [if_neg due]
      intro (outside : s.running = false)
      have before := early outside
      -- a counter at the interval would have made this tick enter the handler
      have other : s.left + s.since + 1 ≠ n.toNat := fun reached =>
        due (ok.due.mpr ⟨by rw [reached, Nat.mod_eq_of_lt n.isLt], outside⟩)
      change s.left + (s.since + 1) < n.toNat
      omega
  | sigreturn =>
    obtain ⟨inTime, step⟩ := Option.ite_none_left_eq_some.mp step
    refine ⟨ok.step positive step, fun _ => ?_⟩
    rw [ok.interval] at inTime
    obtain ⟨p, _, rfl⟩ := Option.map_eq_some_iff.mp step
    exact Nat.lt_of_not_le inTime

omit positive ok

end Period

end KernelLabs.Xv6.Alarm
