import KernelLabs.ChCore.Common.Bitops
import KernelLabs.Lib.Runs
import Mathlib.Algebra.Group.Int.Defs
import Mathlib.Data.List.Sort
import Mathlib.Data.List.TakeWhile

/-!
# Sleeping threads

Model of the sleep lists of `kernel/irq/timer.c`.  A section under a `sleep_list_lock` is one step,
together with the stores that `enqueue_sleeper` makes before it.  `enqueue_sleeper` does not look
whether the node of the thread is linked already: `signal_notific` makes a thread ready before it
takes its sleeper away, and the thread may sleep again in between.  What a callback does is left
open.
-/

set_option autoImplicit false

namespace KernelLabs.ChCore.Timer

open Lib Function List BitVec

/-- The kernel has both fields as `u64`; user space puts signed numbers there. -/
structure Timespec where
  tvSec : Word
  tvNsec : Word

/-- `sleep_list` of every CPU and `sleep_state` of every thread; `cb` says that it is not NULL. -/
structure TimeStates (N : Nat) where
  sleepList : Fin N → List Nat
  wakeupTick : Nat → Word
  sleepCpu : Nat → Fin N
  cb : Nat → Bool

def wakeupTickOf (now tickPerUs : Word) (timeout : Timespec) : Word :=
  now + (timeout.tvSec * 1000 * 1000 + timeout.tvNsec / 1000) * tickPerUs

/-- The loop of `enqueue_sleeper`: `t` goes before the first sleeper with a later deadline. -/
def insertSleeper (wakeupTick : Nat → Word) (t : Nat) (l : List Nat) : List Nat :=
  l.orderedInsert (fun t u => wakeupTick t < wakeupTick u) t

section Model
variable {N : Nat}

def TimeStates.aim (s : TimeStates N) (c : Fin N) (t : Nat) (tick : Word) : TimeStates N :=
  { s with
    wakeupTick := update s.wakeupTick t tick
    sleepCpu := update s.sleepCpu t c
    cb := update s.cb t true }

/-- `enqueue_sleeper` of a thread that is on no list. -/
def enqueueSleeper (s : TimeStates N) (c : Fin N) (t : Nat) (tick : Word) : TimeStates N :=
  let s := s.aim c t tick
  { s with sleepList := update s.sleepList c (insertSleeper s.wakeupTick t (s.sleepList c)) }

/-! ### A node that is linked twice -/

/-- The `sleep_list` of a CPU or the `sleep_node` of a thread. -/
inductive Node (N : Nat) where
  | head (c : Fin N)
  | thread (t : Nat)
  deriving DecidableEq

def TimeStates.cpuOf (s : TimeStates N) : Node N → Fin N
  | .head c => c
  | .thread t => s.sleepCpu t

/-- What follows `node` on its list, or on the list in reverse; the head is before and behind it. -/
def TimeStates.link (s : TimeStates N) (reverse : Bool) (node : Node N) : Node N :=
  let c := s.cpuOf node
  let l := if reverse then (s.sleepList c).reverse else s.sleepList c
  (((.head c :: l.map .thread).dropWhile (· ≠ node)).tail).headD (.head c)

/-- The threads that a walk finds; `none` if it does not end or ends on another CPU. -/
def walk (next : Node N → Node N) (c : Fin N) : Nat → Node N → Option (List Nat)
  | 0, _ => none
  | _ + 1, .head d => if d = c then some [] else none
  | fuel + 1, .thread t => (walk next c fuel (next (.thread t))).map (t :: ·)

/-- `enqueue_sleeper` of a thread whose node is on a list already: the lists are those that the
links lead through after `list_append`.  From then on, the other links need not agree with them. -/
def relinkSleeper (s : TimeStates N) (c : Fin N) (t : Nat) (tick : Word) : Option (TimeStates N) :=
  let later := (s.sleepList c).dropWhile fun u => ¬ tick < update s.wakeupTick t tick u
  let tail := s.link true ((later.map .thread).headD (.head c))
  let next := update (update (s.link false) (.thread t) (s.link false tail)) tail (.thread t)
  let lists := fun d => walk next d ((finRange N).flatMap s.sleepList).length.succ (next (.head d))
  if ∀ d, (lists d).isSome then
    some { s.aim c t tick with sleepList := fun d => (lists d).getD [] }
  else none

def tryDequeueSleeper (s : TimeStates N) (t : Nat) : TimeStates N × Bool :=
  if s.cb t then
    ({ s with
      sleepList := fun c => (s.sleepList c).erase t
      cb := update s.cb t false }, true)
  else (s, false)

/-- `handle_timer_irq` on the CPU `c`, with the threads whose callback it invokes. -/
def handleTimerIrq (s : TimeStates N) (c : Fin N) (now : Word) : TimeStates N × List Nat :=
  let due := (s.sleepList c).takeWhile fun t => decide (s.wakeupTick t < now)
  ({ s with
    sleepList := update s.sleepList c
      ((s.sleepList c).dropWhile fun t => decide (s.wakeupTick t < now))
    cb := fun t => if t ∈ due then false else s.cb t }, due)

inductive TimerOp (N : Nat) where
  | enqueue (c : Fin N) (t : Nat) (now tickPerUs : Word) (timeout : Timespec)
  | dequeue (t : Nat)
  | irq (c : Fin N) (now : Word)

def timerStep (s : Option (TimeStates N)) (op : TimerOp N) : Option (TimeStates N) :=
  s.bind fun s =>
    match op with
    | .enqueue c t now tickPerUs timeout =>
      let tick := wakeupTickOf now tickPerUs timeout
      if s.cb t then relinkSleeper s c t tick else some (enqueueSleeper s c t tick)
    | .dequeue t => some (tryDequeueSleeper s t).1
    | .irq c now => some (handleTimerIrq s c now).1

def timerInit (wakeupTick : Nat → Word) (sleepCpu : Nat → Fin N) : TimeStates N :=
  ⟨fun _ => [], wakeupTick, sleepCpu, fun _ => false⟩

/-- A thread that is enqueued does not sleep yet. -/
def TimerOp.FromAwake (s : Option (TimeStates N)) : TimerOp N → Prop
  | .enqueue _ t _ _ _ => ∀ u ∈ s, u.cb t = false
  | _ => True

instance decidableFromAwake (s : Option (TimeStates N)) :
    ∀ op : TimerOp N, Decidable (op.FromAwake s) := by
  rintro ⟨⟩ <;> dsimp only [TimerOp.FromAwake] <;> infer_instance

def TimerOp.Spares (t : Nat) : TimerOp N → Prop
  | .enqueue _ u _ _ _ => t ≠ u
  | _ => True

/-- The list is sorted and has each thread once, and it holds those with a `cb` on the CPU `c`. -/
def Sleepers (s : TimeStates N) (c : Fin N) (l : List Nat) : Prop :=
  l.Pairwise (fun t u => t ≠ u ∧ s.wakeupTick t ≤ s.wakeupTick u) ∧
    ∀ t, t ∈ l ↔ s.cb t = true ∧ s.sleepCpu t = c

def SleepOk (s : TimeStates N) : Prop :=
  ∀ c, Sleepers s c (s.sleepList c)

end Model

/-! ## The lists -/

section Lists
variable {N : Nat} {s : TimeStates N} {tick : Nat → Word} {t : Nat} {l : List Nat}

theorem mem_insertSleeper {u : Nat} : u ∈ insertSleeper tick t l ↔ u = t ∨ u ∈ l :=
  mem_orderedInsert _

theorem insertSleeper_sorted (sorted : l.Pairwise fun t u => t ≠ u ∧ tick t ≤ tick u)
    (absent : t ∉ l) : (insertSleeper tick t l).Pairwise fun t u => t ≠ u ∧ tick t ≤ tick u := by
  induction l with
  | nil => exact pairwise_singleton _ t
  | cons u rest ih =>
    obtain ⟨first, later⟩ := pairwise_cons.mp sorted
    rw [insertSleeper, orderedInsert_cons]
    split
    · rename_i before
      refine pairwise_cons.mpr ⟨fun v member => ⟨(ne_of_mem_of_not_mem member absent).symm, ?_⟩,
        sorted⟩
      rcases mem_cons.mp member with rfl | member
      · exact BitVec.le_of_lt before
      · exact BitVec.le_trans (BitVec.le_of_lt before) (first v member).2
    · rename_i after
      refine pairwise_cons.mpr ⟨fun v member => ?_, ih later (not_mem_of_not_mem_cons absent)⟩
      rcases mem_insertSleeper.mp member with rfl | member
      · exact ⟨(ne_of_not_mem_cons absent).symm, BitVec.not_lt.mp after⟩
      · exact first v member

/-- On a sorted list the loop of `handle_timer_irq` stops behind the last thread that is due. -/
theorem takeWhile_due (now : Word) (sorted : l.Pairwise fun t u => t ≠ u ∧ tick t ≤ tick u) :
    l.takeWhile (fun t => decide (tick t < now)) = l.filter fun t => decide (tick t < now) := by
  induction l with
  | nil => rfl
  | cons u rest ih =>
    obtain ⟨first, later⟩ := pairwise_cons.mp sorted
    by_cases due : tick u < now
    · simp [due, ih later]
    · have after : ∀ v ∈ rest, now ≤ tick v := fun v member =>
        BitVec.le_trans (BitVec.not_lt.mp due) (first v member).2
      simpa [due] using after

theorem SleepOk.enqueue (ok : SleepOk s) (awake : s.cb t = false) (c : Fin N) (stop : Word) :
    SleepOk (enqueueSleeper s c t stop) := by
  have absent : ∀ d, t ∉ s.sleepList d := by simp [(ok _).2, awake]
  have sorted : ∀ d, (s.sleepList d).Pairwise fun u v => u ≠ v ∧
      (s.aim c t stop).wakeupTick u ≤ (s.aim c t stop).wakeupTick v := fun d =>
    (ok d).1.imp_of_mem fun inU inV order => by
      simpa only [TimeStates.aim, update_of_ne (ne_of_mem_of_not_mem inU (absent d)),
        update_of_ne (ne_of_mem_of_not_mem inV (absent d))] using order
  refine (forall_update_iff _ (Sleepers (enqueueSleeper s c t stop))).mpr
    ⟨⟨insertSleeper_sorted (sorted c) (absent c), fun u => ?_⟩, fun d other =>
      ⟨sorted d, fun u => ?_⟩⟩
  all_goals by_cases self : u = t
  · simp [mem_insertSleeper, enqueueSleeper, TimeStates.aim, self]
  · simp [mem_insertSleeper, enqueueSleeper, TimeStates.aim, self, (ok c).2]
  · simp [enqueueSleeper, TimeStates.aim, self, absent, other.symm]
  · simp [enqueueSleeper, TimeStates.aim, self, (ok d).2]

theorem SleepOk.dequeue (ok : SleepOk s) (t : Nat) : SleepOk (tryDequeueSleeper s t).1 := by
  rw [tryDequeueSleeper]
  split
  · refine fun c => ⟨(ok c).1.sublist erase_sublist, fun u => ?_⟩
    rw [Nodup.mem_erase_iff ((ok c).1.imp And.left), (ok c).2]
    by_cases self : u = t
    · simp [self]
    · simp [self]
  · exact ok

theorem SleepOk.irq (ok : SleepOk s) (c : Fin N) (now : Word) :
    SleepOk (handleTimerIrq s c now).1 := by
  have whole := takeWhile_append_dropWhile (p := fun t => decide (s.wakeupTick t < now))
    (l := s.sleepList c)
  have listed := (ok c).2
  rw [← whole] at listed
  obtain ⟨-, sorted, apart⟩ := pairwise_append.mp (whole ▸ (ok c).1)
  refine (forall_update_iff _ (Sleepers (handleTimerIrq s c now).1)).mpr
    ⟨⟨sorted, fun u => ?_⟩, fun d other => ⟨(ok d).1, fun u => ?_⟩⟩
  all_goals
    simp only [handleTimerIrq]
    split
  · rename_i due
    simp only [Bool.false_eq_true, false_and, iff_false]
    exact fun left => (apart u due u left).1 rfl
  · rename_i later
    rw [← listed, mem_append, or_iff_right later]
  · rename_i due
    simp [(ok d).2, ((listed u).mp (mem_append_left _ due)).2, other.symm]
  · exact (ok d).2 u

theorem SleepOk.step {op : TimerOp N} (ok : SleepOk s) (awake : op.FromAwake (some s)) :
    ∃ s', timerStep (some s) op = some s' ∧ SleepOk s' := by
  cases op with
  | enqueue c t now tickPerUs timeout =>
    exact ⟨_, if_neg (by simp [awake s rfl]), ok.enqueue (awake s rfl) c _⟩
  | dequeue t => exact ⟨_, rfl, ok.dequeue t⟩
  | irq c now => exact ⟨_, rfl, ok.irq c now⟩

theorem enqueue_aims {s' : TimeStates N} {c : Fin N} {now tickPerUs : Word} {timeout : Timespec}
    (run : timerStep (some s) (.enqueue c t now tickPerUs timeout) = some s') :
    s'.wakeupTick = update s.wakeupTick t (wakeupTickOf now tickPerUs timeout) ∧
      s'.cb = update s.cb t true := by
  simp only [timerStep, Option.bind_some, relinkSleeper] at run
  split at run
  · obtain ⟨-, same⟩ := Option.ite_none_right_eq_some.mp run
    cases same
    exact ⟨rfl, rfl⟩
  · cases run
    exact ⟨rfl, rfl⟩

theorem spared_step {s' : TimeStates N} {op : TimerOp N} (spared : op.Spares t)
    (run : timerStep (some s) op = some s') : s'.wakeupTick t = s.wakeupTick t ∧
      (s.cb t = false → s'.cb t = false) := by
  cases op with
  | enqueue c u now tickPerUs timeout =>
    obtain ⟨ticks, cbs⟩ := enqueue_aims run
    rw [ticks, cbs]
    exact ⟨update_of_ne spared _ _, (update_of_ne spared _ _).trans⟩
  | dequeue u =>
    cases run
    rw [tryDequeueSleeper]
    split
    · by_cases self : t = u
      · simp [self]
      · simp [self]
    · exact ⟨rfl, id⟩
  | irq c now =>
    cases run
    refine ⟨rfl, fun awake => ?_⟩
    simp [handleTimerIrq, awake]

end Lists

/-- As long as no thread is enqueued that sleeps already, the lists are right; `handle_timer_irq`
calls back exactly the threads on its list that are due, in the order of the list; and a thread that
was taken off a list is not called back before it sleeps again. -/
theorem sleep_lists_exact {N : Nat} (wakeupTick : Nat → Word) (sleepCpu : Nat → Fin N)
    (ops : List (TimerOp N)) (awake : RunMeets timerStep (fun s op => op.FromAwake s)
      (some (timerInit wakeupTick sleepCpu)) ops) :
    ∃ s, ops.foldl timerStep (some (timerInit wakeupTick sleepCpu)) = some s ∧ SleepOk s ∧
      (∀ c now, (handleTimerIrq s c now).2 =
        (s.sleepList c).filter fun t => decide (s.wakeupTick t < now)) ∧
      ∀ t (later : List (TimerOp N)), (∀ op ∈ later, op.Spares t) →
        RunMeets timerStep (fun s op => op.FromAwake s) (some (tryDequeueSleeper s t).1) later →
        ∃ s', later.foldl timerStep (some (tryDequeueSleeper s t).1) = some s' ∧
          ∀ c now, t ∉ (handleTimerIrq s' c now).2 := by
  obtain ⟨s, run, ok⟩ := run_invariant timerStep _ (fun u => ∃ s, u = some s ∧ SleepOk s)
    (by rintro _ op ⟨s, rfl, ok⟩ awake; exact ok.step awake) ops _
    ⟨_, rfl, fun c => ⟨.nil, fun t => by simp [timerInit]⟩⟩ awake
  refine ⟨s, run, ok, fun c now => takeWhile_due now (ok c).1, fun t later spared awake => ?_⟩
  have start : (tryDequeueSleeper s t).1.cb t = false := by
    rw [tryDequeueSleeper]
    split
    · exact update_self ..
    · rename_i awake
      exact Bool.not_eq_true _ ▸ awake
  obtain ⟨s', run', ok', gone⟩ := run_invariant timerStep _
    (fun u => ∃ s, u = some s ∧ SleepOk s ∧ s.cb t = false)
    (by
      rintro _ op ⟨s, rfl, ok, gone⟩ ⟨spared, awake⟩
      obtain ⟨s', stepped, ok'⟩ := ok.step awake
      exact ⟨s', stepped, ok', (spared_step spared stepped).2 gone⟩)
    later _ ⟨_, rfl, ok.dequeue t, start⟩ (awake.and_forall spared)
  refine ⟨s', run', fun c now called => ?_⟩
  have sleeps := ((ok' c).2 t).mp ((takeWhile_sublist _).subset called)
  rw [gone] at sleeps
  cases sleeps.1

theorem sleep_lists_exact_two :
    ∃ s : TimeStates 1, [TimerOp.enqueue 0 0 0 1 ⟨0, 20000⟩, .enqueue 0 1 0 1 ⟨0, 10000⟩,
      .irq 0 15, .enqueue 0 1 15 1 ⟨0, 10000⟩].foldl timerStep
        (some (timerInit (fun _ => 0) fun _ => 0)) = some s ∧ SleepOk s :=
  Exists.imp (fun _ exact => ⟨exact.1, exact.2.1⟩) (sleep_lists_exact _ _ _ (by decide +kernel))

/-- Thread 0, which sleeps, is enqueued again behind thread 1: no link leads to thread 1 any more,
and it is not called back. -/
theorem second_sleep_loses_sleeper :
    ([TimerOp.enqueue 0 0 0 1 ⟨0, 10000⟩, .enqueue 0 1 0 1 ⟨0, 20000⟩,
      .enqueue 0 0 0 1 ⟨0, 30000⟩].foldl timerStep
        (some (timerInit (fun _ => 0) fun _ => (0 : Fin 1)))).map
      (fun s => (s.cb 1, s.wakeupTick 1, s.sleepList 0, (handleTimerIrq s 0 100).2)) =
        some (true, 20, [0], [0]) := by
  decide +kernel

/-! ## Deadlines -/

def Timespec.us (timeout : Timespec) : Int :=
  (timeout.tvSec.toInt * 10 ^ 9 + timeout.tvNsec.toInt) / 1000

/-- The end does not overflow, or stands for the last tick of all or for now; or the sum wraps to a
tick that is not before the end.  A negative `tv_nsec` is divided as an unsigned number, which adds
`surplus` ticks. -/
def DurationFits (now tickPerUs : Word) (timeout : Timespec) : Prop :=
  let stop := now.toNat + timeout.us * tickPerUs.toNat
  let nsec := timeout.tvNsec.toInt
  let surplus := if 0 ≤ nsec then 0 else ((2 ^ 64 + nsec) / 1000 - nsec / 1000) * tickPerUs.toNat
  stop + surplus < 2 ^ 64 ∨ stop = now.toNat ∨
    (stop + surplus) % 2 ^ 64 = 2 ^ 64 - 1 ∨ stop ≤ (stop + surplus) % 2 ^ 64 + 1

section Deadlines
variable {now tickPerUs : Word} {timeout : Timespec}

theorem wakeupTickOf_toNat : ((wakeupTickOf now tickPerUs timeout).toNat : Int) =
    (now.toNat + (timeout.tvSec.toInt * 10 ^ 6 + timeout.tvNsec.toNat / 1000) *
      tickPerUs.toNat) % 2 ^ 64 := by
  have total : ((timeout.tvSec * 1000 * 1000 + timeout.tvNsec / 1000 : Word).toNat : Int) =
      (timeout.tvSec.toInt * 10 ^ 6 + timeout.tvNsec.toNat / 1000) % 2 ^ 64 := by
    have thousand : (1000 : Word).toNat = 1000 := rfl
    rw [toInt_eq_toNat_cond]
    simp only [toNat_add, toNat_mul, toNat_udiv, thousand]
    split <;> omega
  rw [wakeupTickOf, toNat_add, toNat_mul, Nat.add_mod_mod, Int.natCast_emod,
    Int.natCast_add, Int.natCast_mul, total]
  change (_ + _) % (2 ^ 64 : Int) = _
  rw [Int.add_emod, Int.mul_emod, Int.emod_emod, ← Int.mul_emod, ← Int.add_emod]

theorem never_early_iff {tick : Word} {stop : Int} (start : now.toNat ≤ stop) :
    (∀ later : Word, now ≤ later → tick < later → stop ≤ later.toNat) ↔
      stop = now.toNat ∨ (tick.toNat : Int) = 2 ^ 64 - 1 ∨ stop ≤ tick.toNat + 1 := by
  simp only [le_def, lt_def]
  constructor
  · intro all
    -- the first interrupt that may come, if the clock gets there
    have first := all (BitVec.ofNat 64 (max now.toNat (tick.toNat + 1)))
    rw [BitVec.toNat_ofNat] at first
    by_cases top : tick.toNat + 1 = 2 ^ 64
    · omega
    rw [Nat.mod_eq_of_lt (by omega)] at first
    omega
  · intro either later after due
    omega

theorem durationFits_iff (nonneg : 0 ≤ timeout.tvSec.toInt * 10 ^ 9 + timeout.tvNsec.toInt) :
    DurationFits now tickPerUs timeout ↔
      ∀ later : Word, now ≤ later → wakeupTickOf now tickPerUs timeout < later →
        now.toNat + timeout.us * tickPerUs.toNat ≤ later.toNat := by
  have start : 0 ≤ timeout.us * tickPerUs.toNat :=
    Int.mul_nonneg (Int.ediv_nonneg nonneg (by decide)) (Int.natCast_nonneg _)
  have unsigned := toInt_eq_toNat_cond timeout.tvNsec
  have more : timeout.us * tickPerUs.toNat + (if 0 ≤ timeout.tvNsec.toInt then 0 else
      ((2 ^ 64 + timeout.tvNsec.toInt) / 1000 - timeout.tvNsec.toInt / 1000) * tickPerUs.toNat) =
      (timeout.tvSec.toInt * 10 ^ 6 + timeout.tvNsec.toNat / 1000) * tickPerUs.toNat := by
    rw [Timespec.us]
    split
    · rw [Int.add_zero]
      congr 1
      split at unsigned <;> omega
    · rw [← Int.add_mul]
      congr 1
      split at unsigned <;> omega
  have added : 0 ≤ if 0 ≤ timeout.tvNsec.toInt then 0 else
      ((2 ^ 64 + timeout.tvNsec.toInt) / 1000 - timeout.tvNsec.toInt / 1000) * tickPerUs.toNat := by
    split
    · exact Int.le_refl 0
    · exact Int.mul_nonneg (by omega) (Int.natCast_nonneg _)
  rw [never_early_iff (by omega), wakeupTickOf_toNat, ← more, DurationFits]
  omega

end Deadlines

/-- No interrupt calls a thread back before its duration has passed exactly if the duration fits;
other threads may do any steps in between. -/
theorem sleep_not_early_iff {N : Nat} (c : Fin N) (now tickPerUs : Word) (timeout : Timespec)
    (nonneg : 0 ≤ timeout.tvSec.toInt * 10 ^ 9 + timeout.tvNsec.toInt) :
    (∀ (s s' : TimeStates N) t (ops : List (TimerOp N)), (∀ op ∈ ops, op.Spares t) →
      (.enqueue c t now tickPerUs timeout :: ops).foldl timerStep (some s) = some s' →
      ∀ d later, now ≤ later → t ∈ (handleTimerIrq s' d later).2 →
      now.toNat + timeout.us * tickPerUs.toNat ≤ later.toNat) ↔
    DurationFits now tickPerUs timeout := by
  rw [durationFits_iff nonneg]
  constructor
  · intro all later after due
    refine all (timerInit (fun _ => 0) fun _ => c) _ 0 [] (by simp) rfl c later after ?_
    simp [handleTimerIrq, enqueueSleeper, TimeStates.aim, timerInit, insertSleeper, due]
  · intro all s s' t ops spared run d later after called
    have kept := run_invariant timerStep _
      (fun u => ∀ v ∈ u, v.wakeupTick t = wakeupTickOf now tickPerUs timeout)
      (fun u op same spared v stepped => by
        cases u with
        | none => cases stepped
        | some u => exact (spared_step spared stepped).1.trans (same u rfl)) ops
      (timerStep (some s) (.enqueue c t now tickPerUs timeout))
      (fun v enqueued => by rw [(enqueue_aims enqueued).1, update_self]) (runMeets_of_mem spared _)
    have due := mem_takeWhile_imp called
    rw [kept s' run, decide_eq_true_eq] at due
    exact all later after due

theorem sleep_not_early_second :
    ¬ 6 ∈ (handleTimerIrq (enqueueSleeper (timerInit (fun _ => 0) fun _ => (0 : Fin 1)) 0 6
      (wakeupTickOf 100 62 ⟨1, 0⟩)) 0 62000099).2 := fun called =>
  absurd ((sleep_not_early_iff 0 100 62 ⟨1, 0⟩ (by decide)).mpr (by unfold DurationFits; decide)
    (timerInit (fun _ => 0) fun _ => 0) _ 6 [] (by simp) rfl 0 62000099 (by decide) called)
    (by decide)

/-- A sleep of `2 ^ 58` seconds is over at the next tick: `2 ^ 58 * 10 ^ 6` is `0` as a `u64`. -/
theorem sleep_long_ends_at_once :
    (handleTimerIrq (enqueueSleeper (timerInit (fun _ => 0) fun _ => (0 : Fin 1)) 0 6
      (wakeupTickOf 100 62 ⟨BitVec.twoPow 64 58, 0⟩)) 0 101).2 = [6] := by
  decide +kernel

end KernelLabs.ChCore.Timer
