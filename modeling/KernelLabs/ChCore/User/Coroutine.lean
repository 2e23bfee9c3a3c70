import KernelLabs.Lib.Rotation

/-!
# Coroutines over `setjmp` and `longjmp`

The scheduler of `coroutine-jmp.c`.  A saved context is a control point: `run_scheduler` saves the
scheduler's, good until it returns, and `yield_coroutine` the one of the running coroutine.  A step
is one call of the interface together with the jumps it makes, up to the next place where main or a
coroutine runs code of its own.  The stacks and the functions of the coroutines are left out.
-/

set_option autoImplicit false

namespace KernelLabs.ChCore

open Lib List

def maxCoroutine : Nat := 1024

inductive CoroutineState where
  | idle
  | running
  | dead
deriving DecidableEq

inductive JumpState where
  | init
  | schedule
  | exit

structure Coroutine where
  state : CoroutineState
  context : Option Nat
  id : Nat

/-- Main, a coroutine (at its start, or resumed where it yielded), or nobody that can be told, after
a jump to a context that is not saved. -/
inductive Control where
  | main
  | inside (c : Nat) (resumed : Option Nat)
  | lost
deriving DecidableEq

/-- The scheduler, who has control, whether `run_scheduler` has just returned, and the dispatches so
far.  A node of `wait_queue` is the index of its coroutine. -/
structure CoScheduler where
  runningCoroutine : Option Nat
  coroutineCount : Nat
  coroutines : Nat → Coroutine
  context : Bool
  waitQueue : List Nat
  control : Control
  returned : Bool
  dispatched : List Nat

namespace CoScheduler

def change (s : CoScheduler) (i : Nat) (f : Coroutine → Coroutine) : CoScheduler :=
  { s with coroutines := fun j => if j = i then f (s.coroutines j) else s.coroutines j }

def Alive (s : CoScheduler) (i : Nat) : Prop :=
  (s.coroutines i).state ≠ .dead

instance (s : CoScheduler) (i : Nat) : Decidable (s.Alive i) :=
  inferInstanceAs (Decidable (_ ≠ _))

def nonDead (s : CoScheduler) : Nat :=
  ((range s.coroutineCount).filter fun i => s.Alive i).length

end CoScheduler

def createScheduler (s : CoScheduler) : CoScheduler :=
  { s with
    runningCoroutine := none
    coroutineCount := 0
    coroutines := fun _ => ⟨.dead, none, 0⟩
    context := false
    waitQueue := [] }

def defaultSchedPolicy (s : CoScheduler) : Option (Nat × CoScheduler) :=
  match s.waitQueue.find? fun i => s.Alive i with
  | some c => some (c, { s with waitQueue := s.waitQueue.erase c ++ [c] })
  | none => none

def dispatch (s : CoScheduler) (next : Nat) : CoScheduler :=
  let s := { s with runningCoroutine := some next, dispatched := s.dispatched ++ [next] }
  match (s.coroutines next).state, (s.coroutines next).context with
  | .idle, _ =>
    { s.change next fun coroutine => { coroutine with state := .running } with
      control := .inside next none }
  | _, some point => { s with control := .inside next (some point) }
  | _, none => { s with control := .lost }

/-- `schedule`, with the return of `run_scheduler` that follows when nothing is left. -/
def schedule (s : CoScheduler) : CoScheduler :=
  match defaultSchedPolicy s with
  | none => { s with control := .main, context := false, returned := true }
  | some (next, s) => dispatch s next

def resumeScheduler (s : CoScheduler) : JumpState → CoScheduler
  | .exit => schedule s
  | .init => schedule s
  | .schedule => schedule s

def runScheduler (s : CoScheduler) : CoScheduler :=
  resumeScheduler { s with context := true } .init

def longjmpScheduler (s : CoScheduler) (code : JumpState) : CoScheduler :=
  if s.context then resumeScheduler s code else { s with control := .lost }

def createCoroutine (s : CoScheduler) : CoScheduler :=
  let i := ((range s.coroutineCount).find? fun i => ¬ s.Alive i).getD s.coroutineCount
  let s := { s with
    coroutineCount := if i = s.coroutineCount then s.coroutineCount + 1 else s.coroutineCount }
  let s := s.change i fun coroutine => { coroutine with state := .idle, id := i }
  { s with waitQueue := s.waitQueue ++ [i] }

def exitCoroutine (s : CoScheduler) : CoScheduler :=
  match s.runningCoroutine with
  | none => { s with control := .lost }
  | some c =>
    longjmpScheduler { s.change c fun coroutine => { coroutine with state := .dead } with
      waitQueue := s.waitQueue.erase c } .exit

def yieldCoroutine (s : CoScheduler) (point : Nat) : CoScheduler :=
  match s.runningCoroutine with
  | none => { s with control := .lost }
  | some c =>
    longjmpScheduler (s.change c fun coroutine => { coroutine with context := some point })
      .schedule

inductive CoOp where
  | createScheduler
  | createCoroutine
  | runScheduler
  | yieldCoroutine (point : Nat)
  | exitCoroutine
deriving DecidableEq

/-- Main creates and runs the scheduler, a coroutine yields and ends, and both create coroutines;
other calls are no step. -/
def coCall (s : CoScheduler) : Control → CoOp → CoScheduler
  | .main, .createScheduler => createScheduler s
  | .main, .createCoroutine => createCoroutine s
  | .main, .runScheduler => runScheduler s
  | .inside _ _, .createCoroutine => createCoroutine s
  | .inside _ _, .yieldCoroutine point => yieldCoroutine s point
  | .inside _ _, .exitCoroutine => exitCoroutine s
  | _, _ => s

def coStep (s : CoScheduler) (op : CoOp) : CoScheduler :=
  coCall { s with returned := false } s.control op

def coStart : CoScheduler :=
  createScheduler ⟨none, 0, fun _ => ⟨.dead, none, 0⟩, false, [], .main, false, []⟩

/-! ## The invariant -/

structure CoSound (s : CoScheduler) : Prop where
  queued : ∀ i, i ∈ s.waitQueue ↔ i < s.coroutineCount ∧ s.Alive i
  once : s.waitQueue.Nodup
  count_le : s.coroutineCount ≤ maxCoroutine
  ids : ∀ i, i < s.coroutineCount → (s.coroutines i).id = i
  returned : s.returned = true → ∀ i, i < s.coroutineCount → ¬ s.Alive i

structure Parked (s : CoScheduler) : Prop where
  sound : CoSound s
  context : s.context = true
  saved : ∀ i ∈ s.waitQueue, (s.coroutines i).state = .running → (s.coroutines i).context ≠ none

structure CoInv (s : CoScheduler) : Prop where
  sound : CoSound s
  known : s.control ≠ .lost
  running : ∀ c resumed, s.control = .inside c resumed →
    s.runningCoroutine = some c ∧ s.context = true ∧ c ∈ s.waitQueue
  saved : ∀ i ∈ s.waitQueue, (∀ resumed, s.control ≠ .inside i resumed) →
    (s.coroutines i).state = .running → (s.coroutines i).context ≠ none

/-! ## Dispatching -/

open CoScheduler

section Dispatch
variable {s : CoScheduler} {c : Nat} {rest : List Nat}

def CoScheduler.dispatchedTo (s : CoScheduler) (c : Nat) (rest : List Nat)
    (resumed : Option Nat) : CoScheduler :=
  { s.change c fun coroutine => { coroutine with state := .running } with
    runningCoroutine := some c
    waitQueue := rest ++ [c]
    control := .inside c resumed
    dispatched := s.dispatched ++ [c] }

theorem not_returned (quiet : s.returned = false) {P : Prop} (returned : s.returned = true) : P :=
  absurd (quiet.symm.trans returned) Bool.false_ne_true

theorem schedule_nil (empty : s.waitQueue = []) :
    schedule s = { s with control := .main, context := false, returned := true } := by
  simp only [schedule, defaultSchedPolicy, empty, find?_nil]

theorem change_running (running : (s.coroutines c).state = .running) :
    (s.change c fun coroutine => { coroutine with state := .running }).coroutines =
      s.coroutines := by
  funext j
  simp only [change]
  split
  · next same =>
      subst same
      rw [← running]
  · rfl

theorem schedule_cons (queue : s.waitQueue = c :: rest) (alive : s.Alive c)
    (saved : (s.coroutines c).state = .running → (s.coroutines c).context ≠ none) :
    ∃ resumed, schedule s = s.dispatchedTo c rest resumed := by
  have first : schedule s = dispatch { s with waitQueue := rest ++ [c] } c := by
    simp only [schedule, defaultSchedPolicy, queue]
    rw [find?_cons_of_pos (by simpa using alive)]
    simp only [erase_cons_head]
  rw [first]
  cases state : (s.coroutines c).state with
  | idle => exact ⟨none, by simp only [dispatch, state]; rfl⟩
  | running =>
    cases context : (s.coroutines c).context with
    | none => exact absurd context (saved state)
    | some point =>
      refine ⟨some point, ?_⟩
      simp only [dispatch, state, context, dispatchedTo, change_running state]
      rfl
  | dead => exact absurd state alive

theorem Parked.dispatched (parked : Parked s) (queue : s.waitQueue = c :: rest)
    (resumed : Option Nat) (quiet : s.returned = false) :
    CoInv (s.dispatchedTo c rest resumed) := by
  have perm : ∀ i, i ∈ rest ++ [c] ↔ i ∈ s.waitQueue := by
    intro i
    rw [queue, mem_append, mem_singleton, mem_cons, or_comm]
  have cAlive : s.Alive c := ((parked.sound.queued c).mp (queue ▸ mem_cons_self)).2
  have alive : ∀ i, (s.dispatchedTo c rest resumed).Alive i ↔ s.Alive i := by
    intro i
    by_cases same : i = c
    · subst same
      exact ⟨fun _ => cAlive, fun _ => by simp [CoScheduler.Alive, dispatchedTo,
        change]⟩
    · simp [CoScheduler.Alive, dispatchedTo, change, same]
  refine ⟨⟨?_, ?_, parked.sound.count_le, ?_, not_returned quiet⟩, ?_, ?_, ?_⟩
  · intro i
    rw [alive]
    exact (perm i).trans (parked.sound.queued i)
  · have nodup := parked.sound.once
    rw [queue] at nodup
    exact nodup_append_comm.mp nodup
  · intro i bound
    have same := parked.sound.ids i bound
    simp only [dispatchedTo, change]
    split <;> exact same
  · intro lost
    cases lost
  · intro c' resumed' control
    cases control
    exact ⟨rfl, parked.context, mem_append_right _ mem_cons_self⟩
  · intro i member other
    have ne : i ≠ c := fun same => other resumed (by rw [same]; rfl)
    have saved := parked.saved i ((perm i).mp member)
    simpa only [dispatchedTo, change, if_neg ne] using saved

theorem Parked.finished (parked : Parked s) (empty : s.waitQueue = []) :
    CoInv { s with control := .main, context := false, returned := true } := by
  refine ⟨⟨parked.sound.queued, parked.sound.once, parked.sound.count_le, parked.sound.ids, ?_⟩,
    ?_, ?_, ?_⟩
  · intro _ i bound alive
    have member := (parked.sound.queued i).mpr ⟨bound, alive⟩
    rw [empty] at member
    cases member
  · intro lost
    cases lost
  · intro c resumed inside
    cases inside
  · intro i member _
    exact parked.saved i member

theorem Parked.schedule (parked : Parked s) (quiet : s.returned = false) {queue : List Nat}
    (members : s.waitQueue = queue ∨ ∃ gone, s.waitQueue = queue.erase gone) : CoInv (schedule s) ∧
      RotStep queue s.dispatched (schedule s).waitQueue (schedule s).dispatched := by
  cases order : s.waitQueue with
  | nil =>
    rw [schedule_nil order]
    refine ⟨parked.finished order, ?_⟩
    rw [show ({ s with control := .main, context := false, returned := true } :
      CoScheduler).waitQueue = [] from order]
    exact .clear
  | cons c rest =>
    have member := (parked.sound.queued c).mp (order ▸ mem_cons_self)
    obtain ⟨resumed, stepped⟩ := schedule_cons order member.2
      (parked.saved c (order ▸ mem_cons_self))
    rw [stepped]
    exact ⟨parked.dispatched order resumed quiet, .serve c rest s.waitQueue members order⟩

end Dispatch

/-! ## Creating -/

section Create
variable {s : CoScheduler}

def CoScheduler.freeIndex (s : CoScheduler) : Nat :=
  ((range s.coroutineCount).find? fun i => ¬ s.Alive i).getD s.coroutineCount

open CoScheduler

/-- It is an index of a dead coroutine, or the count if no coroutine is dead. -/
theorem freeIndex_cases (s : CoScheduler) : s.freeIndex < s.coroutineCount ∧ ¬ s.Alive s.freeIndex ∨
      s.freeIndex = s.coroutineCount ∧ ∀ i, i < s.coroutineCount → s.Alive i := by
  cases found : (range s.coroutineCount).find? fun i => ¬ s.Alive i with
  | none =>
    refine .inr ⟨by simp only [freeIndex, found, Option.getD_none], ?_⟩
    intro i bound
    have none := find?_eq_none.mp found i (mem_range.mpr bound)
    simpa using none
  | some i =>
    have same : s.freeIndex = i := by simp only [freeIndex, found, Option.getD_some]
    have dead := find?_some found
    rw [same]
    exact .inl ⟨mem_range.mp (mem_of_find?_eq_some found), by simpa using dead⟩

theorem freeIndex_not_queued (sound : CoSound s) : s.freeIndex ∉ s.waitQueue := by
  intro member
  obtain ⟨bound, alive⟩ := (sound.queued _).mp member
  rcases freeIndex_cases s with ⟨_, dead⟩ | ⟨same, _⟩
  · exact dead alive
  · rw [same] at bound
    exact Nat.lt_irrefl _ bound

theorem createCoroutine_alive (i : Nat) :
    (createCoroutine s).Alive i ↔ i = s.freeIndex ∨ s.Alive i := by
  by_cases same : i = s.freeIndex
  · refine ⟨fun _ => .inl same, fun _ => ?_⟩
    subst same
    simp [CoScheduler.Alive, createCoroutine, change, freeIndex]
  · have elsewhere : (createCoroutine s).coroutines i = s.coroutines i := if_neg same
    rw [CoScheduler.Alive, elsewhere]
    exact ⟨.inr, fun either => either.resolve_left same⟩

theorem createCoroutine_count :
    (createCoroutine s).coroutineCount = max s.coroutineCount (s.freeIndex + 1) := by
  have cases := freeIndex_cases s
  change (if s.freeIndex = s.coroutineCount then s.coroutineCount + 1 else s.coroutineCount) = _
  split <;> omega

theorem createCoroutine_count_le (sound : CoSound s)
    (bound : (createCoroutine s).nonDead ≤ maxCoroutine) :
    (createCoroutine s).coroutineCount ≤ maxCoroutine := by
  rcases freeIndex_cases s with ⟨inside, _⟩ | ⟨same, alive⟩
  · rw [createCoroutine_count, Nat.max_eq_left inside]
    exact sound.count_le
  have all : (createCoroutine s).nonDead = (createCoroutine s).coroutineCount := by
    rw [nonDead, filter_eq_self.mpr, length_range]
    intro i member
    have small := mem_range.mp member
    rw [createCoroutine_count, same, Nat.max_eq_right (Nat.le_succ _)] at small
    rw [decide_eq_true_iff, createCoroutine_alive, same]
    rcases Nat.lt_succ_iff_lt_or_eq.mp small with before | here
    · exact .inr (alive i before)
    · exact .inl here
  rw [← all]
  exact bound

theorem CoInv.createCoroutine (inv : CoInv s) (quiet : s.returned = false)
    (bound : (createCoroutine s).nonDead ≤ maxCoroutine) : CoInv (createCoroutine s) := by
  have fresh := freeIndex_not_queued inv.sound
  have cases := freeIndex_cases s
  have queue : (ChCore.createCoroutine s).waitQueue = s.waitQueue ++ [s.freeIndex] := rfl
  refine ⟨⟨?_, ?_, createCoroutine_count_le inv.sound bound, ?_, not_returned quiet⟩, inv.known,
    ?_, ?_⟩
  · intro i
    rw [queue, mem_append, mem_singleton, createCoroutine_count, createCoroutine_alive,
      inv.sound.queued]
    by_cases same : i = s.freeIndex
    · subst same
      have within : s.freeIndex < max s.coroutineCount (s.freeIndex + 1) := by omega
      simp [within]
    · have within : i < max s.coroutineCount (s.freeIndex + 1) ↔ i < s.coroutineCount := by omega
      simp [same, within]
  · rw [queue]
    exact nodup_append_comm.mp (nodup_cons.mpr ⟨fresh, inv.sound.once⟩)
  · intro i bounded
    by_cases same : i = s.freeIndex
    · subst same
      simp [ChCore.createCoroutine, change, freeIndex]
    · have elsewhere : (ChCore.createCoroutine s).coroutines i = s.coroutines i := if_neg same
      rw [createCoroutine_count] at bounded
      rw [elsewhere]
      exact inv.sound.ids i (by omega)
  · intro c resumed inside
    obtain ⟨running, context, member⟩ := inv.running c resumed inside
    exact ⟨running, context, mem_append_left _ member⟩
  · intro i member other
    rcases mem_append.mp member with before | new
    · have elsewhere : (ChCore.createCoroutine s).coroutines i = s.coroutines i :=
        if_neg fun same : i = s.freeIndex => fresh (same ▸ before)
      rw [elsewhere]
      exact inv.saved i before other
    · intro running
      rw [mem_singleton.mp new] at running
      simp [ChCore.createCoroutine, change] at running

end Create

/-! ## Runs -/

section Runs
variable {s : CoScheduler} (quiet : s.returned = false)
include quiet

variable (inv : CoInv s)
include inv

theorem CoInv.parked (main : s.control = .main) : Parked { s with context := true } := by
  refine ⟨⟨inv.sound.queued, inv.sound.once, inv.sound.count_le, inv.sound.ids,
    not_returned quiet⟩, rfl, fun i member => ?_⟩
  exact inv.saved i member fun resumed inside => by rw [main] at inside; cases inside

variable {resumed : Option Nat} {c : Nat}

theorem CoInv.yielded (inside : s.control = .inside c resumed) (point : Nat) :
    Parked (s.change c fun coroutine => { coroutine with context := some point }) := by
  have alive : ∀ i, (s.change c fun coroutine =>
      { coroutine with context := some point }).Alive i ↔ s.Alive i := by
    intro i
    by_cases same : i = c <;> simp [CoScheduler.Alive, change, same]
  refine ⟨⟨?_, inv.sound.once, inv.sound.count_le, ?_, not_returned quiet⟩,
    (inv.running c resumed inside).2.1, ?_⟩
  · intro i
    rw [alive]
    exact inv.sound.queued i
  · intro i bound
    have same := inv.sound.ids i bound
    simp only [change]
    split <;> exact same
  · intro i member
    by_cases same : i = c
    · subst same
      simp [change]
    · have saved := inv.saved i member fun resumed' inside' => by
        rw [inside] at inside'
        cases inside'
        exact same rfl
      simpa only [change, if_neg same] using saved

theorem CoInv.exited (inside : s.control = .inside c resumed) :
    Parked { s.change c fun coroutine => { coroutine with state := .dead } with
      waitQueue := s.waitQueue.erase c } := by
  have member : ∀ i, i ∈ s.waitQueue.erase c ↔ i ≠ c ∧ i ∈ s.waitQueue :=
    fun i => inv.sound.once.mem_erase_iff
  refine ⟨⟨?_, inv.sound.once.erase c, inv.sound.count_le, ?_, not_returned quiet⟩,
    (inv.running c resumed inside).2.1, ?_⟩
  · intro i
    change i ∈ s.waitQueue.erase c ↔ _
    rw [member, inv.sound.queued]
    by_cases same : i = c <;> simp [CoScheduler.Alive, change, same]
  · intro i bound
    have same := inv.sound.ids i bound
    simp only [change]
    split <;> exact same
  · intro i gone
    obtain ⟨ne, queued⟩ := (member i).mp gone
    have saved := inv.saved i queued fun resumed' inside' => by
      rw [inside] at inside'
      cases inside'
      exact ne rfl
    simpa only [change, if_neg ne] using saved

omit quiet in
omit inv in
theorem coStart_inv : CoInv coStart := by
  refine ⟨⟨?_, nodup_nil, Nat.zero_le _, ?_, ?_⟩, ?_, ?_, ?_⟩
  · intro i
    simp [coStart, createScheduler]
  · intro i bound
    exact absurd bound (Nat.not_lt_zero i)
  · intro returned
    cases returned
  · intro lost
    cases lost
  · intro c resumed inside
    cases inside
  · intro i member
    cases member

def Keeps (s t : CoScheduler) : Prop :=
  CoInv t ∧ RotStep s.waitQueue s.dispatched t.waitQueue t.dispatched

theorem CoInv.created (room : (ChCore.createCoroutine s).nonDead ≤ maxCoroutine) :
    Keeps s (ChCore.createCoroutine s) :=
  ⟨inv.createCoroutine quiet room, .join _ (freeIndex_not_queued inv.sound)⟩

variable {op : CoOp}

theorem CoInv.main_call (main : s.control = .main)
    (room : (coCall s .main op).nonDead ≤ maxCoroutine) : Keeps s (coCall s .main op) := by
  cases op with
  | createScheduler =>
    refine ⟨⟨⟨?_, nodup_nil, Nat.zero_le _, ?_, not_returned quiet⟩, inv.known, ?_, ?_⟩, .clear⟩
    · intro i
      simp [coCall, createScheduler]
    · intro i bound
      exact absurd bound (Nat.not_lt_zero i)
    · intro c resumed inside
      cases main.symm.trans inside
    · intro i member
      cases member
  | createCoroutine => exact inv.created quiet room
  | runScheduler => exact (inv.parked quiet main).schedule quiet (.inl rfl)
  | yieldCoroutine | exitCoroutine => exact ⟨inv, .same⟩

theorem CoInv.inside_call (inside : s.control = .inside c resumed)
    (room : (coCall s (.inside c resumed) op).nonDead ≤ maxCoroutine) :
    Keeps s (coCall s (.inside c resumed) op) := by
  obtain ⟨running, context, -⟩ := inv.running c resumed inside
  cases op with
  | createScheduler | runScheduler => exact ⟨inv, .same⟩
  | createCoroutine => exact inv.created quiet room
  | yieldCoroutine point =>
    have jump : yieldCoroutine s point = schedule (s.change c
        fun coroutine => { coroutine with context := some point }) := by
      simp only [yieldCoroutine, running, longjmpScheduler]
      exact if_pos context
    rw [coCall, jump]
    exact (inv.yielded quiet inside point).schedule quiet (.inl rfl)
  | exitCoroutine =>
    have jump : exitCoroutine s = schedule { s.change c
        fun coroutine => { coroutine with state := .dead } with
          waitQueue := s.waitQueue.erase c } := by
      simp only [exitCoroutine, running, longjmpScheduler]
      exact if_pos context
    rw [coCall, jump]
    exact (inv.exited quiet inside).schedule quiet (.inr ⟨c, rfl⟩)

theorem CoInv.call (op : CoOp) (room : (coCall s s.control op).nonDead ≤ maxCoroutine) :
    Keeps s (coCall s s.control op) := by
  cases control : s.control with
  | main =>
    rw [control] at room
    exact inv.main_call quiet control room
  | inside c resumed =>
    rw [control] at room
    exact inv.inside_call quiet control room
  | lost => exact absurd control inv.known

omit quiet

theorem coStep_keeps (room : (coStep s op).nonDead ≤ maxCoroutine) : Keeps s (coStep s op) := by
  have cleared : CoInv { s with returned := false } :=
    ⟨⟨inv.sound.queued, inv.sound.once, inv.sound.count_le, inv.sound.ids,
      fun returned => nomatch returned⟩, inv.known, inv.running, inv.saved⟩
  exact cleared.call rfl op room

/-- At most `MAX_COROUTINE` coroutines are not dead in every state that the run reaches. -/
def WithinTable (s : CoScheduler) (ops : List CoOp) : Prop :=
  RunMeets coStep (fun s op => (coStep s op).nonDead ≤ maxCoroutine) s ops

instance (s : CoScheduler) (ops : List CoOp) : Decidable (WithinTable s ops) :=
  inferInstanceAs (Decidable (RunMeets _ _ _ _))

/-- If the step `op` dispatches `c` and the steps `seg` end with its next dispatch, any other
coroutine that is queued all along is dispatched once in between. -/
def RoundRobin (s : CoScheduler) (op : CoOp) (seg : List CoOp) : Prop :=
  ∀ (c d : Nat) (between : List Nat), d ≠ c →
    (coStep s op).dispatched = s.dispatched ++ [c] →
    (∀ pre, pre <+: seg → c ∈ (pre.foldl coStep (coStep s op)).waitQueue ∧
      d ∈ (pre.foldl coStep (coStep s op)).waitQueue) →
    (seg.foldl coStep (coStep s op)).dispatched =
      (coStep s op).dispatched ++ between ++ [c] →
    c ∉ between → between.count d = 1

theorem CoInv.roundRobin (op : CoOp) (seg : List CoOp) (room : WithinTable s (op :: seg)) :
    RoundRobin s op seg := by
  intro c d between other first queued final notIn
  obtain ⟨next, turned⟩ := coStep_keeps inv room.1
  have rotates : Rotates coStep waitQueue dispatched (coStep s op) seg :=
    RunMeets.of_invariant (fun s a ok within => (coStep_keeps ok within).1)
      (fun s a ok within => (coStep_keeps ok within).2) next room.2
  rw [first] at turned
  exact rotates.served_once (append_nil _).symm
    (turned.between other (queued [] nil_prefix).2) next.sound.once queued final notIn

omit inv

/-- Every state reached is sound, and dispatching is round-robin. -/
theorem coroutines_round_robin (ops : List CoOp) (room : WithinTable coStart ops) :
    (∀ pre, pre <+: ops → CoSound (pre.foldl coStep coStart)) ∧
      ∀ pre op seg, pre ++ op :: seg <+: ops → RoundRobin (pre.foldl coStep coStart) op seg := by
  have keep : ∀ s a, CoInv s → (coStep s a).nonDead ≤ maxCoroutine → CoInv (coStep s a) :=
    fun s a ok within => (coStep_keeps ok within).1
  constructor
  · rintro pre ⟨rest, rfl⟩
    exact (run_invariant coStep _ CoInv keep pre coStart coStart_inv room.append.1).sound
  · rintro pre op seg ⟨rest, rfl⟩
    have within := room.append.1.append
    exact (run_invariant coStep _ CoInv keep pre coStart coStart_inv within.1).roundRobin op seg
      within.2

def threeCoroutines : List CoOp :=
  [.createCoroutine, .createCoroutine, .runScheduler, .createCoroutine, .yieldCoroutine 1,
    .yieldCoroutine 2, .yieldCoroutine 3]

theorem coroutines_round_robin_three :
    (threeCoroutines.foldl coStep coStart).dispatched = [0, 1, 0, 2] ∧
      CoSound (threeCoroutines.foldl coStep coStart) ∧
      RoundRobin ((threeCoroutines.take 2).foldl coStep coStart) .runScheduler
        (threeCoroutines.drop 3) :=
  ⟨by decide,
    (coroutines_round_robin threeCoroutines (by decide)).1 threeCoroutines (prefix_refl _),
    (coroutines_round_robin threeCoroutines (by decide)).2 (threeCoroutines.take 2) .runScheduler
      (threeCoroutines.drop 3) (prefix_refl _)⟩

end Runs

end KernelLabs.ChCore
