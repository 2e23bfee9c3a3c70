import KernelLabs.Lib.Weights
import KernelLabs.ChCore.Object.Recycle

/-!
# Exit of a process

Model of `sys_exit_group` in `kernel/object/recycle.c` and `sys_thread_exit` in
`kernel/object/thread.c`, for the threads of one cap group.  The compare-and-swap of
`notify_recycler` is one step, the notification another.  `__sync_val_compare_and_swap` returns the
value before the swap, and the call that swaps 0 to 1 gets 0: it does not notify, and every later
call does.  So `n` calls post `n - 1` messages.
-/

set_option autoImplicit false

namespace KernelLabs.ChCore

open Function List

/-- Where a thread is: in `sys_thread_exit`, before the compare-and-swap of `sys_exit_group`, after
it with the value it returned, or gone. -/
inductive ExitPc where
  | threadExit
  | exitGroup (exitcode : Int)
  | swapped (exitcode : Int) (old : Nat)
  | gone
  deriving DecidableEq, Repr

/-- A cap group with `m` threads on their way out, and the channel to the recycle thread; `calls`
are the exit codes of `sys_exit_group`, `notified` the messages posted. -/
structure ExitSys (m : Nat) where
  badge : Nat
  threadCnt : Int
  notifyRecycler : Nat
  pc : Fin m → ExitPc
  channel : RecycleBuffer
  calls : List Int
  notified : List RecycleMsg

section Exit
variable {m : Nat}

def ExitSys.goto (S : ExitSys m) (i : Fin m) (pc : ExitPc) : ExitSys m :=
  { S with pc := update S.pc i pc }

/-- `__sync_val_compare_and_swap(&notify_recycler, 0, 1)`: the value after it; the value before it
is what it returns. -/
def compareAndSwap (value : Nat) : Nat := if value = 0 then 1 else value

def ExitSys.swap (S : ExitSys m) (exitcode : Int) : ExitSys m :=
  { S with
    notifyRecycler := compareAndSwap S.notifyRecycler
    calls := S.calls ++ [exitcode] }

def ExitSys.notify (S : ExitSys m) (msg : RecycleMsg) : ExitSys m :=
  { S with
    channel := (notifyUserRecycler S.channel msg).1
    notified := S.notified ++ [msg] }

def exitStep (S : ExitSys m) (i : Fin m) : ExitSys m :=
  match S.pc i with
  | .threadExit =>
    let cnt := S.threadCnt - 1
    { S with threadCnt := cnt }.goto i (if cnt = 0 then .exitGroup 0 else .gone)
  | .exitGroup exitcode =>
    (S.swap exitcode).goto i (.swapped exitcode S.notifyRecycler)
  | .swapped exitcode old =>
    (if old = 1 then S.notify ⟨S.badge, exitcode⟩ else S).goto i .gone
  | .gone => S

structure ExitStart (S : ExitSys m) : Prop where
  notifyRecycler : S.notifyRecycler = 0
  pc : ∀ i, S.pc i = .threadExit ∨ ∃ exitcode, S.pc i = .exitGroup exitcode
  calls : S.calls = []
  notified : S.notified = []

def owed : ExitPc → Nat
  | .swapped _ old => if old = 1 then 1 else 0
  | _ => 0

def CodeIn (calls : List Int) (pc : ExitPc) : Prop :=
  ∀ exitcode old, pc = .swapped exitcode old → exitcode ∈ calls

/-- All calls but the first have posted a message or are bound to. -/
structure ExitInv (S : ExitSys m) : Prop where
  flag : S.notifyRecycler = 0 ∨ S.notifyRecycler = 1
  before : S.notifyRecycler = 0 → S.calls = [] ∧ S.notified = [] ∧ ∑ i, owed (S.pc i) = 0
  after : S.notifyRecycler = 1 →
    S.notified.length + ∑ i, owed (S.pc i) + 1 = S.calls.length
  codes : ∀ i, CodeIn S.calls (S.pc i)
  messages : ∀ msg ∈ S.notified, msg.badge = S.badge ∧ msg.exitcode ∈ S.calls

theorem sum_owed_update (pc : Fin m → ExitPc) (i : Fin m) (next : ExitPc) :
    ∑ j, owed (update pc i next j) + owed (pc i) = ∑ j, owed (pc j) + owed next :=
  Lib.total_update owed pc i next

variable {S : ExitSys m} {i : Fin m}

theorem ExitStart.inv (start : ExitStart S) : ExitInv S := by
  refine ⟨.inl start.notifyRecycler, fun _ => ⟨start.calls, start.notified, ?_⟩, ?_, ?_, ?_⟩
  · apply Finset.sum_eq_zero
    intro i _
    rcases start.pc i with place | ⟨exitcode, place⟩
    · rw [place]
      rfl
    · rw [place]
      rfl
  · intro set
    rw [start.notifyRecycler] at set
    cases set
  · intro i exitcode old place
    rcases start.pc i with place' | ⟨exitcode', place'⟩
    · rw [place'] at place
      cases place
    · rw [place'] at place
      cases place
  · intro msg member
    rw [start.notified] at member
    cases member

theorem CodeIn.move {calls : List Int} {pc : Fin m → ExitPc} {next : ExitPc}
    (codes : ∀ j, CodeIn calls (pc j)) (known : CodeIn calls next) (j : Fin m) :
    CodeIn calls (update pc i next j) :=
  (forall_update_iff pc fun _ => CodeIn calls).mpr ⟨known, fun k _ => codes k⟩ j

theorem codeIn_exitGroup (calls : List Int) (exitcode : Int) :
    CodeIn calls (.exitGroup exitcode) := by
  intro code old here
  cases here

theorem codeIn_gone (calls : List Int) : CodeIn calls .gone := by
  intro code old here
  cases here

theorem CodeIn.append {calls : List Int} {pc : ExitPc} (known : CodeIn calls pc) (exitcode : Int) :
    CodeIn (calls ++ [exitcode]) pc := by
  intro code old place
  exact mem_append_left _ (known code old place)

section
variable (inv : ExitInv S)
include inv

theorem ExitInv.goto (next : ExitPc) (same : owed next = owed (S.pc i))
    (known : CodeIn S.calls next) : ExitInv (S.goto i next) := by
  have total : ∑ j, owed ((S.goto i next).pc j) = ∑ j, owed (S.pc j) := by
    have moved := sum_owed_update S.pc i next
    rw [same] at moved
    exact Nat.add_right_cancel moved
  refine ⟨inv.flag, ?_, ?_, CodeIn.move inv.codes known, inv.messages⟩
  · intro unset
    rw [total]
    exact inv.before unset
  · intro set
    rw [total]
    exact inv.after set

theorem ExitInv.swapped : compareAndSwap S.notifyRecycler = 1 := by
  rcases inv.flag with unset | set
  · rw [unset]
    rfl
  · rw [set]
    rfl

/-- The first compare-and-swap gets 0 and owes nothing, a later one gets 1. -/
theorem ExitInv.swap (exitcode : Int) (place : S.pc i = .exitGroup exitcode) :
    ExitInv ((S.swap exitcode).goto i (.swapped exitcode S.notifyRecycler)) := by
  have total : ∑ j, owed (update S.pc i (.swapped exitcode S.notifyRecycler) j) =
      ∑ j, owed (S.pc j) + if S.notifyRecycler = 1 then 1 else 0 := by
    have moved := sum_owed_update S.pc i (.swapped exitcode S.notifyRecycler)
    rw [place] at moved
    exact moved
  refine ⟨.inr inv.swapped, ?_, ?_, ?_, ?_⟩
  · intro unset
    exact absurd (inv.swapped.symm.trans unset) Nat.one_ne_zero
  · intro _
    simp only [ExitSys.goto, ExitSys.swap, length_append, length_singleton, total]
    rcases inv.flag with unset | set
    · obtain ⟨noCalls, noMessages, nothing⟩ := inv.before unset
      rw [noCalls, noMessages, nothing, unset]
      rfl
    · have balance := inv.after set
      rw [if_pos set]
      omega
  · apply CodeIn.move
    · intro j
      exact (inv.codes j).append exitcode
    · intro code old here
      cases here
      exact mem_append_right _ (mem_singleton_self _)
  · intro msg posted
    obtain ⟨badge, code⟩ := inv.messages msg posted
    exact ⟨badge, mem_append_left _ code⟩

theorem ExitInv.notify (exitcode : Int) (place : S.pc i = .swapped exitcode 1) :
    ExitInv ((S.notify ⟨S.badge, exitcode⟩).goto i .gone) := by
  have total : ∑ j, owed (update S.pc i .gone j) + 1 = ∑ j, owed (S.pc j) := by
    have moved := sum_owed_update S.pc i .gone
    rw [place] at moved
    exact moved
  have set : S.notifyRecycler = 1 := by
    rcases inv.flag with unset | set
    · obtain ⟨_, _, nothing⟩ := inv.before unset
      omega
    · exact set
  refine ⟨.inr set, ?_, ?_, ?_, ?_⟩
  · intro unset
    exact absurd (set.symm.trans unset) Nat.one_ne_zero
  · intro _
    have balance := inv.after set
    simp only [ExitSys.goto, ExitSys.notify, length_append, length_singleton]
    omega
  · exact CodeIn.move inv.codes (codeIn_gone _)
  · intro msg posted
    rcases mem_append.mp posted with earlier | now
    · exact inv.messages msg earlier
    · rw [mem_singleton.mp now]
      exact ⟨rfl, inv.codes i exitcode 1 place⟩

theorem ExitInv.step (i : Fin m) : ExitInv (exitStep S i) := by
  unfold exitStep
  split
  case h_1 place =>
    have counted : ExitInv { S with threadCnt := S.threadCnt - 1 } :=
      ⟨inv.flag, inv.before, inv.after, inv.codes, inv.messages⟩
    dsimp only
    split
    · refine counted.goto _ ?_ (codeIn_exitGroup _ 0)
      dsimp only
      rw [place]
      rfl
    · refine counted.goto _ ?_ (codeIn_gone _)
      dsimp only
      rw [place]
      rfl
  case h_2 exitcode place => exact inv.swap exitcode place
  case h_3 exitcode old place =>
    by_cases returned : old = 1
    · subst returned
      exact inv.notify exitcode place
    · rw [if_neg returned]
      refine inv.goto .gone ?_ (codeIn_gone _)
      rw [place, owed, if_neg returned]
      rfl
  case h_4 => exact inv

end

theorem ExitInv.run (threads : List (Fin m)) (start : ExitInv S) :
    ExitInv (threads.foldl exitStep S) := by
  induction threads generalizing S with
  | nil => exact start
  | cons i rest ih => exact ih (start.step i)

/-- When every thread is gone, all calls but one have posted a message. -/
theorem ExitInv.count (inv : ExitInv S) (allGone : ∀ i, S.pc i = .gone) (called : S.calls ≠ []) :
    S.notified.length + 1 = S.calls.length := by
  have nothing : ∑ i, owed (S.pc i) = 0 := by
    apply Finset.sum_eq_zero
    intro i _
    rw [allGone i]
    rfl
  rcases inv.flag with unset | set
  · exact absurd (inv.before unset).1 called
  · have balance := inv.after set
    omega

def NotifiedOnce (S : ExitSys m) : Prop :=
  ∃ exitcode ∈ S.calls, S.notified = [⟨S.badge, exitcode⟩]

/-- In every complete interleaving of the exits of a process with `n` calls of `sys_exit_group`, the
recycle thread is notified exactly once if and only if `n` is two. -/
theorem exit_notified_once (S : ExitSys m) (start : ExitStart S) (threads : List (Fin m))
    (allGone : ∀ i, (threads.foldl exitStep S).pc i = .gone) (n : Nat)
    (made : (threads.foldl exitStep S).calls.length = n) (called : 1 ≤ n) :
    NotifiedOnce (threads.foldl exitStep S) ↔ n = 2 := by
  subst made
  have inv := start.inv.run threads
  have count := inv.count allGone (ne_nil_of_length_pos called)
  constructor
  · intro once
    obtain ⟨exitcode, _, only⟩ := once
    rw [only, length_singleton] at count
    exact count.symm
  intro two
  have one : (threads.foldl exitStep S).notified.length = 1 := by omega
  obtain ⟨msg, only⟩ := length_eq_one_iff.mp one
  obtain ⟨badge, code⟩ := inv.messages msg (only ▸ mem_singleton_self msg)
  refine ⟨msg.exitcode, code, ?_⟩
  rw [only, ← badge]

end Exit

def exampleExit : ExitSys 2 where
  badge := 7
  threadCnt := 1
  notifyRecycler := 0
  pc := fun i => if i.val = 0 then .exitGroup 3 else .threadExit
  channel := ⟨startOffset, startOffset, fun _ => ⟨0, 0⟩, []⟩
  calls := []
  notified := []

def firstExit : Fin 2 := ⟨0, Nat.two_pos⟩

def secondExit : Fin 2 := ⟨1, Nat.one_lt_two⟩

theorem exampleExit_start : ExitStart exampleExit := by
  refine ⟨rfl, ?_, rfl, rfl⟩
  intro i
  by_cases first : i.val = 0
  · exact .inr ⟨3, if_pos first⟩
  · exact .inl (if_neg first)

/-- The two threads exit, the second while the first is between its swap and its test. -/
theorem exit_notified_once_two_calls :
    NotifiedOnce ([firstExit, secondExit, secondExit, firstExit, secondExit].foldl exitStep
      exampleExit) :=
  (exit_notified_once exampleExit exampleExit_start
    [firstExit, secondExit, secondExit, firstExit, secondExit] (by decide) 2 (by decide)
    (Nat.le_succ 1)).mpr rfl

def exampleSingleExit : ExitSys 1 where
  badge := 7
  threadCnt := 1
  notifyRecycler := 0
  pc := fun _ => .exitGroup 3
  channel := ⟨startOffset, startOffset, fun _ => ⟨0, 0⟩, []⟩
  calls := []
  notified := []

def onlyExit : Fin 1 := ⟨0, Nat.one_pos⟩

/-- A process that exits once is never reported to the recycle thread. -/
theorem single_exit_not_notified : ExitStart exampleSingleExit ∧
      (∀ i, ([onlyExit, onlyExit].foldl exitStep exampleSingleExit).pc i = .gone) ∧
      ([onlyExit, onlyExit].foldl exitStep exampleSingleExit).calls = [3] ∧
      ([onlyExit, onlyExit].foldl exitStep exampleSingleExit).notified = [] ∧
      ¬ NotifiedOnce ([onlyExit, onlyExit].foldl exitStep exampleSingleExit) := by
  have silent : ([onlyExit, onlyExit].foldl exitStep exampleSingleExit).notified = [] := by decide
  refine ⟨⟨rfl, fun _ => .inr ⟨3, rfl⟩, rfl, rfl⟩, by decide, by decide, silent, ?_⟩
  intro once
  obtain ⟨exitcode, _, only⟩ := once
  rw [silent] at only
  cases only

end KernelLabs.ChCore
