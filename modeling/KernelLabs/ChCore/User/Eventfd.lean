import KernelLabs.Lib.Runs
import KernelLabs.Lib.Weights

/-!
# Event counters

Model of `chcore_eventfd_read` and `chcore_eventfd_write` of `chcore-port/eventfd.c` for any number
of threads.  A section under `efd_lock` is one step.  `sys_wait` and `sys_notify` are a counting
semaphore: `readerPending` and `writerPending` are the notifications that no waiting thread has
received yet.  A `BUG_ON` that fires is `none`, and so is a step of a thread that is not at it.

The waiter counts are taken down by the thread that notifies, so they count the waiting threads for
which no notification is on its way.
-/

set_option autoImplicit false

namespace KernelLabs.ChCore

open Lib Function

structure EfdFlags where
  semaphore : Bool
  nonblock : Bool
  deriving DecidableEq, Repr

/-- Where a thread is: outside, before the lock (`notified` after a wait), or in `sys_wait`. -/
inductive EfdPc where
  | idle
  | reading (notified : Bool)
  | readWait
  | writing (buf : UInt64) (notified : Bool)
  | writeWait (buf : UInt64)
  deriving DecidableEq, Repr

/-- `written` and `returned` are the sums over the completed writes and reads. -/
structure Efd (T : Type) where
  efdVal : Nat
  readerWaiterCnt : Nat
  writerWaiterCnt : Nat
  readerPending : Nat
  writerPending : Nat
  pc : T → EfdPc
  written : Nat
  returned : Nat

section Model
variable {T : Type} [DecidableEq T]

def Efd.goto (S : Efd T) (t : T) (pc : EfdPc) : Efd T := { S with pc := update S.pc t pc }

def Efd.notifyWriters (S : Efd T) (n : Nat) : Efd T :=
  { S with writerPending := S.writerPending + n, writerWaiterCnt := S.writerWaiterCnt - n }

def Efd.notifyReaders (S : Efd T) (n : Nat) : Efd T :=
  { S with readerPending := S.readerPending + n, readerWaiterCnt := S.readerWaiterCnt - n }

def Efd.take (S : Efd T) (val : Nat) : Efd T :=
  { S with efdVal := S.efdVal - val, returned := S.returned + val }

def Efd.put (S : Efd T) (val : Nat) : Efd T :=
  { S with efdVal := (S.efdVal + val) % 2 ^ 64, written := S.written + val }

def eventfdRead (flags : EfdFlags) (S : Efd T) (t : T) : Option (Efd T) :=
  if S.efdVal ≠ 0 then
    if flags.semaphore then
      some (((S.take 1).notifyWriters (if S.writerWaiterCnt ≠ 0 then 1 else 0)).goto t .idle)
    else
      -- at most `val` writers, for a counter that is set to 0
      some (((S.take S.efdVal).notifyWriters (min S.writerWaiterCnt S.efdVal)).goto t .idle)
  else if flags.nonblock then some (S.goto t .idle)
  else if S.readerWaiterCnt = 2 ^ 64 - 1 then none
  else some ({ S with readerWaiterCnt := S.readerWaiterCnt + 1 }.goto t .readWait)

def readersToWake (flags : EfdFlags) (readerWaiterCnt efdVal : Nat) : Nat :=
  if readerWaiterCnt ≠ 0 then
    if flags.semaphore then min readerWaiterCnt efdVal else 1
  else 0

def eventfdWrite (flags : EfdFlags) (S : Efd T) (t : T) (buf : UInt64) : Option (Efd T) :=
  if buf.toNat < 2 ^ 64 - 1 - S.efdVal then
    some (((S.put buf.toNat).notifyReaders
      (readersToWake flags S.readerWaiterCnt (S.put buf.toNat).efdVal)).goto t .idle)
  else if flags.nonblock then some (S.goto t .idle)
  else if S.writerWaiterCnt = 2 ^ 64 - 1 then none
  else some ({ S with writerWaiterCnt := S.writerWaiterCnt + 1 }.goto t (.writeWait buf))

inductive EfdAction (T : Type) where
  | read (t : T) (count : Nat)
  | write (t : T) (count : Nat) (buf : UInt64)
  | lock (t : T)
  | wake (t : T)

def efdStep (flags : EfdFlags) (S : Efd T) : EfdAction T → Option (Efd T)
  | .read t count =>
    if S.pc t = .idle then some (if count < 8 then S else S.goto t (.reading false)) else none
  | .write t count buf =>
    if S.pc t = .idle then
      some (if count < 8 ∨ buf.toNat = 2 ^ 64 - 1 then S else S.goto t (.writing buf false))
    else none
  | .lock t =>
    match S.pc t with
    | .reading _ => eventfdRead flags S t
    | .writing buf _ => eventfdWrite flags S t buf
    | _ => none
  | .wake t =>
    match S.pc t with
    | .readWait =>
      if S.readerPending = 0 then none
      else some ({ S with readerPending := S.readerPending - 1 }.goto t (.reading true))
    | .writeWait buf =>
      if S.writerPending = 0 then none
      else some ({ S with writerPending := S.writerPending - 1 }.goto t (.writing buf true))
    | _ => none

end Model

def startEfd (T : Type) (count : UInt32) : Efd T :=
  { efdVal := count.toNat, readerWaiterCnt := 0, writerWaiterCnt := 0, readerPending := 0,
    writerPending := 0, pc := fun _ => .idle, written := 0, returned := 0 }

/-- The counter is what was written and not returned; while it is positive no reader sleeps unless a
notification is on its way or a reader about to look. -/
structure EfdExact {T : Type} (count : UInt32) (S : Efd T) : Prop where
  value : (S.efdVal : Int) = count.toNat + S.written - S.returned
  bound : S.efdVal ≤ 2 ^ 64 - 2
  awake : 0 < S.efdVal → (∃ t, S.pc t = .readWait) →
    0 < S.readerPending ∨ ∃ t, S.pc t = .reading true

/-! ## The invariant -/

def readWaits : EfdPc → Nat
  | .readWait => 1
  | _ => 0

def readNotified : EfdPc → Nat
  | .reading true => 1
  | _ => 0

/-- The notifications that have to be on their way for the value. -/
def notificationsDue (flags : EfdFlags) (efdVal : Nat) : Nat :=
  if flags.semaphore then efdVal else min efdVal 1

structure EfdInv {T : Type} [Fintype T] (flags : EfdFlags) (count : UInt32) (S : Efd T) :
    Prop where
  value : S.efdVal + S.returned = count.toNat + S.written
  bound : S.efdVal ≤ 2 ^ 64 - 2
  waiting : S.readerWaiterCnt + S.readerPending = total readWaits S.pc
  due : 0 < S.readerWaiterCnt →
    notificationsDue flags S.efdVal ≤ S.readerPending + total readNotified S.pc

section Invariant
variable {T : Type} [Fintype T] [DecidableEq T] {flags : EfdFlags} {count : UInt32} {S S' : Efd T}
  {t : T}

/-- A write wakes as many as are due, as far as there are waiting readers. -/
theorem readersToWake_enough (flags : EfdFlags) (cnt efdVal : Nat) :
    readersToWake flags cnt efdVal ≤ cnt ∧
      (readersToWake flags cnt efdVal < cnt →
        notificationsDue flags efdVal ≤ readersToWake flags cnt efdVal) := by
  simp only [readersToWake, notificationsDue]
  split
  · split
    · omega
    · omega
  · omega

variable (inv : EfdInv flags count S)
include inv

theorem EfdInv.exact : EfdExact count S := by
  refine ⟨?_, inv.bound, ?_⟩
  · have value := inv.value
    omega
  intro positive sleeps
  obtain ⟨t, place⟩ := sleeps
  have sleeper : 1 ≤ total readWaits S.pc := by
    have weight := le_total readWaits S.pc t
    rw [place] at weight
    exact weight
  have waiting := inv.waiting
  by_cases uncovered : 0 < S.readerWaiterCnt
  · have due := inv.due uncovered
    have some : 0 < S.readerPending + total readNotified S.pc := by
      simp only [notificationsDue] at due
      split at due <;> omega
    by_cases pending : 0 < S.readerPending
    · exact Or.inl pending
    obtain ⟨u, notified⟩ := exists_of_total_pos (show 0 < total readNotified S.pc by omega)
    refine Or.inr ⟨u, ?_⟩
    unfold readNotified at notified
    split at notified
    · assumption
    · omega
  · exact Or.inl (by omega)

variable {notified : Bool} {next : EfdPc} {buf : UInt64}

theorem EfdInv.goto (waits : readWaits next = readWaits (S.pc t))
    (notified : readNotified next = readNotified (S.pc t)) :
    EfdInv flags count (S.goto t next) := by
  have waitsTotal := total_update readWaits S.pc t next
  have notifiedTotal := total_update readNotified S.pc t next
  refine ⟨inv.value, inv.bound, ?_, ?_⟩
  · have waiting := inv.waiting
    simp only [Efd.goto]
    omega
  · intro uncovered
    have due := inv.due uncovered
    simp only [Efd.goto]
    omega

omit inv in
theorem notificationsDue_take {flags : EfdFlags} {efdVal val : Nat} (some : 0 < val)
    (all : flags.semaphore = false → val = efdVal) :
    notificationsDue flags (efdVal - val) ≤ notificationsDue flags efdVal - 1 := by
  simp only [notificationsDue]
  split
  · omega
  · rename_i counter
    have whole := all (Bool.not_eq_true _ |>.mp counter)
    omega

omit inv in
theorem readNotified_le (pc : EfdPc) : readNotified pc ≤ 1 := by
  unfold readNotified
  split <;> omega

section
variable (place : S.pc t = .reading notified)
include place

theorem EfdInv.taken {val n : Nat} (some : 0 < val) (enough : val ≤ S.efdVal)
    (all : flags.semaphore = false → val = S.efdVal) :
    EfdInv flags count (((S.take val).notifyWriters n).goto t .idle) := by
  have waitsTotal := total_update readWaits S.pc t .idle
  have notifiedTotal := total_update readNotified S.pc t .idle
  have leaves := readNotified_le (S.pc t)
  have smaller := notificationsDue_take some all
  have idleWaits : readWaits .idle = readWaits (S.pc t) := by rw [place]; rfl
  have idleNotified : readNotified .idle = 0 := rfl
  obtain ⟨value, bound, waiting, due⟩ := inv
  refine ⟨?_, ?_, ?_, ?_⟩
  · simp only [Efd.goto, Efd.notifyWriters, Efd.take]
    omega
  · simp only [Efd.goto, Efd.notifyWriters, Efd.take]
    omega
  · simp only [Efd.goto, Efd.notifyWriters, Efd.take]
    omega
  · intro uncovered
    have due := due uncovered
    simp only [Efd.goto, Efd.notifyWriters, Efd.take]
    omega

theorem EfdInv.looked (zero : S.efdVal = 0) {cnt : Nat}
    (waits : cnt = S.readerWaiterCnt + readWaits next) :
    EfdInv flags count ({ S with readerWaiterCnt := cnt }.goto t next) := by
  have waitsTotal := total_update readWaits S.pc t next
  have noWait : readWaits (S.pc t) = 0 := by rw [place]; rfl
  obtain ⟨value, bound, waiting, due⟩ := inv
  refine ⟨value, bound, ?_, ?_⟩
  · simp only [Efd.goto]
    omega
  intro _
  have nothing : notificationsDue flags S.efdVal = 0 := by
    simp only [notificationsDue, zero]
    split <;> rfl
  simp only [Efd.goto, nothing]
  omega

theorem EfdInv.read (run : eventfdRead flags S t = some S') : EfdInv flags count S' := by
  rw [eventfdRead] at run
  split at run
  · rename_i positive
    have some : 0 < S.efdVal := Nat.pos_of_ne_zero positive
    split at run
    · rename_i semaphore
      cases run
      exact inv.taken place Nat.one_pos some fun counter => by
        rw [semaphore] at counter
        cases counter
    · cases run
      exact inv.taken place some (le_refl _) fun _ => rfl
  · rename_i zero
    rw [not_not] at zero
    split at run
    · cases run
      exact inv.looked place zero rfl
    · split at run
      · cases run
      · cases run
        exact inv.looked place zero rfl

end

theorem EfdInv.put (place : S.pc t = .writing buf notified)
    (room : buf.toNat < 2 ^ 64 - 1 - S.efdVal) :
    EfdInv flags count (((S.put buf.toNat).notifyReaders
      (readersToWake flags S.readerWaiterCnt (S.put buf.toNat).efdVal)).goto t .idle) := by
  have waitsTotal := total_update readWaits S.pc t .idle
  have notifiedTotal := total_update readNotified S.pc t .idle
  have idleWaits : readWaits .idle = readWaits (S.pc t) := by rw [place]; rfl
  have idleNotified : readNotified .idle = readNotified (S.pc t) := by rw [place]; rfl
  have sum : (S.put buf.toNat).efdVal = S.efdVal + buf.toNat := Nat.mod_eq_of_lt (by omega)
  obtain ⟨fewer, enough⟩ := readersToWake_enough flags S.readerWaiterCnt (S.put buf.toNat).efdVal
  obtain ⟨value, bound, waiting, due⟩ := inv
  generalize readersToWake flags S.readerWaiterCnt (S.put buf.toNat).efdVal = wake at fewer enough
  refine ⟨?_, ?_, ?_, ?_⟩
  · change (S.put buf.toNat).efdVal + S.returned = count.toNat + (S.written + buf.toNat)
    omega
  · change (S.put buf.toNat).efdVal ≤ 2 ^ 64 - 2
    omega
  · simp only [Efd.goto, Efd.notifyReaders, Efd.put]
    omega
  · intro uncovered
    change 0 < S.readerWaiterCnt - wake at uncovered
    have dueNow := enough (by omega)
    change notificationsDue flags (S.put buf.toNat).efdVal ≤ S.readerPending + wake +
      total readNotified (update S.pc t .idle)
    omega

theorem EfdInv.write (place : S.pc t = .writing buf notified)
    (run : eventfdWrite flags S t buf = some S') : EfdInv flags count S' := by
  have leaves : readWaits (S.pc t) = 0 ∧ readNotified (S.pc t) = 0 := by
    rw [place]
    exact ⟨rfl, rfl⟩
  rw [eventfdWrite] at run
  split at run
  · rename_i room
    cases run
    exact inv.put place room
  split at run
  · cases run
    exact inv.goto leaves.1.symm leaves.2.symm
  split at run
  · cases run
  · cases run
    have counted : EfdInv flags count { S with writerWaiterCnt := S.writerWaiterCnt + 1 } :=
      ⟨inv.value, inv.bound, inv.waiting, inv.due⟩
    exact counted.goto leaves.1.symm leaves.2.symm

/-- A waiting reader receives a notification: it is no longer on its way, but the reader is about
to look. -/
theorem EfdInv.woken (place : S.pc t = .readWait) (pending : S.readerPending ≠ 0) :
    EfdInv flags count
      ({ S with readerPending := S.readerPending - 1 }.goto t (.reading true)) := by
  have waitsTotal := total_update readWaits S.pc t (.reading true)
  have notifiedTotal := total_update readNotified S.pc t (.reading true)
  rw [place] at waitsTotal notifiedTotal
  simp only [readWaits, readNotified] at waitsTotal notifiedTotal
  obtain ⟨value, bound, waiting, due⟩ := inv
  refine ⟨value, bound, ?_, ?_⟩
  · simp only [Efd.goto]
    omega
  · intro uncovered
    have due := due uncovered
    simp only [Efd.goto]
    omega

omit inv

theorem efdStep_keep (S : Efd T) (a : EfdAction T) (S' : Efd T) (inv : EfdInv flags count S)
    (run : efdStep flags S a = some S') : EfdInv flags count S' := by
  cases a with
  | read | write =>
    rw [efdStep] at run
    split at run
    · rename_i place
      cases run
      split
      · exact inv
      · exact inv.goto (by rw [place]; rfl) (by rw [place]; rfl)
    · cases run
  | lock t =>
    rw [efdStep] at run
    split at run
    · rename_i place
      exact inv.read place run
    · rename_i place
      exact inv.write place run
    · cases run
  | wake t =>
    rw [efdStep] at run
    split at run
    · rename_i place
      split at run
      · cases run
      · rename_i pending
        cases run
        exact inv.woken place pending
    · rename_i buf place
      split at run
      · cases run
      · cases run
        have fewer : EfdInv flags count { S with writerPending := S.writerPending - 1 } :=
          ⟨inv.value, inv.bound, inv.waiting, inv.due⟩
        exact fewer.goto (by rw [place]; rfl) (by rw [place]; rfl)
    · cases run

end Invariant

theorem startEfd_inv {T : Type} [Fintype T] (flags : EfdFlags) (count : UInt32) :
    EfdInv flags count (startEfd T count) := by
  refine ⟨rfl, ?_, ?_, ?_⟩
  · have small := count.toNat_lt
    simp only [startEfd]
    omega
  · exact (total_eq_zero fun _ => rfl).symm
  · intro never
    cases never

/-- In every interleaving the counter is exact and no reader sleeps through a positive counter. -/
theorem eventfd_exact (T : Type) [Fintype T] [DecidableEq T] (flags : EfdFlags) (count : UInt32)
    (actions : List (EfdAction T)) (S : Efd T)
    (run : actions.foldlM (efdStep flags) (startEfd T count) = some S) : EfdExact count S :=
  (reached_invariant (efdStep flags) (EfdInv flags count) efdStep_keep actions (startEfd T count) S
    (startEfd_inv flags count) run).exact

/-- A reader waits, a write of 3 notifies it, and the notification is still on its way. -/
theorem eventfd_exact_reader_waits :
    ∃ S, [EfdAction.read true 8, .lock true, .write false 8 3, .lock false].foldlM
      (efdStep ⟨true, false⟩) (startEfd Bool 0) = some S ∧
      (S.efdVal = 3 ∧ S.pc true = .readWait) ∧ EfdExact 0 S := by
  have comes : ([EfdAction.read true 8, .lock true, .write false 8 3, .lock false].foldlM
      (efdStep ⟨true, false⟩) (startEfd Bool 0)).map (fun S => (S.efdVal, S.pc true)) =
      some (3, .readWait) := by decide +kernel
  obtain ⟨S, run, values⟩ := Option.map_eq_some_iff.mp comes
  exact ⟨S, run, Prod.mk.inj values, eventfd_exact Bool ⟨true, false⟩ 0 _ S run⟩

end KernelLabs.ChCore
