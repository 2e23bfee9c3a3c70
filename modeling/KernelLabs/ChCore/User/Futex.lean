import KernelLabs.Lib.Runs
import KernelLabs.Lib.Weights

/-!
# Futexes

Model of `chcore_futex_wait`, `chcore_futex_wake` and `chcore_futex_requeue` of
`chcore-port/futex.c` for any number of threads.  A section under `futex_lock` is one step.
`sys_wait` and `sys_notify` are a counting semaphore for each notification: `pending` counts the
notifications that no waiting thread has received yet, and a wait can time out while fewer are
pending than threads wait.  A call that stops in `BUG` leaves the state as it is.  Allocations
succeed, and `chcore_futex_requeue` is called as its two `BUG_ON` demand, to requeue one waiter.

`waiters` says for whom the threads wait: it has one pair of notification and address for each
thread that is in `sys_wait` and has no notification on its way.  The threads that wait on one
notification are interchangeable for the code, so the pair that leaves is one for the address that
is woken if there is one.
-/

set_option autoImplicit false

namespace KernelLabs.ChCore

open Lib Function List

def maxFutexEntries : Nat := 256

/-- `struct futex_entry`; the cache entry is named by its notification. -/
structure FutexEntry where
  notificCap : Nat
  uaddr : Nat
  waiterCount : Int
  requeuedFutexList : List Nat

/-- Where a thread is: outside, in `sys_wait`, or back from it and before the lock. -/
inductive FutexPc where
  | idle
  | waiting (idx : Int) (notifcCap : Nat)
  | resumed (idx : Int)

/-- An index outside `[0, 256)` is memory outside the table.  `created` is the number of
notifications made, `exact` says that every wake so far was right. -/
structure Futex (T : Type) where
  futexEntries : Int → FutexEntry
  notifcCache : List Nat
  created : Nat
  pending : Nat → Nat
  pc : T → FutexPc
  waiters : List (Nat × Nat)
  exact : Prop

def FutexEntry.HasWaiter (entry : FutexEntry) : Prop :=
  0 < entry.waiterCount ∨ entry.requeuedFutexList ≠ []

instance (entry : FutexEntry) : Decidable entry.HasWaiter :=
  inferInstanceAs (Decidable (_ ∨ _))

def FutexEntry.Serves (entry : FutexEntry) (uaddr : Nat) : Prop :=
  entry.HasWaiter ∧ entry.uaddr = uaddr

instance (entry : FutexEntry) (uaddr : Nat) : Decidable (entry.Serves uaddr) :=
  inferInstanceAs (Decidable (_ ∧ _))

/-! ## What threads wait for -/

def waitersAt (waiters : List (Nat × Nat)) (uaddr : Nat) : Nat :=
  waiters.countP fun w => w.2 = uaddr

def waitersOn (waiters : List (Nat × Nat)) (cap : Nat) : Nat :=
  waiters.countP fun w => w.1 = cap

def dropWaiter (waiters : List (Nat × Nat)) (cap uaddr : Nat) : List (Nat × Nat) :=
  if (cap, uaddr) ∈ waiters then waiters.erase (cap, uaddr)
  else
    match waiters.find? fun w => w.1 = cap with
    | some w => waiters.erase w
    | none => waiters

def moveWaiter (waiters : List (Nat × Nat)) (cap uaddr uaddr2 : Nat) : List (Nat × Nat) :=
  if (cap, uaddr) ∈ waiters then waiters.erase (cap, uaddr) ++ [(cap, uaddr2)] else waiters

def usesEntry (idx : Int) : FutexPc → Nat
  | .idle => 0
  | .waiting idx' _ => if idx' = idx then 1 else 0
  | .resumed idx' => if idx' = idx then 1 else 0

def waitsOnCap (cap : Nat) : FutexPc → Nat
  | .waiting _ cap' => if cap' = cap then 1 else 0
  | _ => 0

section Calls
variable {T : Type} [Fintype T] [DecidableEq T]

def Futex.setEntry (s : Futex T) (idx : Int) (entry : FutexEntry) : Futex T :=
  { s with futexEntries := update s.futexEntries idx entry }

def Futex.goto (s : Futex T) (t : T) (pc : FutexPc) : Futex T :=
  { s with pc := update s.pc t pc }

def futexAllocNotifc (s : Futex T) : Nat × Futex T :=
  match s.notifcCache with
  | cap :: rest => (cap, { s with notifcCache := rest })
  | [] => (s.created, { s with created := s.created + 1 })

def Futex.takeEntry (s : Futex T) (idx : Int) (uaddr : Nat) : Futex T :=
  (futexAllocNotifc s).2.setEntry idx ⟨(futexAllocNotifc s).1, uaddr, 0, []⟩

/-- The loop of `chcore_futex_wait`: `idx` and `empty_idx`. -/
def waitScan (entries : Int → FutexEntry) (uaddr : Nat) : List Nat → Int → Int × Int
  | [], emptyIdx => (-1, emptyIdx)
  | i :: rest, emptyIdx =>
    if (entries i).Serves uaddr then (i, emptyIdx)
    else if ¬ (entries i).HasWaiter then waitScan entries uaddr rest i
    else waitScan entries uaddr rest emptyIdx

/-- The thread enters `sys_wait` on the notification of the entry, which counts it. -/
def Futex.enter (s : Futex T) (t : T) (idx : Int) : Futex T :=
  let entry := s.futexEntries idx
  { (s.setEntry idx { entry with waiterCount := entry.waiterCount + 1 }).goto t
      (.waiting idx entry.notificCap) with
    waiters := s.waiters ++ [(entry.notificCap, entry.uaddr)] }

/-- The section of `chcore_futex_wait` before `sys_wait`; `same` is whether `*uaddr` is `val`.  An
entry with index 0 is not recognised. -/
def chcoreFutexWait (s : Futex T) (t : T) (uaddr : Nat) (same : Bool) : Futex T :=
  if same then
    let scan := waitScan s.futexEntries uaddr (range maxFutexEntries) (-1)
    if scan.2 < 0 ∧ scan.1 < 0 then s
    else if 0 < scan.1 then s.enter t scan.1
    else (s.takeEntry scan.2 uaddr).enter t scan.2
  else s

/-- `sys_wait` receives a notification.  One that was sent when nobody waited ends the wait of a
thread for which none was sent. -/
def Futex.receive (s : Futex T) (t : T) : Futex T :=
  match s.pc t with
  | .waiting idx cap =>
    if s.pending cap = 0 then s
    else
      { s.goto t (.resumed idx) with
        pending := update s.pending cap (s.pending cap - 1)
        waiters :=
          if waitersOn s.waiters cap + s.pending cap ≤ total (waitsOnCap cap) s.pc then s.waiters
          else dropWaiter s.waiters cap (s.futexEntries idx).uaddr }
  | _ => s

/-- `sys_wait` times out, and `chcore_futex_wait` returns; the thread waited for `uaddr`. -/
def Futex.timeout (s : Futex T) (t : T) (uaddr : Nat) : Futex T :=
  match s.pc t with
  | .waiting _ cap =>
    if s.pending cap < total (waitsOnCap cap) s.pc then
      { s.goto t .idle with waiters := dropWaiter s.waiters cap uaddr }
    else s
  | _ => s

def Futex.resume (s : Futex T) (t : T) : Futex T :=
  match s.pc t with
  | .resumed idx =>
    let entry := s.futexEntries idx
    let entry := { entry with waiterCount := entry.waiterCount - 1 }
    let s := (s.setEntry idx entry).goto t .idle
    if entry.HasWaiter then s else { s with notifcCache := entry.notificCap :: s.notifcCache }
  | _ => s

def Futex.notify (s : Futex T) (cap uaddr : Nat) : Futex T :=
  { s with
    pending := update s.pending cap (s.pending cap + 1)
    waiters := dropWaiter s.waiters cap uaddr }

def Futex.notifyTimes (s : Futex T) (cap uaddr : Nat) : Nat → Futex T
  | 0 => s
  | n + 1 => (s.notify cap uaddr).notifyTimes cap uaddr n

/-- The loop over the requeued waiters, which does not change `send_count`. -/
def Futex.notifyRequeued (s : Futex T) (idx : Int) (uaddr : Nat) : List Nat → Futex T
  | [] => s
  | cap :: rest =>
    ((s.notify cap uaddr).setEntry idx
      { s.futexEntries idx with requeuedFutexList := rest }).notifyRequeued idx uaddr rest

def findEntry (entries : Int → FutexEntry) (uaddr : Nat) : Option Nat :=
  (range maxFutexEntries).find? fun i => (entries i).Serves uaddr

def chcoreFutexWake (s : Futex T) (uaddr val : Nat) : Futex T × Int :=
  match findEntry s.futexEntries uaddr with
  | none => (s, 0)
  | some idx =>
    let entry := s.futexEntries idx
    let sendCount := if entry.waiterCount < val then entry.waiterCount else val
    let s := s.notifyTimes entry.notificCap uaddr sendCount.toNat
    if sendCount < val then (s.notifyRequeued idx uaddr entry.requeuedFutexList, sendCount)
    else (s, sendCount)

/-- The body of the loop of `chcore_futex_requeue`, on `idx`, `idx2` and `empty_idx`. -/
def requeueVisit (entry : FutexEntry) (uaddr uaddr2 : Nat) (i : Int) (found : Int × Int × Int) :
    Int × Int × Int :=
  if entry.Serves uaddr then (i, found.2.1, found.2.2)
  else if entry.Serves uaddr2 then (found.1, i, found.2.2)
  else if ¬ entry.HasWaiter then (found.1, found.2.1, i)
  else found

def requeueScan (entries : Int → FutexEntry) (uaddr uaddr2 : Nat) :
    List Nat → Int × Int × Int → Int × Int × Int
  | [], found => found
  | i :: rest, found =>
    let found := requeueVisit (entries i) uaddr uaddr2 i found
    if found.1 ≠ -1 ∧ found.2.1 ≠ -1 then found
    else requeueScan entries uaddr uaddr2 rest found

def Futex.appendRequeued (s : Futex T) (idx2 : Int) (cap uaddr uaddr2 : Nat) : Futex T :=
  let entry := s.futexEntries idx2
  { s.setEntry idx2 { entry with requeuedFutexList := entry.requeuedFutexList ++ [cap] } with
    waiters := moveWaiter s.waiters cap uaddr uaddr2 }

/-- One waiter of the entry `idx` goes to the entry `idx2`: one that waits there since it came,
and stays counted there, or else the first of those requeued to it. -/
def Futex.requeueOne (s : Futex T) (idx idx2 : Int) (uaddr uaddr2 : Nat) : Futex T :=
  let entry := s.futexEntries idx
  if entry.waiterCount ≠ 0 then s.appendRequeued idx2 entry.notificCap uaddr uaddr2
  else
    match entry.requeuedFutexList with
    | [] => s
    | cap :: rest =>
      (s.setEntry idx { entry with requeuedFutexList := rest }).appendRequeued idx2 cap uaddr uaddr2

def chcoreFutexRequeue (s : Futex T) (uaddr uaddr2 : Nat) : Futex T :=
  if uaddr = uaddr2 then s
  else
    let scan := requeueScan s.futexEntries uaddr uaddr2 (range maxFutexEntries)
      (-1, -1, -1)
    if scan.1 = -1 then s
    else if scan.2.1 = -1 ∧ scan.2.2 = -1 then s
    else if scan.2.1 = -1 then
      (s.takeEntry scan.2.2 uaddr2).requeueOne scan.1 scan.2.2 uaddr uaddr2
    else s.requeueOne scan.1 scan.2.1 uaddr uaddr2

/-- A wake returns `min(val, w)`, as many threads stop waiting for the address, and the others
wait on. -/
structure WakeExact (before after : List (Nat × Nat)) (uaddr val : Nat) (sent : Int) : Prop where
  result : sent = (min val (waitersAt before uaddr) : Nat)
  woken : waitersAt after uaddr + min val (waitersAt before uaddr) = waitersAt before uaddr
  others : ∀ a, a ≠ uaddr → waitersAt after a = waitersAt before a

inductive FutexOp (T : Type) where
  | wait (t : T) (uaddr : Nat) (same : Bool)
  | receive (t : T)
  | timeout (t : T) (uaddr : Nat)
  | resume (t : T)
  | wake (uaddr val : Nat)
  | requeue (uaddr uaddr2 : Nat)

/-- Only a thread that is not in the call begins a wait. -/
def futexStep (s : Futex T) : FutexOp T → Futex T
  | .wait t uaddr same =>
    match s.pc t with
    | .idle => chcoreFutexWait s t uaddr same
    | _ => s
  | .receive t => s.receive t
  | .timeout t uaddr => s.timeout t uaddr
  | .resume t => s.resume t
  | .wake uaddr val =>
    let result := chcoreFutexWake s uaddr val
    { result.1 with
      exact := s.exact ∧ WakeExact s.waiters result.1.waiters uaddr val result.2 }
  | .requeue uaddr uaddr2 => chcoreFutexRequeue s uaddr uaddr2

def startFutex (T : Type) : Futex T :=
  { futexEntries := fun _ => ⟨0, 0, 0, []⟩
    notifcCache := []
    created := 0
    pending := fun _ => 0
    pc := fun _ => .idle
    waiters := []
    exact := True }

end Calls

/-! ## The scans -/

section Scans
variable {entries : Int → FutexEntry} {uaddr uaddr2 : Nat}

def ScannedEmpty (entries : Int → FutexEntry) (seen : List Nat) (start emptyIdx : Int) : Prop :=
  emptyIdx = start ∧ (∀ i ∈ seen, (entries i).HasWaiter) ∨
    ∃ i ∈ seen, emptyIdx = (i : Int) ∧ ¬ (entries i).HasWaiter

variable (start : Int)

theorem ScannedEmpty.nil : ScannedEmpty entries [] start start :=
  .inl ⟨rfl, by simp⟩

variable {seen : List Nat} {i : Nat}

theorem ScannedEmpty.free (free : ¬ (entries i).HasWaiter) :
    ScannedEmpty entries (seen ++ [i]) start i :=
  .inr ⟨i, mem_append_right _ mem_cons_self, rfl, free⟩

theorem forall_mem_concat {P : Nat → Prop} (all : ∀ k ∈ seen, P k) (last : P i) :
    ∀ k ∈ seen ++ [i], P k := by
  intro k member
  rcases mem_append.mp member with before | here
  · exact all k before
  · rw [mem_singleton.mp here]
    exact last

theorem ScannedEmpty.used {start emptyIdx : Int}
    (scanned : ScannedEmpty entries seen start emptyIdx) (used : (entries i).HasWaiter) :
    ScannedEmpty entries (seen ++ [i]) start emptyIdx := by
  rcases scanned with ⟨same, all⟩ | ⟨k, member, found⟩
  · exact .inl ⟨same, forall_mem_concat all used⟩
  · exact .inr ⟨k, mem_append_left _ member, found⟩

theorem waitScan_spec (indexes : List Nat) : ∀ (seen : List Nat) (emptyIdx : Int),
    (∀ i ∈ seen, ¬ (entries i).Serves uaddr) → ScannedEmpty entries seen start emptyIdx →
    (∃ i ∈ indexes, (waitScan entries uaddr indexes emptyIdx).1 = (i : Int) ∧
      (entries i).Serves uaddr) ∨
    (waitScan entries uaddr indexes emptyIdx).1 = -1 ∧
      (∀ i ∈ seen ++ indexes, ¬ (entries i).Serves uaddr) ∧
      ScannedEmpty entries (seen ++ indexes) start
        (waitScan entries uaddr indexes emptyIdx).2 := by
  induction indexes with
  | nil =>
    intro seen emptyIdx none scanned
    rw [append_nil]
    exact .inr ⟨rfl, none, scanned⟩
  | cons i rest ih =>
    intro seen emptyIdx none scanned
    by_cases serves : (entries i).Serves uaddr
    · exact .inl ⟨i, mem_cons_self, by simp only [waitScan, if_pos serves], serves⟩
    -- the scan goes on with what is known after this entry
    have goesOn : ∃ next, waitScan entries uaddr (i :: rest) emptyIdx =
        waitScan entries uaddr rest next ∧ ScannedEmpty entries (seen ++ [i]) start next := by
      by_cases used : (entries i).HasWaiter
      · refine ⟨emptyIdx, ?_, scanned.used used⟩
        simp only [waitScan, if_neg serves, if_neg (not_not_intro used)]
      · refine ⟨i, ?_, .free start used⟩
        simp only [waitScan, if_neg serves, if_pos used]
    obtain ⟨next, step, known⟩ := goesOn
    rw [step, append_cons]
    rcases ih (seen ++ [i]) next (forall_mem_concat none serves) known with
      ⟨k, member, found⟩ | missing
    · exact .inl ⟨k, mem_cons_of_mem i member, found⟩
    · exact .inr missing

structure RequeueFound (entries : Int → FutexEntry) (uaddr uaddr2 : Nat) (start : Int)
    (seen : List Nat) (found : Int × Int × Int) : Prop where
  first : found.1 ≠ -1 → (entries found.1).Serves uaddr
  second : found.2.1 ≠ -1 → (entries found.2.1).Serves uaddr2
  missing : found.2.1 = -1 → (∀ i ∈ seen, ¬ (entries i).Serves uaddr2) ∧
    ScannedEmpty entries seen start found.2.2

theorem RequeueFound.visit {start : Int} {found : Int × Int × Int}
    (known : RequeueFound entries uaddr uaddr2 start seen found) (different : uaddr ≠ uaddr2)
    (i : Nat) : RequeueFound entries uaddr uaddr2 start (seen ++ [i])
      (requeueVisit (entries i) uaddr uaddr2 i found) := by
  rw [requeueVisit]
  by_cases serves : (entries i).Serves uaddr
  · rw [if_pos serves]
    refine ⟨fun _ => serves, known.second, ?_⟩
    intro missing
    obtain ⟨none, scanned⟩ := known.missing missing
    have other : ¬ (entries i).Serves uaddr2 := fun serves2 =>
      different (serves.2.symm.trans serves2.2)
    exact ⟨forall_mem_concat none other, scanned.used serves.1⟩
  rw [if_neg serves]
  by_cases serves2 : (entries i).Serves uaddr2
  · rw [if_pos serves2]
    refine ⟨known.first, fun _ => serves2, ?_⟩
    intro missing
    have natural : (i : Int) = -1 := missing
    omega
  rw [if_neg serves2]
  by_cases used : (entries i).HasWaiter
  · rw [if_neg (not_not_intro used)]
    refine ⟨known.first, known.second, ?_⟩
    intro missing
    obtain ⟨none, scanned⟩ := known.missing missing
    exact ⟨forall_mem_concat none serves2, scanned.used used⟩
  · rw [if_pos used]
    refine ⟨known.first, known.second, ?_⟩
    intro missing
    exact ⟨forall_mem_concat (known.missing missing).1 serves2, .free start used⟩

theorem requeueScan_spec (different : uaddr ≠ uaddr2) (indexes : List Nat) :
    ∀ (seen : List Nat) (found : Int × Int × Int),
      RequeueFound entries uaddr uaddr2 start seen found →
      RequeueFound entries uaddr uaddr2 start (seen ++ indexes)
        (requeueScan entries uaddr uaddr2 indexes found) := by
  induction indexes with
  | nil =>
    intro seen found known
    rw [append_nil]
    exact known
  | cons i rest ih =>
    intro seen found known
    have visited := known.visit different i
    rw [requeueScan]
    split
    · next both => exact ⟨visited.first, visited.second, fun missing => absurd missing both.2⟩
    · rw [append_cons]
      exact ih (seen ++ [i]) _ visited

end Scans

end KernelLabs.ChCore
