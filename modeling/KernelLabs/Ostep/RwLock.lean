import KernelLabs.Lib.Runs
import KernelLabs.Lib.Weights

/-!
# A reader-writer lock without starvation

Model of `Chapter31/reader-writer-nostarve.c` for any number of threads, each of which reads or
writes as it likes.  A step is one operation on a semaphore, or a change of `read_count` with the
test that follows it.  The number of readers is an `int`, so that `read_count` does not overflow.
-/

set_option autoImplicit false

namespace KernelLabs.Ostep

open Lib Function

structure Rwlock where
  readCount : Int
  guard : Nat
  lock : Nat
  waitWriterLock : Nat

def rwlockInit : Rwlock := ⟨0, 1, 1, 1⟩

/-- Where a thread is: before the operation that the name says, outside the calls, or between
acquire and release. -/
inductive Pc where
  | idle
  | readPass | readGuard | readAdd | readLock | readUnguard | readPost
  | reading
  | doneGuard | doneSub | doneUnlock | doneUnguard
  | writePass | writeLock
  | writing
  | writePost
  deriving DecidableEq

def semWait : Nat → Option Nat
  | 0 => none
  | n + 1 => some n

/-- One step of a thread; `none` if it waits.  `reads` says which lock a thread outside asks for. -/
def exec (rw : Rwlock) (reads : Bool) : Pc → Option (Rwlock × Pc)
  | .idle => some (rw, if reads then .readPass else .writePass)
  | .readPass =>
    (semWait rw.waitWriterLock).map fun n => ({ rw with waitWriterLock := n }, .readGuard)
  | .readGuard => (semWait rw.guard).map fun n => ({ rw with guard := n }, .readAdd)
  | .readAdd => some ({ rw with readCount := rw.readCount + 1 },
      if rw.readCount + 1 = 1 then .readLock else .readUnguard)
  | .readLock => (semWait rw.lock).map fun n => ({ rw with lock := n }, .readUnguard)
  | .readUnguard => some ({ rw with guard := rw.guard + 1 }, .readPost)
  | .readPost => some ({ rw with waitWriterLock := rw.waitWriterLock + 1 }, .reading)
  | .reading => some (rw, .doneGuard)
  | .doneGuard => (semWait rw.guard).map fun n => ({ rw with guard := n }, .doneSub)
  | .doneSub => some ({ rw with readCount := rw.readCount - 1 },
      if rw.readCount - 1 = 0 then .doneUnlock else .doneUnguard)
  | .doneUnlock => some ({ rw with lock := rw.lock + 1 }, .doneUnguard)
  | .doneUnguard => some ({ rw with guard := rw.guard + 1 }, .idle)
  | .writePass =>
    (semWait rw.waitWriterLock).map fun n => ({ rw with waitWriterLock := n }, .writeLock)
  | .writeLock => (semWait rw.lock).map fun n => ({ rw with lock := n }, .writing)
  | .writing => some ({ rw with lock := rw.lock + 1 }, .writePost)
  | .writePost => some ({ rw with waitWriterLock := rw.waitWriterLock + 1 }, .idle)

structure Sys (T : Type) where
  rw : Rwlock
  pc : T → Pc

def step {T : Type} [DecidableEq T] (s : Sys T) (op : T × Bool) : Option (Sys T) :=
  (exec s.rw op.2 (s.pc op.1)).map fun next => ⟨next.1, update s.pc op.1 next.2⟩

/-! ## Who holds what -/

@[simp] def among (places : List Pc) (pc : Pc) : Nat := if pc ∈ places then 1 else 0

/-- The first reader, on its way to `_lock` with the two other semaphores. -/
@[simp] def first := among [.readLock]

@[simp] def guards := among [.readAdd, .readUnguard, .doneSub, .doneUnlock, .doneUnguard]

/-- The others that hold `_wait_writer_lock`. -/
@[simp] def passing := among [.readGuard, .readAdd, .readUnguard, .readPost, .writeLock, .writing,
  .writePost]

/-- Readers that have left the section under `guard` in acquire and are before that in release. -/
@[simp] def between := among [.readPost, .reading, .doneGuard]

@[simp] def counting := among [.readUnguard, .doneSub]

/-- Those that hold `_lock` alone. -/
@[simp] def locks := among [.doneUnlock, .writing]

/-- What a step changes, in terms of the place it leaves and the place it reaches. -/
structure Moves (rw rw' : Rwlock) (p p' : Pc) : Prop where
  guard : rw'.guard + guards p' + first p' = rw.guard + guards p + first p
  pass : rw'.waitWriterLock + passing p' + first p' = rw.waitWriterLock + passing p + first p
  count : rw'.readCount + (between p + counting p + first p : Nat) =
    rw.readCount + (between p' + counting p' + first p' : Nat)
  lock : rw'.lock + locks p' + first p + (1 - rw.readCount).toNat =
    rw.lock + locks p + first p' + (1 - rw'.readCount).toNat
  alone : rw'.readCount = rw.readCount ∧ first p' = 0 ∨
    guards p = 1 ∧ (first p' = 0 ∨ rw'.readCount = 1)

theorem semWait_eq_some {n m : Nat} : semWait n = some m ↔ n = m + 1 := by
  cases n <;> simp [semWait]

@[simp] theorem semWait_eq_none {n : Nat} : semWait n = none ↔ n = 0 := by
  cases n <;> simp [semWait]

theorem exec_moves {rw rw' : Rwlock} {reads : Bool} {p p' : Pc}
    (run : exec rw reads p = some (rw', p'))
    (counted : (between p + counting p + first p : Nat) ≤ rw.readCount) : Moves rw rw' p p' := by
  cases p with
  | idle =>
    cases run
    cases reads <;> constructor <;> simp
  | readPass | readGuard | readLock | doneGuard | writePass | writeLock =>
    obtain ⟨n, taken, same⟩ := Option.map_eq_some_iff.mp run
    rw [semWait_eq_some] at taken
    cases same
    constructor <;> simp [taken]
  | readUnguard | readPost | reading | doneUnlock | doneUnguard | writing | writePost =>
    cases run
    constructor <;> simp
  | readAdd | doneSub =>
    cases run
    simp only [between, counting, first, among] at counted
    split <;> constructor <;> simp <;> simp at counted <;> omega

/-! ## Runs -/

section Runs
variable {T : Type} [Fintype T] {s s' : Sys T}

/-- Each semaphore is free or held once; `_lock` is held by the readers as soon as the first of them
has it. -/
structure Inv (s : Sys T) : Prop where
  guard : s.rw.guard + total guards s.pc + total first s.pc = 1
  pass : s.rw.waitWriterLock + total passing s.pc + total first s.pc = 1
  count : s.rw.readCount = (total between s.pc + total counting s.pc + total first s.pc : Nat)
  lock : s.rw.lock + total locks s.pc = total first s.pc + (1 - s.rw.readCount).toNat
  alone : total first s.pc = 0 ∨ s.rw.readCount = 1

theorem Inv.init : Inv (T := T) ⟨rwlockInit, fun _ => .idle⟩ := by
  have none (weight : Pc → Nat) (idle : weight .idle = 0) :
      total weight (fun _ : T => .idle) = 0 := total_eq_zero fun _ => idle
  constructor <;> simp [none, rwlockInit]

/-- As long as a thread is in a call or in its critical section, one of these goes on. -/
theorem Inv.progress (inv : Inv s) {t : T} (inside : s.pc t ≠ .idle) (reads : Bool) :
    ∃ u, s.pc u ≠ .idle ∧ exec s.rw reads (s.pc u) ≠ none := by
  by_contra stuck
  have waits : ∀ u, s.pc u ≠ .idle → exec s.rw reads (s.pc u) = none :=
    fun u busy => by_contra fun runs => stuck ⟨u, busy, runs⟩
  have none (weight : Pc → Nat) (idle : weight .idle = 0)
      (runs : ∀ p, exec s.rw reads p = none → weight p = 0) : total weight s.pc = 0 := by
    refine total_eq_zero fun u => ?_
    by_cases outside : s.pc u = .idle
    · rw [outside, idle]
    · exact runs _ (waits u outside)
  obtain ⟨guard, pass, count, lock, alone⟩ := inv
  have guarding := none guards (by simp) fun p => by cases p <;> simp [exec]
  have counted := none counting (by simp) fun p => by cases p <;> simp [exec]
  have locking := none locks (by simp) fun p => by cases p <;> simp [exec]
  -- the first reader would get `_lock`
  have leading : total first s.pc = 0 := by
    by_contra some
    have unlocked : s.rw.lock ≠ 0 := by omega
    exact some (none first (by simp) fun p => by cases p <;> simp [exec, unlocked])
  have unguarded : s.rw.guard ≠ 0 := by omega
  have reader := none between (by simp) fun p => by cases p <;> simp [exec, unguarded]
  have unlocked : s.rw.lock ≠ 0 := by omega
  have passed := none passing (by simp) fun p => by cases p <;> simp [exec, unguarded, unlocked]
  have open' : s.rw.waitWriterLock ≠ 0 := by omega
  have last := waits t inside
  generalize s.pc t = p at inside last
  cases p <;> simp [exec, unguarded, unlocked, open'] at inside last

variable [DecidableEq T]

theorem Inv.step {op : T × Bool} (inv : Inv s) (stepped : step s op = some s') : Inv s' := by
  obtain ⟨t, reads⟩ := op
  obtain ⟨⟨rw', p'⟩, run, rfl⟩ := Option.map_eq_some_iff.mp stepped
  have changed (weight : Pc → Nat) := total_update weight s.pc t p'
  have own (weight : Pc → Nat) := le_total weight s.pc t
  obtain ⟨guard, pass, count, lock, alone⟩ := inv
  have held := own guards
  have reader := own between
  have counted := own counting
  have leads := own first
  dsimp only at run
  obtain ⟨guard', pass', count', lock', alone'⟩ := exec_moves run (by omega)
  have first' := changed first
  have guards' := changed guards
  have passing' := changed passing
  have between' := changed between
  have counting' := changed counting
  have locks' := changed locks
  constructor <;> dsimp only <;> omega

theorem Inv.writer_alone {t u : T} (inv : Inv s) (writes : s.pc t = .writing) (other : u ≠ t) :
    s.pc u ≠ .reading ∧ s.pc u ≠ .writing := by
  obtain ⟨_, pass, count, lock, _⟩ := inv
  have passed := le_total passing s.pc t
  have counted := le_total between s.pc u
  have both := add_le_total locks s.pc other
  rw [writes] at passed both
  have one : passing .writing = 1 ∧ locks .writing = 1 ∧ between .reading = 1 := by decide
  constructor
  · intro reads
    rw [reads] at counted
    omega
  · intro same
    rw [same] at both
    omega

/-- Exclusion, the reader count, and no deadlock. -/
theorem rwlock_correct (ops : List (T × Bool))
    (run : ops.foldlM Ostep.step ⟨rwlockInit, fun _ => .idle⟩ = some s) :
    (∀ t u, s.pc t = .writing → u ≠ t → s.pc u ≠ .reading ∧ s.pc u ≠ .writing) ∧
      (s.rw.guard ≠ 0 → s.rw.readCount = total between s.pc) ∧
      ∀ t, s.pc t ≠ .idle → ∀ reads, ∃ u, s.pc u ≠ .idle ∧ exec s.rw reads (s.pc u) ≠ none := by
  have inv := reached_invariant Ostep.step Inv (fun _ _ _ inv => inv.step) ops _ s Inv.init run
  refine ⟨fun t u => inv.writer_alone, fun free => ?_, fun t => inv.progress⟩
  have none : total counting s.pc ≤ total guards s.pc := total_le_total fun t => by
    cases s.pc t <;> decide
  obtain ⟨guard, _, count, _, _⟩ := inv
  omega

end Runs

theorem rwlock_correct_reader : ∃ s : Sys (Fin 2),
    [(0, true), (0, true), (1, false)].foldlM step ⟨rwlockInit, fun _ => .idle⟩ = some s ∧
      ∃ u, s.pc u ≠ .idle ∧ exec s.rw true (s.pc u) ≠ none :=
  ⟨_, rfl, (rwlock_correct [(0, true), (0, true), (1, false)] rfl).2.2 1 (by decide) true⟩

end KernelLabs.Ostep
