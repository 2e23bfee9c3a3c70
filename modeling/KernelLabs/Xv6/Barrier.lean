import KernelLabs.Lib.Runs
import KernelLabs.Lib.Weights

/-!
# The barrier of the threads lab

Model of `barrier` (`notxv6/barrier.c`) for any number of threads that call it again and again.  A
section under `barrier_mutex` is one step, also the one that ends a call after
`pthread_cond_wait`.  A waiting thread is woken by the broadcast, or without one, as POSIX allows.
-/

set_option autoImplicit false

namespace KernelLabs.Xv6.Barrier

open Lib Function

/-- Where a thread is: outside, before the lock, in `pthread_cond_wait`, or woken there. -/
inductive Pc where
  | idle
  | called
  | waiting
  | woken
  deriving DecidableEq

/-- `bstate`, and how often each thread has called `barrier`. -/
structure Bstate (T : Type) where
  nthread : Nat
  round : Nat
  pc : T → Pc
  calls : T → Nat

def barrierInit {T : Type} : Bstate T := ⟨0, 0, fun _ => .idle, fun _ => 0⟩

inductive Act (T : Type) where
  | call (t : T)
  | enter (t : T)
  | spurious (t : T)
  | leave (t : T)

section Model
variable {T : Type} [Fintype T] [DecidableEq T]

def broadcast (pc : T → Pc) (t : T) : Pc := if pc t = .waiting then .woken else pc t

def barrier (s : Bstate T) (t : T) : Bstate T :=
  if s.nthread + 1 = Fintype.card T then
    { s with nthread := 0, round := s.round + 1, pc := update (broadcast s.pc) t .idle }
  else { s with nthread := s.nthread + 1, pc := update s.pc t .waiting }

/-- One step; there is none for a thread that is elsewhere. -/
def step (s : Bstate T) : Act T → Bstate T
  | .call t => if s.pc t = .idle then
      { s with pc := update s.pc t .called, calls := update s.calls t (s.calls t + 1) } else s
  | .enter t => if s.pc t = .called then barrier s t else s
  | .spurious t => if s.pc t = .waiting then { s with pc := update s.pc t .woken } else s
  | .leave t => if s.pc t = .woken then { s with pc := update s.pc t .idle } else s

def Act.isSpurious : Act T → Bool
  | .spurious _ => true
  | _ => false

/-- Calls that the round does not count yet. -/
def Pc.ahead : Pc → Nat
  | .idle | .woken => 0
  | .called | .waiting => 1

def Pc.waits (pc : Pc) : Nat := if pc = .waiting then 1 else 0

def Pc.moves (pc : Pc) : Nat := if pc = .waiting then 0 else 1

structure Inv (s : Bstate T) : Prop where
  count : s.nthread = total Pc.waits s.pc
  calls : ∀ t, s.calls t = s.round + (s.pc t).ahead

variable {s s' : Bstate T} {t : T}

omit [DecidableEq T] in
theorem total_moves (pc : T → Pc) : total Pc.waits pc + total Pc.moves pc = Fintype.card T := by
  rw [total, total, ← Finset.sum_add_distrib, Fintype.card_eq_sum_ones]
  refine Finset.sum_congr rfl fun t _ => ?_
  cases pc t <;> rfl

theorem Inv.all_wait (inv : Inv s) (here : s.pc t = .called)
    (last : s.nthread + 1 = Fintype.card T) (u : T) (other : u ≠ t) : s.pc u = .waiting := by
  have all := total_moves s.pc
  have both := add_le_total Pc.moves s.pc other
  have count := inv.count
  by_contra moves
  rw [here, Pc.moves, if_neg moves, Pc.moves, if_neg nofun] at both
  omega

theorem Inv.goto (inv : Inv s) {n : Nat} {next : Pc} {calls : T → Nat}
    (count : n + (s.pc t).waits = s.nthread + next.waits)
    (own : calls t = s.round + next.ahead) (others : ∀ u, u ≠ t → calls u = s.calls u) :
    Inv ⟨n, s.round, update s.pc t next, calls⟩ where
  count := by
    have changed := total_update Pc.waits s.pc t next
    have before := inv.count
    dsimp only
    omega
  calls := (forall_update_iff s.pc fun u pc => calls u = s.round + pc.ahead).mpr
    ⟨own, fun u other => (others u other).trans (inv.calls u)⟩

/-- The last thread finds all others waiting, so that the next round begins with nobody counted. -/
theorem Inv.last (inv : Inv s) (here : s.pc t = .called)
    (last : s.nthread + 1 = Fintype.card T) :
    Inv ⟨0, s.round + 1, update (broadcast s.pc) t .idle, s.calls⟩ where
  count := by
    refine (total_eq_zero ((forall_update_iff (broadcast s.pc) fun _ pc => pc.waits = 0).mpr
      ⟨rfl, fun u other => ?_⟩)).symm
    rw [broadcast, if_pos (inv.all_wait here last u other)]
    rfl
  calls := by
    refine (forall_update_iff (broadcast s.pc) fun u pc => s.calls u = s.round + 1 + pc.ahead).mpr
      ⟨?_, fun u other => ?_⟩
    · rw [inv.calls t, here]
      rfl
    · have waits := inv.all_wait here last u other
      rw [inv.calls u, broadcast, if_pos waits, waits]
      rfl

theorem Inv.step (inv : Inv s) (act : Act T) (real : act.isSpurious = false) : Inv (step s act) := by
  cases act with
  | spurious t => cases real
  | call t =>
    rw [Barrier.step]
    split
    next idle =>
      refine inv.goto (by rw [idle]; rfl) ?_ fun u other => update_of_ne other _ _
      rw [update_self, inv.calls t, idle]
      rfl
    next => exact inv
  | enter t =>
    rw [Barrier.step, barrier]
    split
    next here =>
      split
      next last => exact inv.last here last
      next => exact inv.goto (by rw [here]; rfl) (by rw [inv.calls t, here]; rfl) fun _ _ => rfl
    next => exact inv
  | leave t =>
    rw [Barrier.step]
    split
    next woken => exact inv.goto (by rw [woken]; rfl) (by rw [inv.calls t, woken]; rfl) fun _ _ => rfl
    next => exact inv

end Model

end KernelLabs.Xv6.Barrier
