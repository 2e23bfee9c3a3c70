import KernelLabs.Lib.Runs
import KernelLabs.Lib.Queues
import KernelLabs.ChCore.Sched.PolicyRr

/-!
# The ready queues over whole runs

The sections under the locks keep every thread that is `TS_READY` linked once, in the queue its
`cpuid` names.  `rr_sched` and `switch_to_thread` store `state` and `cpuid` without a lock, after
they looked at the state; another CPU may have enqueued the thread in between.  The runs in which
no such store meets a thread that is `TS_READY` are exactly the runs that keep the queues.
-/

set_option autoImplicit false

namespace KernelLabs.ChCore

open Lib Function List

variable {st : ThreadState}

section Outcome
variable {N : Nat} (idleThreads : Fin N → Nat)

def StoreSafe (s : RrKernel N) (c : Fin N) : RrPc N → Prop
  | .schedInter old => s.state old ≠ .ready
  | .switchCpuid target => s.state target = .ready → s.cpuid target = c
  | .switchState target => s.state target ≠ .ready
  | _ => True

instance (s : RrKernel N) (c : Fin N) : ∀ pc, Decidable (StoreSafe s c pc) := by
  rintro ⟨⟩ <;> dsimp only [StoreSafe] <;> infer_instance

def RrSafeOn (s : RrKernel N) : RrOp N → Prop
  | .step c => StoreSafe s c (s.pc c)
  | _ => True

instance (s : RrKernel N) : ∀ op, Decidable (RrSafeOn s op) := by
  rintro ⟨⟩ <;> dsimp only [RrSafeOn] <;> infer_instance

/-- What a step did to states, `cpuid`s and queues; `safe` says whether it did so safely. -/
inductive RrDone (s s' : RrKernel N) (safe : Prop) : RrEvent → Prop where
  | same (harmless : safe) (state : s'.state = s.state) (cpuid : s'.cpuid = s.cpuid)
      (queue : s'.queue = s.queue) : RrDone s s' safe .silent
  | linked (t : Nat) (d : Fin N) (harmless : safe) (free : s.state t ≠ .ready)
      (notIdle : ¬ IsIdle idleThreads t) (state : s'.state = update s.state t .ready)
      (cpuid : s'.cpuid = update s.cpuid t d)
      (queue : s'.queue = update s.queue d (s.queue d ++ [t])) :
      RrDone s s' safe (.enqueued t)
  | unlinked (t : Nat) (harmless : safe) (ready : s.state t = .ready)
      (state : s'.state = update s.state t .inter) (cpuid : s'.cpuid = s.cpuid)
      (queue : s'.queue = fun d => (s.queue d).erase t) : RrDone s s' safe .silent
  | stored (t : Nat) (st : ThreadState) (harmless : safe ↔ s.state t ≠ .ready)
      (other : st ≠ .ready) (state : s'.state = update s.state t st)
      (cpuid : s'.cpuid = s.cpuid) (queue : s'.queue = s.queue) : RrDone s s' safe .silent
  | moved (t : Nat) (d : Fin N) (harmless : safe ↔ (s.state t = .ready → s.cpuid t = d))
      (state : s'.state = s.state) (cpuid : s'.cpuid = update s.cpuid t d)
      (queue : s'.queue = s.queue) : RrDone s s' safe .silent

def RrPc.enqueuing : RrPc N → Option Nat
  | .enqueueNoAff t _ => some t
  | .enqueueAff t _ => some t
  | .enqueuePrio t _ _ => some t
  | .enqueueSection t _ _ => some t
  | _ => none

/-- No idle thread gets past the first check of `rr_sched_enqueue`. -/
def PcsOk (s : RrKernel N) : Prop :=
  ∀ c t, (s.pc c).enqueuing = some t → ¬ IsIdle idleThreads t

variable {idleThreads} {s s' : RrKernel N} {safe : Prop} {c : Fin N} {e : RrEvent}

def RrMade (idleThreads : Fin N → Nat) (s : RrKernel N) (safe : Prop)
    (result : Option (RrKernel N × RrEvent)) : Prop :=
  ∀ r, result = some r → RrDone idleThreads s r.1 safe r.2 ∧ PcsOk idleThreads r.1

variable {pc : RrPc N}

theorem PcsOk.goto (ok : PcsOk idleThreads s) (same : s'.pc = s.pc)
    (next : ∀ t, pc.enqueuing = some t → ¬ IsIdle idleThreads t) :
    PcsOk idleThreads (s'.goto c pc) := by
  rw [PcsOk, RrKernel.goto, same]
  exact (forall_update_iff s.pc fun _ pc => ∀ t, pc.enqueuing = some t →
    ¬ IsIdle idleThreads t).mpr ⟨next, fun d _ => ok d⟩

theorem RrDone.goto (done : RrDone idleThreads s s' safe e) :
    RrDone idleThreads s (s'.goto c pc) safe e := by
  cases done with
  | same harmless state cpuid queue => exact .same harmless state cpuid queue
  | linked t d harmless free notIdle state cpuid queue =>
    exact .linked t d harmless free notIdle state cpuid queue
  | unlinked t harmless ready state cpuid queue =>
    exact .unlinked t harmless ready state cpuid queue
  | stored t st harmless other state cpuid queue =>
    exact .stored t st harmless other state cpuid queue
  | moved t d harmless state cpuid queue => exact .moved t d harmless state cpuid queue

theorem RrMade.stop : RrMade idleThreads s safe none := by
  rintro r ⟨⟩

theorem RrMade.change (ok : PcsOk idleThreads s) (done : RrDone idleThreads s s' safe e)
    (same : s'.pc = s.pc) (next : ∀ t, pc.enqueuing = some t → ¬ IsIdle idleThreads t) :
    RrMade idleThreads s safe (some (s'.goto c pc, e)) := by
  rintro r ⟨⟩
  exact ⟨done.goto, ok.goto same next⟩

theorem RrMade.goto (ok : PcsOk idleThreads s) (harmless : safe)
    (next : ∀ t, pc.enqueuing = some t → ¬ IsIdle idleThreads t) :
    RrMade idleThreads s safe (quiet (s.goto c pc)) :=
  .change ok (.same harmless rfl rfl rfl) rfl next

theorem RrMade.leave (ok : PcsOk idleThreads s) (harmless : safe) (none : pc.enqueuing = none) :
    RrMade idleThreads s safe (quiet (s.goto c pc)) :=
  .goto ok harmless (by simp [none])

theorem RrMade.ite {p : Prop} [Decidable p] {yes no : Option (RrKernel N × RrEvent)}
    (pos : p → RrMade idleThreads s safe yes) (neg : ¬p → RrMade idleThreads s safe no) :
    RrMade idleThreads s safe (if p then yes else no) := by
  split
  · exact pos ‹_›
  · exact neg ‹_›

theorem RrMade.elsewhere (ok : PcsOk idleThreads s) (done : RrDone idleThreads s s' safe .silent)
    (same : s'.pc = s.pc) : RrMade idleThreads s safe (quiet s') := by
  rintro r ⟨⟩
  refine ⟨done, fun c t enqueuing => ?_⟩
  simp only [silently, same] at enqueuing
  exact ok c t enqueuing

theorem enqueueReturns_eq {r : Int} {inSched : Bool} {u : RrKernel N}
    (result : enqueueReturns s c r inSched = some u) :
    ∃ pc, u = s.goto c pc ∧ pc.enqueuing = none := by
  cases inSched with
  | false =>
    cases result
    exact ⟨_, rfl, rfl⟩
  | true =>
    unfold enqueueReturns at result
    by_cases zero : r = 0
    · simp only [zero, if_true] at result
      cases result
      exact ⟨_, rfl, rfl⟩
    · simp only [zero, if_true, if_false] at result
      cases result

theorem RrMade.enqueueReturns (ok : PcsOk idleThreads s) (done : RrDone idleThreads s s' safe e)
    (same : s'.pc = s.pc) (r : Int) (inSched : Bool) :
    RrMade idleThreads s safe ((enqueueReturns s' c r inSched).map fun u => (u, e)) := by
  cases returns : ChCore.enqueueReturns s' c r inSched with
  | none => exact .stop
  | some u =>
    obtain ⟨pc, rfl, none⟩ := enqueueReturns_eq returns
    exact .change ok done same (by simp [none])

section
variable (ok : PcsOk idleThreads s) (done : RrDone idleThreads s s' safe .silent)
  (same : s'.pc = s.pc) (t : Nat) (inSched : Bool)
include ok done same t inSched

theorem RrMade.enqueueBegins :
    RrMade idleThreads s safe
      ((enqueueBegins idleThreads s' c t inSched).map fun u => (u, .silent)) := by
  unfold ChCore.enqueueBegins
  by_cases idle : IsIdle idleThreads t
  · rw [if_pos idle]
    exact .enqueueReturns ok done same 0 inSched
  · rw [if_neg idle]
    apply RrMade.change ok done same
    intro x enqueuing
    cases enqueuing
    exact idle

theorem RrMade.chooseReturns : RrMade idleThreads s safe (quiet (chooseReturns s' c t inSched)) := by
  apply RrMade.change ok done same
  cases inSched <;> simp [RrPc.enqueuing]

end

variable {d : Fin N}

theorem RrDone.link (harmless : safe) {t : Nat} (free : s.state t ≠ .ready)
    (notIdle : ¬ IsIdle idleThreads t) : RrDone idleThreads s (link s t d) safe (.enqueued t) :=
  .linked t d harmless free notIdle rfl rfl rfl

theorem RrDone.unlink (harmless : safe) {t : Nat} (ready : s.state t = .ready) :
    RrDone idleThreads s (unlink s t) safe .silent :=
  .unlinked t harmless ready rfl rfl rfl

theorem RrDone.storeState {t : Nat} (harmless : safe ↔ s.state t ≠ .ready) (other : st ≠ .ready) :
    RrDone idleThreads s (storeState s t st) safe .silent :=
  .stored t st harmless other rfl rfl rfl

theorem RrDone.storeCpuid {t : Nat} (harmless : safe ↔ (s.state t = .ready → s.cpuid t = d)) :
    RrDone idleThreads s (storeCpuid s t d) safe .silent :=
  .moved t d harmless rfl rfl rfl

theorem rrStep_made (ok : PcsOk idleThreads s) :
    RrMade idleThreads s (StoreSafe s c (s.pc c)) (rrStep idleThreads s c) := by
  unfold rrStep
  cases place : s.pc c with
  | returned | chosen => exact .elsewhere ok (.same trivial rfl rfl rfl) rfl
  | enqueueNoAff t inSched | enqueueAff t inSched =>
    have notIdle := ok c t (by rw [place]; rfl)
    dsimp only
    cases s.affinity t with
    | none | some => exact .goto ok trivial (by rintro x ⟨⟩; exact notIdle)
  | enqueuePrio t cpuid inSched =>
    have notIdle := ok c t (by rw [place]; rfl)
    have unchanged : RrDone idleThreads s s True .silent := .same trivial rfl rfl rfl
    refine .ite (fun _ => .enqueueReturns ok unchanged rfl (-eINVAL) inSched) fun _ => ?_
    by_cases inRange : cpuid < N
    · simp only [inRange, dite_true]
      exact .goto ok trivial (by rintro x ⟨⟩; exact notIdle)
    · simp only [inRange, dite_false]
      exact .enqueueReturns ok unchanged rfl (-eINVAL) inSched
  | enqueueSection t cpuid inSched =>
    have notIdle := ok c t (by rw [place]; rfl)
    refine .ite (fun _ => ?_) fun free => ?_
    · exact .enqueueReturns ok (.same trivial rfl rfl rfl) rfl (-eINVAL) inSched
    · exact .enqueueReturns ok (.link trivial free notIdle) rfl 0 inSched
  | dequeueCpuid t => exact .leave ok trivial rfl
  | dequeueSection t cpuid =>
    refine .ite (fun ready => ?_) fun _ => .leave ok trivial rfl
    exact .change ok (.unlink trivial ready) rfl (by simp [RrPc.enqueuing])
  | chooseEmpty inSched =>
    refine .ite (fun _ => ?_) fun _ => .leave ok trivial rfl
    exact .chooseReturns ok (.same trivial rfl rfl rfl) rfl _ inSched
  | chooseSection inSched =>
    refine .ite (fun _ => .leave ok trivial rfl) fun _ => ?_
    cases found : findNextRunnable s c with
    | none => exact .chooseReturns ok (.same trivial rfl rfl rfl) rfl _ inSched
    | some t =>
      refine .ite (fun ready => ?_) fun _ => .stop
      exact .chooseReturns ok (.unlink trivial ready) rfl t inSched
  | schedRunning | schedBudget =>
    exact .ite (fun _ => .leave ok trivial rfl) fun _ => .leave ok trivial rfl
  | schedWaiting old => exact .ite (fun _ => .leave ok trivial rfl) fun _ => .stop
  | schedOld old => exact .ite (fun _ => .leave ok trivial rfl) fun _ => .leave ok trivial rfl
  | schedRefill | switchStack =>
    apply RrMade.change ok
    · exact .same trivial rfl rfl rfl
    · rfl
    · simp [RrPc.enqueuing]
  | schedInter old =>
    exact .enqueueBegins ok (.storeState Iff.rfl (by simp)) rfl old true
  | switchCheck target =>
    refine .ite (fun _ => .stop) fun _ => ?_
    exact .ite (fun _ => .leave ok trivial rfl) fun _ => .leave ok trivial rfl
  | switchCpuid target =>
    exact .change ok (.storeCpuid Iff.rfl) rfl (by simp [RrPc.enqueuing])
  | switchState target =>
    apply RrMade.change ok (.storeState Iff.rfl (by simp)) rfl
    by_cases itself : s.current c = some target <;> simp [itself, RrPc.enqueuing]

theorem rrOp_made (ok : PcsOk idleThreads s) (op : RrOp N) :
    RrMade idleThreads s (RrSafeOn s op) (rrOp idleThreads s op) := by
  have still : RrMade idleThreads s True (quiet s) := .elsewhere ok (.same trivial rfl rfl rfl) rfl
  cases op with
  | enqueue c t =>
    refine .ite (fun _ => ?_) fun _ => still
    exact .enqueueBegins ok (.same trivial rfl rfl rfl) rfl t false
  | dequeue c t =>
    refine .ite (fun _ => ?_) fun _ => still
    exact .ite (fun _ => .stop) fun _ => .leave ok trivial rfl
  | chooseThread c => exact .ite (fun _ => .leave ok trivial rfl) fun _ => still
  | sched c =>
    refine .ite (fun _ => ?_) fun _ => still
    cases s.current c with
    | none | some => exact .leave ok trivial rfl
  | step c => exact rrStep_made ok
  | setState t state =>
    refine .ite (fun _ => still) fun ready => ?_
    rw [not_or] at ready
    exact .elsewhere ok (.storeState (iff_of_true trivial ready.1) ready.2) rfl
  | setAffinity | setPrio | setBudget | setStack =>
    exact .elsewhere ok (.same trivial rfl rfl rfl) rfl
  | setCurrent c current =>
    exact .ite (fun _ => .elsewhere ok (.same trivial rfl rfl rfl) rfl) fun _ => still

theorem RrSafeOn.of_stopped {op : RrOp N} (stopped : rrOp idleThreads s op = none) :
    RrSafeOn s op := by
  cases op with
  | step c =>
    change StoreSafe s c (s.pc c)
    cases place : s.pc c with
    | schedInter old =>
      by_cases idle : IsIdle idleThreads old
      · simp [rrOp, rrStep, place, enqueueBegins, enqueueReturns, idle] at stopped
      · simp [rrOp, rrStep, place, enqueueBegins, idle] at stopped
    | switchCpuid | switchState => simp [rrOp, rrStep, place, quiet] at stopped
    | _ => trivial
  | _ => trivial

end Outcome

/-! ## The queues -/

structure RrSys (N : Nat) where
  kernel : RrKernel N
  enqueuedAt : Nat → Nat
  clock : Nat

section Queues
variable {N : Nat} (idleThreads : Fin N → Nat)

def RrSys.record (S : RrSys N) (k : RrKernel N) : RrEvent → RrSys N
  | .silent => { S with kernel := k }
  | .enqueued t =>
    { kernel := k
      enqueuedAt := update S.enqueuedAt t S.clock
      clock := S.clock + 1 }

open RrSys

def rrRunStep (S : Option (RrSys N)) (op : RrOp N) : Option (RrSys N) :=
  S.bind fun S => (rrOp idleThreads S.kernel op).map fun r => S.record r.1 r.2

/-- A `TS_READY` thread is linked once, in the queue of its `cpuid`; other threads and idle threads
are in none.  Of the threads whose kernel stack is free, the one enqueued first is chosen. -/
structure ReadyQueues (S : RrSys N) : Prop where
  linked : ∀ t c, (S.kernel.queue c).count t =
    if S.kernel.state t = .ready ∧ ¬ IsIdle idleThreads t ∧ S.kernel.cpuid t = c then 1 else 0
  served : ∀ c t, t ∈ S.kernel.queue c → S.kernel.stackFree t = true →
    ∃ next, findNextRunnable S.kernel c = some next ∧ S.enqueuedAt next ≤ S.enqueuedAt t

def QueuesKept (S : Option (RrSys N)) : Prop := ∀ T ∈ S, ReadyQueues idleThreads T

def RrSafe (S : Option (RrSys N)) (op : RrOp N) : Prop := ∀ T ∈ S, RrSafeOn T.kernel op

instance (S : Option (RrSys N)) (op : RrOp N) : Decidable (RrSafe S op) := by
  unfold RrSafe
  infer_instance

def readyAt (s : RrKernel N) (t : Nat) : Option (Fin N) :=
  if s.state t = .ready ∧ ¬ IsIdle idleThreads t then some (s.cpuid t) else none

structure RrInv (S : RrSys N) : Prop where
  queues : Queued S.kernel.queue (readyAt idleThreads S.kernel)
  idle : ∀ t, IsIdle idleThreads t → S.kernel.state t ≠ .ready
  pcs : PcsOk idleThreads S.kernel
  order : ∀ c, (S.kernel.queue c).Pairwise fun a b => S.enqueuedAt a < S.enqueuedAt b
  past : ∀ c, ∀ t ∈ S.kernel.queue c, S.enqueuedAt t < S.clock

variable {idleThreads} {S : RrSys N} {k : RrKernel N} {t : Nat} {d : Fin N}

theorem readyAt_change {s s' : RrKernel N} (state : s'.state = update s.state t st)
    (cpuid : s'.cpuid = update s.cpuid t d) :
    readyAt idleThreads s' = update (readyAt idleThreads s) t
      (if st = .ready ∧ ¬ IsIdle idleThreads t then some d else none) := by
  funext x
  by_cases same : x = t
  · subst same
    simp only [readyAt, state, cpuid, update_self]
  · simp only [readyAt, state, cpuid, update_of_ne same]

theorem RrInv.ready_linked (inv : RrInv idleThreads S) (ready : S.kernel.state t = .ready) :
    readyAt idleThreads S.kernel t = some (S.kernel.cpuid t) :=
  if_pos ⟨ready, fun idle => inv.idle t idle ready⟩

theorem readyAt_none (free : S.kernel.state t ≠ .ready) : readyAt idleThreads S.kernel t = none :=
  if_neg fun both => free both.1

section
variable (inv : RrInv idleThreads S)
include inv

theorem RrInv.readyQueues : ReadyQueues idleThreads S := by
  refine ⟨fun t c => ?_, fun c t member free => ?_⟩
  · rw [inv.queues.count]
    by_cases ready : S.kernel.state t = .ready ∧ ¬ IsIdle idleThreads t
    · simp only [readyAt, ready, if_true, not_false_eq_true, and_self, true_and, Option.some.injEq]
    · have none : ¬ (S.kernel.state t = .ready ∧ ¬ IsIdle idleThreads t ∧ S.kernel.cpuid t = c) :=
        fun all => ready ⟨all.1, all.2.1⟩
      simp only [readyAt, ready, none, if_false, reduceCtorEq]
  · exact find_least (inv.order c) member (by simp [free])

theorem RrInv.linked (pcs : PcsOk idleThreads k)
    (free : S.kernel.state t ≠ .ready) (notIdle : ¬ IsIdle idleThreads t)
    (state : k.state = update S.kernel.state t .ready) (cpuid : k.cpuid = update S.kernel.cpuid t d)
    (queue : k.queue = update S.kernel.queue d (S.kernel.queue d ++ [t])) :
    RrInv idleThreads (S.record k (.enqueued t)) := by
  have absent : ∀ c, t ∉ S.kernel.queue c := by
    intro c member
    rw [inv.queues.mem, readyAt_none free] at member
    cases member
  have older : ∀ c, ∀ x ∈ S.kernel.queue c, update S.enqueuedAt t S.clock x = S.enqueuedAt x := by
    intro c x member
    have other : x ≠ t := fun same => absent c (same ▸ member)
    exact update_of_ne other _ _
  have order : ∀ c, (S.kernel.queue c).Pairwise fun a b =>
      update S.enqueuedAt t S.clock a < update S.enqueuedAt t S.clock b := by
    intro c
    apply (inv.order c).imp_of_mem
    intro a b first second less
    rw [older c a first, older c b second]
    exact less
  refine ⟨?_, ?_, pcs, ?_, ?_⟩
  · simp only [record, queue, readyAt_change state cpuid, notIdle, not_false_eq_true, and_self,
      if_true]
    exact inv.queues.append (readyAt_none free)
  · intro x idle
    have other : x ≠ t := fun same => notIdle (same ▸ idle)
    simp only [record, state, update_of_ne other]
    exact inv.idle x idle
  · intro c
    simp only [record, queue]
    by_cases here : c = d
    · subst here
      rw [update_self, pairwise_append]
      refine ⟨order c, pairwise_singleton _ _, fun a member b single => ?_⟩
      rw [mem_singleton] at single
      rw [single, update_self, older c a member]
      exact inv.past c a member
    · rw [update_of_ne here]
      exact order c
  · intro c x member
    simp only [record, queue] at member ⊢
    by_cases new : x = t
    · rw [new, update_self]
      exact Nat.lt_succ_self _
    rw [update_of_ne new]
    have old : x ∈ S.kernel.queue c := by
      by_cases here : c = d
      · rw [here, update_self, mem_append, mem_singleton] at member
        exact here ▸ member.resolve_right new
      · rwa [update_of_ne here] at member
    exact Nat.lt_succ_of_lt (inv.past c x old)

theorem RrInv.unlinked (pcs : PcsOk idleThreads k)
    (ready : S.kernel.state t = .ready) (state : k.state = update S.kernel.state t .inter)
    (cpuid : k.cpuid = S.kernel.cpuid) (queue : k.queue = fun c => (S.kernel.queue c).erase t) :
    RrInv idleThreads (S.record k .silent) := by
  have place := inv.ready_linked ready
  have same : k.cpuid = update S.kernel.cpuid t (S.kernel.cpuid t) := by
    rw [update_eq_self, cpuid]
  refine ⟨?_, ?_, pcs, ?_, ?_⟩
  · simp only [record, queue, readyAt_change state same, reduceCtorEq, false_and, if_false]
    rw [inv.queues.erase_all place]
    exact inv.queues.erase place
  · intro x idle
    have other : x ≠ t := fun same => inv.idle t (same ▸ idle) ready
    simp only [record, state, update_of_ne other]
    exact inv.idle x idle
  · intro c
    simp only [record, queue]
    exact (inv.order c).sublist erase_sublist
  · intro c x member
    simp only [record, queue] at member
    exact inv.past c x (mem_of_mem_erase member)

theorem RrInv.stored (pcs : PcsOk idleThreads k) (queue : k.queue = S.kernel.queue)
    (places : readyAt idleThreads k = readyAt idleThreads S.kernel)
    (idle : ∀ x, IsIdle idleThreads x → k.state x ≠ .ready) :
    RrInv idleThreads (S.record k .silent) := by
  refine ⟨?_, idle, pcs, ?_, ?_⟩
  · simp only [record, queue, places]
    exact inv.queues
  · simpa only [record, queue] using inv.order
  · simpa only [record, queue] using inv.past

variable {r : RrKernel N × RrEvent} {op : RrOp N}

theorem RrInv.step (result : rrOp idleThreads S.kernel op = some r) (safe : RrSafeOn S.kernel op) :
    RrInv idleThreads (S.record r.1 r.2) := by
  obtain ⟨k, e⟩ := r
  obtain ⟨done, pcs⟩ := rrOp_made inv.pcs op _ result
  dsimp only at done pcs ⊢
  cases done with
  | same _ state cpuid queue =>
    apply inv.stored pcs queue
    · funext x
      simp only [readyAt, state, cpuid]
    · simpa only [state] using inv.idle
  | linked t d _ free notIdle state cpuid queue =>
    exact inv.linked pcs free notIdle state cpuid queue
  | unlinked t _ ready state cpuid queue => exact inv.unlinked pcs ready state cpuid queue
  | stored t st harmless other state cpuid queue =>
    have free := harmless.mp safe
    have same : k.cpuid = update S.kernel.cpuid t (S.kernel.cpuid t) := by
      rw [update_eq_self, cpuid]
    apply inv.stored pcs queue
    · rw [readyAt_change state same, if_neg (fun both => other both.1), ← readyAt_none free,
        update_eq_self]
    rw [state]
    exact (forall_update_iff S.kernel.state fun x st => IsIdle idleThreads x → st ≠ .ready).mpr
      ⟨fun _ => other, fun x _ => inv.idle x⟩
  | moved t d harmless state cpuid queue =>
    have keeps := harmless.mp safe
    apply inv.stored pcs queue
    · funext x
      by_cases here : x = t
      · subst here
        by_cases ready : S.kernel.state x = .ready
        · simp only [readyAt, state, cpuid, update_self, keeps ready]
        · simp only [readyAt, state, ready, false_and, if_false]
      · simp only [readyAt, state, cpuid, update_of_ne here]
    · simpa only [state] using inv.idle

theorem RrInv.safe (result : rrOp idleThreads S.kernel op = some r)
    (kept : ReadyQueues idleThreads (S.record r.1 r.2)) : RrSafeOn S.kernel op := by
  obtain ⟨k, e⟩ := r
  obtain ⟨done, _⟩ := rrOp_made inv.pcs op _ result
  dsimp only at done kept
  cases done with
  | same harmless _ _ _ | linked _ _ harmless _ _ _ _ _ | unlinked _ harmless _ _ _ _ =>
    exact harmless
  | stored t st harmless other state cpuid queue =>
    rw [harmless]
    intro ready
    -- it is linked, and after the store it is not ready
    have before := inv.queues.count (t := t) (i := S.kernel.cpuid t)
    have after := kept.linked t (S.kernel.cpuid t)
    simp only [record, queue, state, update_self, other, false_and, if_false] at after
    rw [inv.ready_linked ready, if_pos rfl, after] at before
    cases before
  | moved t d harmless state cpuid queue =>
    rw [harmless]
    intro ready
    have notIdle : ¬ IsIdle idleThreads t := fun idle => inv.idle t idle ready
    have before := inv.queues.count (t := t) (i := d)
    have after := kept.linked t d
    simp only [record, queue, state, cpuid, update_self, ready, notIdle,
      not_false_eq_true, and_self, if_true] at after
    rw [inv.ready_linked ready, after] at before
    by_contra other
    rw [if_neg (fun same => other (Option.some.inj same))] at before
    cases before

end

structure RrStart (S : RrSys N) : Prop where
  queue : ∀ c, S.kernel.queue c = []
  state : ∀ t, S.kernel.state t ≠ .ready
  out : ∀ c, (S.kernel.pc c).isOut = true

theorem RrStart.inv (start : RrStart S) : RrInv idleThreads S := by
  refine ⟨?_, fun t _ => start.state t, ?_, ?_, ?_⟩
  · intro c
    simp [start.queue c, readyAt_none (start.state _)]
  · intro c t enqueuing
    have out := start.out c
    cases place : S.kernel.pc c <;> simp [place, RrPc.isOut, RrPc.enqueuing] at out enqueuing
  · intro c
    simp [start.queue c]
  · intro c
    simp [start.queue c]

end Queues

def core0 : Fin 2 := ⟨0, Nat.two_pos⟩

def core1 : Fin 2 := ⟨1, Nat.one_lt_two⟩

def exampleRr : RrSys 2 where
  kernel :=
    { state := fun t => if t = 10 then .running else .init
      cpuid := fun _ => core0
      affinity := fun _ => none
      prio := fun _ => 10
      budget := fun _ => 0
      stackFree := fun t => t ≠ 10
      queue := fun _ => []
      current := fun c => if c = core0 then some 10 else none
      pc := fun _ => .returned 0 }
  enqueuedAt := fun _ => 0
  clock := 0

def exampleIdle : Fin 2 → Nat := fun c => 20 + c.val

theorem exampleRr_start : RrStart exampleRr where
  queue := fun _ => rfl
  state := by
    intro t
    simp only [exampleRr]
    split <;> simp
  out := fun _ => rfl

def exampleSwitch : List (RrOp 2) :=
  [.enqueue core0 11, .step core0, .step core0, .step core0, .sched core0] ++
    replicate 14 (.step core0)

def exampleEnqueueRace : List (RrOp 2) :=
  [.sched core0, .step core0, .step core0, .step core0, .step core0, .enqueue core1 10, .step core1,
    .step core1, .step core1, .step core0]

end KernelLabs.ChCore
