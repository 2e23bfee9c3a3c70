import KernelLabs.Lib.Runs
import KernelLabs.ChCore.User.FlexIpc
import Mathlib.Data.List.Nodup
import Mathlib.Data.Nat.Basic

/-!
# Flex-IPC over every interleaving

Both handshakes are a load followed by a store: two pollers can both read
`LWIP_REQ_SUBMITTED` before either stores `LWIP_REQ_BUSY`, and two coroutines can both
read `occupied == 0` before either stores 1.  In every run without such a double reading
a slot goes through the phases below one after the other, and every submission is served
once.

`SlotOk` says what a phase means for the memory of the slot and for every party.  A party
concerns a slot only through its stage there, so that a step is checked at the one slot
it is about.
-/

set_option autoImplicit false

namespace KernelLabs.ChCore

open Lib List ClientPc
open Function (comp_update forall_update_iff update update_eq_self update_of_ne update_self)

/-! ## Phases of a slot -/

inductive Work where
  | submitted
  | claimed (p : Fin flexLwipHandleThread)
  | dispatching (p : Fin flexLwipHandleThread)
  | returning (p : Fin flexLwipHandleThread) (ret : Int)
  | done (ret : Int)

inductive Phase where
  | free
  | creating (c : Nat)
  | held (c : Nat)
  /-- In `flex_ipc_call`, before the submission. -/
  | entered (c : Nat)
  | waiting (c : Nat) (work : Work)

def Phase.owner : Phase → Option Nat
  | .free => none
  | .creating c | .held c | .entered c | .waiting c _ => some c

def Phase.occupied : Phase → Bool
  | .free | .creating _ => false
  | .held _ | .entered _ | .waiting _ _ => true

def Work.reqState : Work → ReqState
  | .submitted | .claimed _ => .submitted
  | .dispatching _ | .returning _ _ => .busy
  | .done _ => .done

def Phase.reqState : Phase → ReqState
  | .free | .creating _ | .held _ | .entered _ => .init
  | .waiting _ work => work.reqState

/-- The poller at work on the slot and where it stands; `k` is the submission. -/
def Work.worker (k : Nat) : Work → Option (Fin flexLwipHandleThread × PollStage)
  | .submitted | .done _ => none
  | .claimed p => some (p, .claim)
  | .dispatching p => some (p, .dispatching k)
  | .returning p _ => some (p, .returning)

def Phase.worker (k : Nat) : Phase → Option (Fin flexLwipHandleThread × PollStage)
  | .free | .creating _ | .held _ | .entered _ => none
  | .waiting _ work => work.worker k

def Phase.Allows (slot : FlexSlot) : Phase → Option CallStage → Prop
  | .free, _ => False
  | .creating _, stage => (∃ dataLen, stage = some (.found dataLen) ∧ dataLen < 2 ^ 32) ∨
      stage = some .wroteLen ∨ (stage = some .wroteOffset ∧ slot.opened = true)
  | .held _, stage => stage = none
  | .entered _, stage => stage = some (.loop none) ∨ stage = some (.submit none)
  | .waiting _ work, stage => ∃ k, k + 1 = slot.subs ∧
      (stage = some (.loop (some k)) ∨ stage = some (.check (some k)) ∨
        ∃ ret, work = .done ret ∧
          (stage = some (.result (some k)) ∨ stage = some (.finish (some k) ret)))

open Phase

/-- Of the submissions below `n` each was dispatched at most once, and each call returned what the
dispatch of its own submission stored. -/
structure ServedOk (dispatched : List Nat) (stored : List (Nat × Int))
    (returned : List (Option Nat × Int)) (n : Nat) : Prop where
  once : dispatched.Nodup
  dispatchedLt : ∀ k ∈ dispatched, k < n
  storedLt : ∀ e ∈ stored, e.1 < n
  answered : ∀ e ∈ returned, ∃ k, k < n ∧ e.1 = some k ∧ storedBy stored k = [e.2]

def WorkOk (slot : FlexSlot) (n : Nat) : Work → Prop
  | .submitted | .claimed _ => ServedOk slot.dispatched slot.stored slot.returned n
  | .dispatching _ => ∃ rest, slot.dispatched = n :: rest ∧ ServedOk rest slot.stored slot.returned n
  | .returning _ ret | .done ret => ∃ rest older, slot.dispatched = n :: rest ∧
      slot.stored = (n, ret) :: older ∧ slot.ret = ret ∧ ServedOk rest older slot.returned n

def HistoryOk (slot : FlexSlot) : Phase → Prop
  | .free | .creating _ | .held _ | .entered _ =>
    ServedOk slot.dispatched slot.stored slot.returned slot.subs
  | .waiting _ work => ∃ n, n + 1 = slot.subs ∧ WorkOk slot n work

structure MemOk (slot : FlexSlot) (phase : Phase) : Prop where
  dataLen : slot.dataLen < 2 ^ 32
  occupied : slot.occupied = phase.occupied
  opened : phase.occupied = true → slot.opened = true
  reqState : slot.reqState = phase.reqState
  history : HistoryOk slot phase

def Idles (slot : FlexSlot) (poll : Option PollStage) : Prop :=
  poll = none ∨ ∃ opened, poll = some (.loaded opened) ∧ (opened = true → slot.opened = true)

/-- The slot is in the phase: `stage` and `holds` say where the clients stand at the slot
and who has a message there, `poll` where the pollers stand. -/
structure SlotOk (slot : FlexSlot) (stage : Nat → Option CallStage) (holds : Nat → Prop)
    (poll : Fin flexLwipHandleThread → Option PollStage) (phase : Phase) : Prop where
  mem : MemOk slot phase
  owner : ∀ c, phase.owner = some c →
    phase.Allows slot (stage c) ∧ (holds c ↔ phase.occupied = true)
  others : ∀ c, phase.owner ≠ some c → stage c = none ∧ ¬ holds c
  worker : ∀ p st, phase.worker (slot.subs - 1) = some (p, st) → poll p = some st
  idlers : ∀ p, (∀ st, phase.worker (slot.subs - 1) ≠ some (p, st)) → Idles slot (poll p)

section Slot
variable {slot slot' : FlexSlot} {stage : Nat → Option CallStage} {holds : Nat → Prop}
  {poll : Fin flexLwipHandleThread → Option PollStage} {phase phase' : Phase} {c : Nat}
  {p : Fin flexLwipHandleThread} {st : Option PollStage}

theorem Idles.mono (idles : Idles slot st) (opened : slot.opened = true → slot'.opened = true) :
    Idles slot' st := by
  rcases idles with none | ⟨b, loaded, open'⟩
  · exact .inl none
  · exact .inr ⟨b, loaded, fun yes => opened (open' yes)⟩

variable (ok : SlotOk slot stage holds poll phase)
include ok

theorem SlotOk.owner_of_stage {st : CallStage} (here : stage c = some st) :
    phase.owner = some c ∧ phase.Allows slot (some st) ∧ (holds c ↔ phase.occupied = true) := by
  have own : phase.owner = some c := by
    by_contra other
    rw [(ok.others c other).1] at here
    cases here
  exact ⟨own, here ▸ ok.owner c own⟩

theorem SlotOk.held_of_holds (idle : stage c = none) (has : holds c) : phase = .held c := by
  have own : phase.owner = some c := by
    by_contra other
    exact (ok.others c other).2 has
  obtain ⟨allows, occupied⟩ := ok.owner c own
  rw [idle] at allows
  cases phase with
  | free => cases own
  | creating c' => cases occupied.mp has
  | held c' => cases own; rfl
  | entered | waiting => simp [Allows] at allows

theorem SlotOk.client_step {st : Option CallStage} {has : Prop}
    (mine : phase.owner = some c ∨ phase.owner = none) (mem : MemOk slot' phase')
    (now : (phase'.owner = some c ∧ phase'.Allows slot' st ∧ (has ↔ phase'.occupied = true)) ∨
      (phase'.owner = none ∧ st = none ∧ ¬ has))
    (working : phase'.worker (slot'.subs - 1) = phase.worker (slot.subs - 1))
    (opened : slot.opened = true → slot'.opened = true) :
    SlotOk slot' (update stage c st) (update holds c has) poll phase' := by
  have away : ∀ c', c' ≠ c → stage c' = none ∧ ¬ holds c' := by
    intro c' differ
    apply ok.others
    rcases mine with own | own <;> rw [own]
    · exact fun same => differ (Option.some.inj same).symm
    · exact fun same => by cases same
  refine ⟨mem, ?_, ?_, ?_, ?_⟩
  · intro c' own'
    rcases now with ⟨own, allows, has'⟩ | ⟨own, _⟩
    · obtain rfl : c = c' := Option.some.inj (own.symm.trans own')
      rw [update_self, update_self]
      exact ⟨allows, has'⟩
    · rw [own] at own'
      cases own'
  · intro c' other
    by_cases same : c' = c
    · subst same
      rw [update_self, update_self]
      rcases now with ⟨own, _⟩ | ⟨_, gone⟩
      · exact absurd own other
      · exact gone
    · rw [update_of_ne same, update_of_ne same]
      exact away c' same
  · rw [working]
    exact ok.worker
  · rw [working]
    intro p idle
    exact (ok.idlers p idle).mono opened

theorem SlotOk.idler_step (idle : ∀ st, phase.worker (slot.subs - 1) ≠ some (p, st))
    (idles : Idles slot st) : SlotOk slot stage holds (update poll p st) phase := by
  refine ⟨ok.mem, ok.owner, ok.others, ?_, ?_⟩
  · intro q at' busy
    have differ : q ≠ p := fun same => idle at' (same ▸ busy)
    rw [update_of_ne differ]
    exact ok.worker q at' busy
  intro q idle'
  by_cases same : q = p
  · subst same
    rw [update_self]
    exact idles
  · rw [update_of_ne same]
    exact ok.idlers q idle'

theorem SlotOk.worker_step (mine : ∀ q st, phase.worker (slot.subs - 1) = some (q, st) → q = p)
    (mem : MemOk slot' phase') (owner : phase'.owner = phase.owner)
    (occupied : phase'.occupied = phase.occupied)
    (allows : ∀ st, phase.Allows slot st → phase'.Allows slot' st)
    (opened : slot'.opened = slot.opened)
    (now : (∃ at', phase'.worker (slot'.subs - 1) = some (p, at') ∧ st = some at') ∨
      (phase'.worker (slot'.subs - 1) = none ∧ st = none)) :
    SlotOk slot' stage holds (update poll p st) phase' := by
  refine ⟨mem, ?_, ?_, ?_, ?_⟩
  · intro c own
    rw [owner] at own
    rw [occupied]
    exact ⟨allows _ (ok.owner c own).1, (ok.owner c own).2⟩
  · rw [owner]
    exact ok.others
  · intro q at' busy
    rcases now with ⟨at'', work, stands⟩ | ⟨none, _⟩
    · rw [work] at busy
      cases busy
      rw [update_self]
      exact stands
    · rw [none] at busy
      cases busy
  · intro q idle
    by_cases same : q = p
    · subst same
      rcases now with ⟨at'', work, _⟩ | ⟨_, stands⟩
      · exact absurd work (idle at'')
      · rw [update_self]
        exact .inl stands
    · rw [update_of_ne same]
      refine (ok.idlers q ?_).mono (fun yes => opened ▸ yes)
      exact fun at' busy => same (mine q at' busy)

end Slot

/-! ## The steps at a slot -/

def ClientPc.stageAt (i : Nat) : ClientPc → Option CallStage
  | .on j stage => if j = i then some stage else none
  | .idle | .scan _ _ _ => none

@[simp] theorem ClientPc.stageAt_on (i : Nat) (stage : CallStage) :
    (on i stage).stageAt i = some stage := if_pos rfl

@[simp] theorem ClientPc.stageAt_idle (i : Nat) : idle.stageAt i = none := rfl

section Steps
variable {slot : FlexSlot} {stage : Nat → Option CallStage} {holds : Nat → Prop}
  {poll : Fin flexLwipHandleThread → Option PollStage} {phase : Phase} {c : Nat}

theorem ServedOk.finish {dispatched : List Nat} {stored : List (Nat × Int)}
    {returned : List (Option Nat × Int)} {n : Nat} (served : ServedOk dispatched stored returned n)
    (ret : Int) :
    ServedOk (n :: dispatched) ((n, ret) :: stored) ((some n, ret) :: returned) (n + 1) := by
  have own : storedBy ((n, ret) :: stored) n = [ret] := by
    have none : stored.filter (·.1 = n) = [] := by
      rw [filter_eq_nil_iff]
      intro e member
      have := served.storedLt e member
      simp only [decide_eq_true_eq]
      omega
    simp [storedBy, none]
  have before : ∀ k, k < n → storedBy ((n, ret) :: stored) k = storedBy stored k := by
    intro k below
    have differ : n ≠ k := by omega
    simp [storedBy, differ]
  refine ⟨?_, ?_, ?_, ?_⟩
  · rw [nodup_cons]
    exact ⟨fun member => lt_irrefl n (served.dispatchedLt n member), served.once⟩
  · exact forall_mem_cons.mpr
      ⟨Nat.lt_succ_self n, fun k older => Nat.lt_succ_of_lt (served.dispatchedLt k older)⟩
  · exact forall_mem_cons.mpr
      ⟨Nat.lt_succ_self n, fun e older => Nat.lt_succ_of_lt (served.storedLt e older)⟩
  · intro e member
    rcases mem_cons.mp member with rfl | older
    · exact ⟨n, Nat.lt_succ_self n, rfl, own⟩
    · obtain ⟨k, below, submission, answer⟩ := served.answered e older
      exact ⟨k, Nat.lt_succ_of_lt below, submission, (before k below).trans answer⟩

/-! ### `flex_ipc_create_msg` -/

variable (ok : SlotOk slot stage holds poll phase)
include ok

theorem SlotOk.creating_of_stage {st : CallStage}
    (here : stage c = some st) (creates : (∃ len, st = .found len) ∨ st = .wroteLen ∨
      st = .wroteOffset) : phase = .creating c := by
  obtain ⟨own, allows, _⟩ := ok.owner_of_stage here
  cases phase with
  | free => cases own
  | creating c' => cases own; rfl
  | held c' => simp [Allows] at allows
  | entered | waiting => rcases creates with ⟨len, rfl⟩ | rfl | rfl <;> simp [Allows] at allows

variable {own : Option Nat} {opened : Bool} {st : PollStage} {len : Nat}

/-- The slot is taken up: nobody else has read it as free. -/
theorem SlotOk.find (unoccupied : slot.occupied = false) (short : len < 2 ^ 32)
    (alone : ∀ c', phase ≠ .creating c') :
    SlotOk slot (update stage c (some (.found len))) (update holds c (holds c))
      poll (.creating c) := by
  have empty := ok.mem.occupied
  rw [unoccupied] at empty
  cases phase with
  | free =>
    refine ok.client_step (.inr rfl) { ok.mem with }
      (.inl ⟨rfl, .inl ⟨len, rfl, short⟩, ?_⟩) rfl id
    exact ⟨fun has => absurd has (ok.others c nofun).2, nofun⟩
  | creating c' => exact absurd rfl (alone c')
  | held c' | entered c' | waiting c' work => cases empty

theorem SlotOk.writeLen (here : stage c = some (.found len)) :
    SlotOk { slot with dataLen := len } (update stage c (some .wroteLen))
      (update holds c (holds c)) poll phase := by
  obtain rfl := ok.creating_of_stage here (.inl ⟨len, rfl⟩)
  obtain ⟨own, allows, has⟩ := ok.owner_of_stage here
  have short : len < 2 ^ 32 := by simpa [Allows] using allows
  exact ok.client_step (.inl rfl) { ok.mem with dataLen := short }
    (.inl ⟨rfl, .inr (.inl rfl), has⟩) rfl id

theorem SlotOk.writeOffset (here : stage c = some .wroteLen) :
    SlotOk { slot with opened := true } (update stage c (some .wroteOffset))
      (update holds c (holds c)) poll phase := by
  obtain rfl := ok.creating_of_stage here (.inr (.inl rfl))
  obtain ⟨own, _, has⟩ := ok.owner_of_stage here
  exact ok.client_step (.inl rfl) { ok.mem with opened := fun _ => rfl }
    (.inl ⟨rfl, .inr (.inr ⟨rfl, rfl⟩), has⟩) rfl (fun _ => rfl)

theorem SlotOk.occupy (here : stage c = some .wroteOffset) :
    SlotOk { slot with occupied := true } (update stage c none)
      (update holds c True) poll (.held c) := by
  obtain rfl := ok.creating_of_stage here (.inr (.inr rfl))
  obtain ⟨own, allows, _⟩ := ok.owner_of_stage here
  have opened : slot.opened = true := by simpa [Allows] using allows
  exact ok.client_step (.inl rfl) { ok.mem with occupied := rfl, opened := fun _ => opened }
    (.inl ⟨rfl, rfl, iff_of_true trivial rfl⟩) rfl id

/-! ### Between calls -/

section
variable (idle : stage c = none) (has : holds c)
include idle has

theorem SlotOk.fill :
    SlotOk { slot with reqState := .init } (update stage c none)
      (update holds c (holds c)) poll phase := by
  obtain rfl := ok.held_of_holds idle has
  exact ok.client_step (.inl rfl) { ok.mem with reqState := rfl }
    (.inl ⟨rfl, rfl, (ok.owner c rfl).2⟩) rfl id

theorem SlotOk.enter :
    SlotOk slot (update stage c (some (.loop none))) (update holds c (holds c))
      poll (.entered c) := by
  obtain rfl := ok.held_of_holds idle has
  exact ok.client_step (.inl rfl) { ok.mem with }
    (.inl ⟨rfl, .inl rfl, (ok.owner c rfl).2⟩) rfl id

theorem SlotOk.destroy :
    SlotOk { slot with occupied := false } (update stage c none)
      (update holds c False) poll .free := by
  obtain rfl := ok.held_of_holds idle has
  exact ok.client_step (.inl rfl) { ok.mem with occupied := rfl, opened := nofun }
    (.inr ⟨rfl, rfl, not_false⟩) rfl id

end

/-! ### `flex_ipc_call` -/

theorem SlotOk.loop (here : stage c = some (.loop own)) :
    SlotOk slot (update stage c
        (some (if slot.reqState = .init then .submit own else .check own)))
      (update holds c (holds c)) poll phase := by
  obtain ⟨mine, allows, has⟩ := ok.owner_of_stage here
  refine ok.client_step (.inl mine) ok.mem (.inl ⟨mine, ?_, has⟩) rfl id
  rw [ok.mem.reqState]
  cases phase with
  | free => cases mine
  | creating | held => simp [Allows] at allows
  | entered c' =>
    obtain rfl : own = none := by simpa [Allows] using allows
    exact .inr rfl
  | waiting c' work =>
    obtain ⟨k, current, stands⟩ := allows
    obtain rfl : own = some k := by simpa using stands
    refine ⟨k, current, .inr (.inl ?_)⟩
    cases work <;> rfl

theorem SlotOk.submit (here : stage c = some (.submit own)) :
    SlotOk { slot with reqState := .submitted, subs := slot.subs + 1 }
      (update stage c (some (.check (some slot.subs)))) (update holds c (holds c))
      poll (.waiting c .submitted) := by
  obtain ⟨mine, allows, has⟩ := ok.owner_of_stage here
  cases phase with
  | free => cases mine
  | creating | held | waiting => simp [Allows] at allows
  | entered c' =>
    cases mine
    exact ok.client_step (.inl rfl)
      { ok.mem with reqState := rfl, history := ⟨slot.subs, rfl, ok.mem.history⟩ }
      (.inl ⟨rfl, ⟨slot.subs, rfl, .inr (.inl rfl)⟩, has⟩) rfl id

theorem SlotOk.waiting_of_stage {st : CallStage} (here : stage c = some st)
    (waits : st = .check own ∨ st = .result own ∨ ∃ ret, st = .finish own ret) :
    ∃ work, phase = .waiting c work := by
  obtain ⟨mine, allows, _⟩ := ok.owner_of_stage here
  cases phase with
  | free => cases mine
  | creating | entered => rcases waits with rfl | rfl | ⟨ret, rfl⟩ <;> simp [Allows] at allows
  | held c' => simp [Allows] at allows
  | waiting c' work => cases mine; exact ⟨work, rfl⟩

theorem SlotOk.check (here : stage c = some (.check own)) :
    SlotOk slot (update stage c
        (some (if slot.reqState = .done then .result own else .loop own)))
      (update holds c (holds c)) poll phase := by
  obtain ⟨work, rfl⟩ := ok.waiting_of_stage here (.inl rfl)
  obtain ⟨mine, ⟨k, current, stands⟩, has⟩ := ok.owner_of_stage here
  obtain rfl : own = some k := by simpa using stands
  refine ok.client_step (.inl mine) ok.mem (.inl ⟨mine, ⟨k, current, ?_⟩, has⟩) rfl id
  rw [ok.mem.reqState]
  cases work with
  | done ret => exact .inr (.inr ⟨ret, rfl, .inl rfl⟩)
  | submitted | claimed p | dispatching p | returning p ret => exact .inl rfl

theorem SlotOk.done_of_stage {st : CallStage} (here : stage c = some st)
    (ends : st = .result own ∨ ∃ ret, st = .finish own ret) :
    ∃ k ret, phase = .waiting c (.done ret) ∧ own = some k ∧ k + 1 = slot.subs ∧
      (∀ v, st = .finish own v → v = ret) := by
  obtain ⟨work, rfl⟩ := ok.waiting_of_stage here (.inr ends)
  obtain ⟨mine, ⟨k, current, stands⟩, _⟩ := ok.owner_of_stage here
  rcases ends with rfl | ⟨v, rfl⟩
  · obtain ⟨⟨ret, rfl⟩, rfl⟩ : (∃ ret, work = .done ret) ∧ own = some k := by simpa using stands
    exact ⟨k, ret, rfl, rfl, current, nofun⟩
  · obtain ⟨rfl, rfl⟩ : work = .done v ∧ own = some k := by simpa using stands
    refine ⟨k, v, rfl, rfl, current, ?_⟩
    intro v' same
    cases same
    rfl

theorem SlotOk.result (here : stage c = some (.result own)) :
    SlotOk slot (update stage c (some (.finish own slot.ret)))
      (update holds c (holds c)) poll phase := by
  obtain ⟨k, ret, rfl, rfl, current, _⟩ := ok.done_of_stage here (.inl rfl)
  obtain ⟨mine, _, has⟩ := ok.owner_of_stage here
  obtain ⟨n, _, rest, older, _, _, value, _⟩ := ok.mem.history
  refine ok.client_step (.inl mine) ok.mem (.inl ⟨mine, ⟨k, current, ?_⟩, has⟩) rfl id
  exact .inr (.inr ⟨ret, rfl, .inr (by rw [value])⟩)

theorem SlotOk.finish {v : Int} (here : stage c = some (.finish own v)) :
    SlotOk { slot with reqState := .init, returned := (own, v) :: slot.returned }
      (update stage c none) (update holds c (holds c)) poll (.held c) := by
  obtain ⟨k, ret, rfl, rfl, current, value⟩ := ok.done_of_stage here (.inr ⟨v, rfl⟩)
  obtain rfl := value v rfl
  obtain ⟨mine, _, has⟩ := ok.owner_of_stage here
  obtain ⟨n, last, rest, older, dispatched, stored, _, served⟩ := ok.mem.history
  obtain rfl : n = k := by omega
  have served := served.finish v
  rw [← dispatched, ← stored, current] at served
  exact ok.client_step (.inl rfl) { ok.mem with reqState := rfl, history := served }
    (.inl ⟨rfl, rfl, has⟩) rfl id

theorem SlotOk.call_step {st : CallStage} (here : stage c = some st) (i : Nat) :
    ∃ phase', SlotOk (callSlot slot i st).1
      (update stage c ((callSlot slot i st).2.1.stageAt i))
      (update holds c (if (callSlot slot i st).2.2 then True else holds c)) poll phase' := by
  cases st with
  | found len => exact ⟨phase, by simpa [callSlot] using ok.writeLen here⟩
  | wroteLen => exact ⟨phase, by simpa [callSlot] using ok.writeOffset here⟩
  | wroteOffset => exact ⟨.held c, by simpa [callSlot] using ok.occupy here⟩
  | loop own => exact ⟨phase, by simpa [callSlot] using ok.loop here⟩
  | submit own => exact ⟨.waiting c .submitted, by simpa [callSlot] using ok.submit here⟩
  | check own => exact ⟨phase, by simpa [callSlot] using ok.check here⟩
  | result own => exact ⟨phase, by simpa [callSlot] using ok.result here⟩
  | finish own ret => exact ⟨.held c, by simpa [callSlot] using ok.finish here⟩

/-! ### The pollers -/

variable {p : Fin flexLwipHandleThread}

theorem SlotOk.not_worker (here : poll p = none ∨ ∃ opened, poll p = some (.loaded opened))
    (st : PollStage) : phase.worker (slot.subs - 1) ≠ some (p, st) := by
  intro busy
  have stands := ok.worker p st busy
  cases phase with
  | free | creating c | held c | entered c => cases busy
  | waiting c work =>
    cases work with
    | submitted | done ret => cases busy
    | claimed q | dispatching q | returning q ret =>
      cases busy
      rcases here with none | ⟨opened, loaded⟩
      · rw [none] at stands
        cases stands
      · rw [loaded] at stands
        cases stands

theorem SlotOk.pollOffset (here : poll p = none) :
    SlotOk slot stage holds (update poll p (some (.loaded slot.opened))) phase :=
  ok.idler_step (ok.not_worker (.inl here)) (.inr ⟨slot.opened, rfl, id⟩)

theorem SlotOk.pollPass (here : poll p = some (.loaded opened)) :
    SlotOk slot stage holds (update poll p none) phase :=
  ok.idler_step (ok.not_worker (.inr ⟨opened, here⟩)) (.inl rfl)

/-- A request that seems submitted is, also to a poller that loaded the offset 0. -/
theorem SlotOk.submitted_of_seems (seems : slot.seemsSubmitted opened = true) :
    ∃ c work, phase = .waiting c work ∧ work.reqState = .submitted := by
  have state : slot.reqState = .submitted := by
    unfold FlexSlot.seemsSubmitted at seems
    split at seems
    · simpa using seems
    · have small := ok.mem.dataLen
      simp only [decide_eq_true_eq] at seems
      omega
  rw [ok.mem.reqState] at state
  cases phase with
  | free | creating c | held c | entered c => cases state
  | waiting c work => exact ⟨c, work, rfl, state⟩

/-- The request is taken up: nobody else has read it as submitted. -/
theorem SlotOk.pollClaim (here : poll p = some (.loaded opened))
    (seems : slot.seemsSubmitted opened = true) (alone : ∀ q, q ≠ p → poll q ≠ some .claim) :
    ∃ c, SlotOk slot stage holds (update poll p (some .claim)) (.waiting c (.claimed p)) := by
  obtain ⟨c, work, rfl, state⟩ := ok.submitted_of_seems seems
  have idle := ok.not_worker (.inr ⟨opened, here⟩)
  cases work with
  | submitted =>
    refine ⟨c, ok.worker_step nofun { ok.mem with } rfl rfl ?_ rfl (.inl ⟨.claim, rfl, rfl⟩)⟩
    rintro st ⟨k, current, stands⟩
    exact ⟨k, current, by simpa using stands⟩
  | claimed q =>
    have other := ok.worker q .claim rfl
    by_cases same : q = p
    · exact absurd (by rw [same]; rfl) (idle .claim)
    · exact absurd other (alone q same)
  | dispatching q | returning q ret | done ret => cases state

theorem SlotOk.worker_of_stage (here : poll p = some st) (works : ∀ opened, st ≠ .loaded opened) :
    ∃ c work, phase = .waiting c work ∧ work.worker (slot.subs - 1) = some (p, st) := by
  have busy : phase.worker (slot.subs - 1) = some (p, st) := by
    by_contra idle
    have idles : Idles slot (poll p) := by
      apply ok.idlers
      intro st' busy
      have stands := ok.worker p st' busy
      rw [here] at stands
      cases stands
      exact idle busy
    rcases idles with none | ⟨opened, loaded, _⟩
    · rw [here] at none
      cases none
    · rw [here] at loaded
      exact works opened (Option.some.inj loaded)
  cases phase with
  | free | creating c | held c | entered c => cases busy
  | waiting c work => exact ⟨c, work, rfl, busy⟩

omit ok in
/-- The steps of the poller at work change neither the submission nor the stages of the
client that waits for it. -/
theorem SlotOk.work_step {slot' : FlexSlot} {work work' : Work}
    (ok : SlotOk slot stage holds poll (.waiting c work))
    (mine : work.worker (slot.subs - 1) = some (p, st)) (mem : MemOk slot' (.waiting c work'))
    (subs : slot'.subs = slot.subs) (opened : slot'.opened = slot.opened) {now : Option PollStage}
    (next : (∃ st', work'.worker (slot'.subs - 1) = some (p, st') ∧ now = some st') ∨
      (work'.worker (slot'.subs - 1) = none ∧ now = none)) :
    SlotOk slot' stage holds (update poll p now) (.waiting c work') := by
  refine ok.worker_step ?_ mem rfl rfl ?_ opened next
  · intro q at' busy
    have same : some (p, st) = some (q, at') := mine.symm.trans busy
    cases same
    rfl
  rintro stands ⟨k, current, where'⟩
  refine ⟨k, by rw [subs]; exact current, ?_⟩
  rcases where' with loop | check | ⟨ret, rfl, _⟩
  · exact .inl loop
  · exact .inr (.inl check)
  · cases mine

theorem SlotOk.pollBusy (here : poll p = some .claim) :
    ∃ c, SlotOk { slot with reqState := .busy, dispatched := (slot.subs - 1) :: slot.dispatched }
      stage holds (update poll p (some (.dispatching (slot.subs - 1))))
      (.waiting c (.dispatching p)) := by
  obtain ⟨c, work, rfl, mine⟩ := ok.worker_of_stage here nofun
  cases work with
  | submitted | dispatching q | returning q ret | done ret => cases mine
  | claimed q =>
    obtain ⟨n, current, served⟩ := ok.mem.history
    obtain rfl : n = slot.subs - 1 := by omega
    refine ⟨c, ?_⟩
    apply ok.work_step mine
    · exact { ok.mem with
        reqState := rfl, history := ⟨_, current, slot.dispatched, rfl, served⟩ }
    · rfl
    · rfl
    · exact .inl ⟨_, rfl, rfl⟩

theorem SlotOk.pollStore {sub : Nat} (here : poll p = some (.dispatching sub)) (ret : Int) :
    ∃ c, SlotOk { slot with ret := ret, stored := (sub, ret) :: slot.stored }
      stage holds (update poll p (some .returning)) (.waiting c (.returning p ret)) := by
  obtain ⟨c, work, rfl, mine⟩ := ok.worker_of_stage here nofun
  cases work with
  | submitted | claimed q | returning q ret | done ret => cases mine
  | dispatching q =>
    obtain ⟨n, current, rest, dispatched, served⟩ := ok.mem.history
    obtain rfl : sub = n := by
      have submission : slot.subs - 1 = sub := by
        cases mine
        rfl
      omega
    refine ⟨c, ?_⟩
    apply ok.work_step mine
    · exact { ok.mem with
        history := ⟨sub, current, rest, slot.stored, dispatched, rfl, rfl, served⟩ }
    · rfl
    · rfl
    · exact .inl ⟨_, rfl, rfl⟩

theorem SlotOk.pollDone (here : poll p = some .returning) :
    ∃ phase', SlotOk { slot with reqState := .done } stage holds (update poll p none) phase' := by
  obtain ⟨c, work, rfl, mine⟩ := ok.worker_of_stage here nofun
  cases work with
  | submitted | claimed q | dispatching q | done ret => cases mine
  | returning q ret =>
    refine ⟨.waiting c (.done ret), ?_⟩
    apply ok.work_step mine
    · exact { ok.mem with reqState := rfl }
    · rfl
    · rfl
    · exact .inr ⟨rfl, rfl⟩

def PollerPc.stageAt (i : Nat) (pc : PollerPc) : Option PollStage :=
  if pc.slot = i then pc.stage else none

omit ok in
theorem nextPollSlot_stageAt (i j : Nat) : (nextPollSlot i).stageAt j = none := by
  unfold nextPollSlot PollerPc.stageAt
  split <;> rfl

theorem SlotOk.poll_step (i : Nat) (ret : Int)
    (alone : ∀ opened, poll p = some (.loaded opened) → slot.seemsSubmitted opened = true →
      ∀ q, q ≠ p → poll q ≠ some .claim) :
    ∃ phase', SlotOk (pollSlot slot i ret (poll p)).1 stage holds
      (update poll p ((pollSlot slot i ret (poll p)).2.stageAt i)) phase' := by
  cases here : poll p with
  | none => exact ⟨phase, by simpa [pollSlot, PollerPc.stageAt] using ok.pollOffset here⟩
  | some stage' =>
    cases stage' with
    | loaded opened =>
      rw [pollSlot]
      split
      next seems =>
        obtain ⟨c, claimed⟩ := ok.pollClaim here seems (alone opened here seems)
        exact ⟨_, by simpa [PollerPc.stageAt] using claimed⟩
      next => exact ⟨phase, by simpa [nextPollSlot_stageAt] using ok.pollPass here⟩
    | claim =>
      obtain ⟨c, next⟩ := ok.pollBusy here
      exact ⟨_, by simpa [pollSlot, PollerPc.stageAt] using next⟩
    | dispatching sub =>
      obtain ⟨c, next⟩ := ok.pollStore here ret
      exact ⟨_, by simpa [pollSlot, PollerPc.stageAt] using next⟩
    | returning => simpa [pollSlot, nextPollSlot_stageAt] using ok.pollDone here

end Steps

/-! ## Runs -/

structure FlexInv (s : FlexState) : Prop where
  nodup : ∀ c, (s.held c).Nodup
  slots : ∀ i, ∃ phase, SlotOk (s.slots i) (fun c => (s.clients c).stageAt i) (fun c => i ∈ s.held c)
    (fun p => (s.pollers p).stageAt i) phase

variable {pc : ClientPc}

section Global
variable {s : FlexState} {c i : Nat} {slot : FlexSlot}

theorem FlexInv.move (inv : FlexInv s) {held : List Nat}
    (before : ∀ j, j ≠ i → (s.clients c).stageAt j = none)
    (after : ∀ j, j ≠ i → pc.stageAt j = none) (kept : ∀ j, j ≠ i → (j ∈ held ↔ j ∈ s.held c))
    (nodup : held.Nodup) (here : ∃ phase, SlotOk slot
      (update (fun c => (s.clients c).stageAt i) c (pc.stageAt i))
      (update (fun c => i ∈ s.held c) c (i ∈ held)) (fun p => (s.pollers p).stageAt i) phase) :
    FlexInv (s.move c i slot pc held) := by
  have stages : ∀ j, (fun c' => ((s.move c i slot pc held).clients c').stageAt j) =
      update (fun c' => (s.clients c').stageAt j) c (pc.stageAt j) := by
    intro j
    exact comp_update (stageAt j) s.clients c pc
  have holds : ∀ j, (fun c' => j ∈ (s.move c i slot pc held).held c') =
      update (fun c' => j ∈ s.held c') c (j ∈ held) := by
    intro j
    exact comp_update (j ∈ ·) s.held c held
  refine ⟨?_, ?_⟩
  · exact (forall_update_iff s.held fun _ => Nodup).mpr ⟨nodup, fun c' _ => inv.nodup c'⟩
  · intro j
    rw [stages j, holds j]
    change ∃ phase, SlotOk (update s.slots i slot j) _ _ (fun p => (s.pollers p).stageAt j) phase
    by_cases same : j = i
    · subst same
      rw [update_self]
      exact here
    · have away : pc.stageAt j = (s.clients c).stageAt j := by rw [before j same, after j same]
      have has : (j ∈ held) = (j ∈ s.held c) := propext (kept j same)
      rw [update_of_ne same, away, has, update_eq_self, update_eq_self]
      exact inv.slots j

theorem FlexInv.poll (inv : FlexInv s) {p : Fin flexLwipHandleThread} {pc : PollerPc}
    (after : ∀ j, j ≠ (s.pollers p).slot → pc.stageAt j = none)
    (here : ∃ phase, SlotOk slot (fun c => (s.clients c).stageAt (s.pollers p).slot)
      (fun c => (s.pollers p).slot ∈ s.held c)
      (update (fun q => (s.pollers q).stageAt (s.pollers p).slot) p
        (pc.stageAt (s.pollers p).slot)) phase) :
    FlexInv { s with slots := update s.slots (s.pollers p).slot slot
                     pollers := update s.pollers p pc } := by
  refine ⟨inv.nodup, ?_⟩
  intro j
  have stages : (fun q => (update s.pollers p pc q).stageAt j) =
      update (fun q => (s.pollers q).stageAt j) p (pc.stageAt j) :=
    comp_update (PollerPc.stageAt j) s.pollers p pc
  change ∃ phase, SlotOk (update s.slots (s.pollers p).slot slot j)
    (fun c => (s.clients c).stageAt j) (fun c => j ∈ s.held c)
    (fun q => (update s.pollers p pc q).stageAt j) phase
  rw [stages]
  by_cases same : j = (s.pollers p).slot
  · subst same
    rw [update_self]
    exact here
  · have away : pc.stageAt j = (s.pollers p).stageAt j := by
      rw [after j same, PollerPc.stageAt, if_neg (Ne.symm same)]
    rw [update_of_ne same, away, update_eq_self]
    exact inv.slots j

end Global

def CallStage.creates : CallStage → Bool
  | .found _ | .wroteLen | .wroteOffset => true
  | .loop _ | .submit _ | .check _ | .result _ | .finish _ _ => false

/-- No slot is read as free, and no request as submitted, that another party has read so and
not yet marked. -/
def NoRace (s : FlexState) : FlexOp → Prop
  | .poll p _ => ∀ opened, (s.pollers p).stage = some (.loaded opened) →
      (s.slots (s.pollers p).slot).seemsSubmitted opened = true →
      ∀ q, q ≠ p → s.pollers q ≠ ⟨(s.pollers p).slot, some .claim⟩
  | .step c => ∀ idx dataLen capSlotNumber, s.clients c = .scan idx dataLen capSlotNumber →
      (s.slots idx).occupied = false →
      ∀ c' stage, s.clients c' = .on idx stage → stage.creates = false
  | .create _ _ _ | .fill _ _ | .call _ _ | .destroy _ _ => True

section Invariant
variable {s : FlexState} {c i : Nat}

theorem ClientPc.stageAt_of_ne {i j : Nat} (ne : j ≠ i) (stage : CallStage) :
    (on i stage).stageAt j = none := if_neg (Ne.symm ne)

theorem ClientPc.on_of_stageAt {stage : CallStage} (here : pc.stageAt i = some stage) :
    pc = .on i stage := by
  cases pc with
  | idle | scan => cases here
  | on j stage' =>
    by_cases same : j = i
    · subst same
      rw [stageAt_on] at here
      cases here
      rfl
    · rw [stageAt_of_ne (Ne.symm same)] at here
      cases here

theorem PollerPc.eq_of_stageAt {pc : PollerPc} {stage : PollStage}
    (here : pc.stageAt i = some stage) : pc = ⟨i, some stage⟩ := by
  obtain ⟨slot, stage'⟩ := pc
  unfold PollerPc.stageAt at here
  split at here
  · rename_i same
    cases same
    cases here
    rfl
  · cases here

theorem FlexInv.walk (inv : FlexInv s) (before : ∀ j, (s.clients c).stageAt j = none)
    (after : ∀ j, pc.stageAt j = none) : FlexInv (s.move c i (s.slots i) pc (s.held c)) := by
  refine inv.move (fun j _ => before j) (fun j _ => after j) (fun _ _ => Iff.rfl) (inv.nodup c) ?_
  obtain ⟨phase, ok⟩ := inv.slots i
  refine ⟨phase, ?_⟩
  have same : pc.stageAt i = (s.clients c).stageAt i := by rw [before, after]
  rw [same, update_eq_self, update_eq_self]
  exact ok

theorem tooLong_false {dataLen capSlotNumber : Nat} (fits : tooLong dataLen capSlotNumber = false) :
    dataLen < 2 ^ 32 := by
  have bounds := of_decide_eq_false fits
  simp only [ipcShmAvailable] at bounds
  omega

theorem FlexInv.client_step (inv : FlexInv s) (race : NoRace s (.step c)) :
    FlexInv (clientStep s c) := by
  unfold clientStep
  cases pc : s.clients c with
  | idle => exact inv
  | scan idx dataLen capSlotNumber =>
    have before : ∀ j, (s.clients c).stageAt j = none := fun j => by rw [pc]; rfl
    simp only
    split
    · exact inv.walk before fun _ => rfl
    split
    · exact inv.walk before fun _ => rfl
    rename_i unoccupied
    split
    · exact inv.walk before fun _ => rfl
    rename_i fits
    rw [Bool.not_eq_true] at unoccupied fits
    refine inv.move (fun j _ => before j) (fun j ne => stageAt_of_ne ne _)
      (fun _ _ => Iff.rfl) (inv.nodup c) ?_
    obtain ⟨phase, ok⟩ := inv.slots idx
    rw [stageAt_on]
    refine ⟨.creating c, ok.find unoccupied (tooLong_false fits) ?_⟩
    -- a slot that is being created has a client that read it as free
    rintro c' rfl
    have stands := race idx dataLen capSlotNumber pc unoccupied c'
    obtain ⟨allows, _⟩ := ok.owner c' rfl
    rcases allows with ⟨len, found, _⟩ | wrote | ⟨wrote, _⟩
    · cases stands _ (on_of_stageAt found)
    · cases stands _ (on_of_stageAt wrote)
    · cases stands _ (on_of_stageAt wrote)
  | on i stage =>
    have before : ∀ j, j ≠ i → (s.clients c).stageAt j = none := by
      intro j ne
      rw [pc]
      exact stageAt_of_ne ne stage
    have here : (s.clients c).stageAt i = some stage := by rw [pc, stageAt_on]
    obtain ⟨phase, ok⟩ := inv.slots i
    have has : (i ∈ if (callSlot (s.slots i) i stage).2.2 then i :: s.held c else s.held c) =
        if (callSlot (s.slots i) i stage).2.2 then True else i ∈ s.held c := by
      split <;> simp
    refine inv.move before ?_ ?_ ?_ ?_
    · intro j ne
      cases stage <;> first | rfl | exact stageAt_of_ne ne _
    · intro j ne
      split <;> simp [ne]
    · split
      · rename_i created
        refine nodup_cons.mpr ⟨?_, inv.nodup c⟩
        intro member
        cases stage with
        | wroteOffset =>
          obtain rfl := ok.creating_of_stage here (.inr (.inr rfl))
          cases (ok.owner c rfl).2.mp member
        | found | wroteLen | loop | submit | check | result | finish => cases created
      · exact inv.nodup c
    · rw [has]
      exact ok.call_step here i

theorem FlexInv.poll_step (inv : FlexInv s) {p : Fin flexLwipHandleThread} {ret : Int}
    (race : NoRace s (.poll p ret)) : FlexInv (pollStep s p ret) := by
  obtain ⟨phase, ok⟩ := inv.slots (s.pollers p).slot
  have stands : (s.pollers p).stageAt (s.pollers p).slot = (s.pollers p).stage := if_pos rfl
  have next := ok.poll_step (p := p) (s.pollers p).slot ret fun opened here seems q ne claims =>
    race opened (stands.symm.trans here) seems q ne (PollerPc.eq_of_stageAt claims)
  rw [stands] at next
  refine inv.poll (fun j ne => ?_) next
  have staying : ∀ stage, PollerPc.stageAt j ⟨(s.pollers p).slot, stage⟩ = none :=
    fun stage => if_neg (Ne.symm ne)
  unfold pollSlot
  split <;> try split
  all_goals first | exact staying _ | exact nextPollSlot_stageAt _ j

theorem flexStep_inv (s : FlexState) (op : FlexOp) (inv : FlexInv s) (race : NoRace s op) :
    FlexInv (flexStep s op) := by
  cases op with
  | poll p ret => exact inv.poll_step race
  | step c => exact inv.client_step race
  | create c dataLen capSlotNumber =>
    simp only [flexStep]
    split
    · rename_i idle
      have walked : FlexInv (s.move c 0 (s.slots 0) (.scan 0 dataLen capSlotNumber) (s.held c)) :=
        inv.walk (fun j => by rw [idle]; rfl) (fun _ => rfl)
      simpa [FlexState.move] using walked
    · exact inv
  | fill c i =>
    simp only [flexStep]
    split
    · rename_i ready
      obtain ⟨phase, ok⟩ := inv.slots i
      refine inv.move (fun j _ => by rw [ready.1]; rfl) (fun _ _ => rfl) (fun _ _ => Iff.rfl)
        (inv.nodup c) ⟨phase, ?_⟩
      exact ok.fill (by rw [ready.1]; rfl) ready.2
    · exact inv
  | call c i =>
    simp only [flexStep]
    split
    · rename_i ready
      obtain ⟨phase, ok⟩ := inv.slots i
      refine inv.move (fun j _ => by rw [ready.1]; rfl)
        (fun j ne => stageAt_of_ne ne _) (fun _ _ => Iff.rfl) (inv.nodup c) ?_
      rw [stageAt_on]
      exact ⟨.entered c, ok.enter (by rw [ready.1]; rfl) ready.2⟩
    · exact inv
  | destroy c i =>
    simp only [flexStep]
    split
    · rename_i ready
      obtain ⟨phase, ok⟩ := inv.slots i
      refine inv.move (fun j _ => by rw [ready.1]; rfl) (fun _ _ => rfl)
        (fun j ne => mem_erase_of_ne ne) ((inv.nodup c).erase i) ⟨.free, ?_⟩
      have gone : (i ∈ (s.held c).erase i) = False := eq_false (inv.nodup c).not_mem_erase
      rw [gone]
      exact ok.destroy (by rw [ready.1]; rfl) ready.2
    · exact inv

end Invariant

/-- No slot has two messages, no submission was dispatched twice, and every call returned what the
dispatch of its own submission stored. -/
structure FlexExact (s : FlexState) : Prop where
  messages : ∀ c, (s.held c).Nodup
  apart : ∀ c c', c ≠ c' → ∀ i ∈ s.held c, i ∉ s.held c'
  once : ∀ i, (s.slots i).dispatched.Nodup
  answered : ∀ i, ∀ e ∈ (s.slots i).returned, ∃ k, e.1 = some k ∧
    storedBy (s.slots i).stored k = [e.2]

/-- A history of a slot, in whatever phase, is exact. -/
theorem HistoryOk.exact {slot : FlexSlot} {phase : Phase} (history : HistoryOk slot phase) :
    slot.dispatched.Nodup ∧
      ∀ e ∈ slot.returned, ∃ k, e.1 = some k ∧ storedBy slot.stored k = [e.2] := by
  have served : ∀ {n}, ServedOk slot.dispatched slot.stored slot.returned n →
      slot.dispatched.Nodup ∧
        ∀ e ∈ slot.returned, ∃ k, e.1 = some k ∧ storedBy slot.stored k = [e.2] := by
    intro n ok
    refine ⟨ok.once, ?_⟩
    intro e member
    obtain ⟨k, _, answer⟩ := ok.answered e member
    exact ⟨k, answer⟩
  cases phase with
  | free | creating c | held c | entered c => exact served history
  | waiting c work =>
    obtain ⟨n, _, ok⟩ := history
    cases work with
    | submitted | claimed p => exact served ok
    | dispatching p =>
      obtain ⟨rest, dispatched, ok⟩ := ok
      refine ⟨?_, ?_⟩
      · rw [dispatched, nodup_cons]
        exact ⟨fun member => lt_irrefl n (ok.dispatchedLt n member), ok.once⟩
      · intro e member
        obtain ⟨k, _, answer⟩ := ok.answered e member
        exact ⟨k, answer⟩
    | returning p ret | done ret =>
      -- as if the call had returned already
      obtain ⟨rest, older, dispatched, stored, _, ok⟩ := ok
      have after := ok.finish ret
      rw [← dispatched, ← stored] at after
      refine ⟨after.once, ?_⟩
      intro e member
      obtain ⟨k, _, answer⟩ := after.answered e (mem_cons_of_mem _ member)
      exact ⟨k, answer⟩

theorem FlexInv.exact {s : FlexState} (inv : FlexInv s) : FlexExact s := by
  refine ⟨inv.nodup, ?_, ?_, ?_⟩
  · intro c c' differ i mine other
    obtain ⟨phase, ok⟩ := inv.slots i
    have own : phase.owner = some c := by
      by_contra not
      exact (ok.others c not).2 mine
    have own' : phase.owner = some c' := by
      by_contra not
      exact (ok.others c' not).2 other
    exact differ (Option.some.inj (own.symm.trans own'))
  · intro i
    obtain ⟨phase, ok⟩ := inv.slots i
    exact ok.mem.history.exact.1
  · intro i
    obtain ⟨phase, ok⟩ := inv.slots i
    exact ok.mem.history.exact.2

theorem flexInit_inv : FlexInv flexInit := by
  refine ⟨fun _ => nodup_nil, ?_⟩
  intro i
  refine ⟨.free, ⟨show 0 < 2 ^ 32 by decide, rfl, nofun, rfl, ?_⟩, nofun, ?_, nofun, ?_⟩
  · exact ⟨nodup_nil, nofun, nofun, nofun⟩
  · intro c _
    exact ⟨rfl, not_mem_nil⟩
  · intro p _
    refine .inl ?_
    unfold flexInit PollerPc.stageAt
    split <;> rfl

/-- In every interleaving without a double reading, every message has its own slot, every
submission is dispatched at most once, and every call returns what its dispatch stored. -/
theorem flexIpc_exact_of_noRace (ops : List FlexOp)
    (race : RunMeets flexStep NoRace flexInit ops) : FlexExact (ops.foldl flexStep flexInit) :=
  (run_invariant flexStep NoRace FlexInv flexStep_inv ops flexInit flexInit_inv race).exact

def serveOnce : List FlexOp :=
  [.create 0 100 0, .step 0, .step 0, .step 0, .step 0, .fill 0 0, .call 0 0, .step 0, .step 0,
    .poll 0 0, .poll 0 0, .poll 0 0, .poll 0 7, .poll 0 0, .step 0, .step 0, .step 0, .destroy 0 0]

theorem noRace_of_stage {s : FlexState} {c i : Nat} {stage : CallStage}
    (here : s.clients c = .on i stage) : NoRace s (.step c) := by
  intro idx dataLen capSlotNumber scans
  rw [here] at scans
  cases scans

theorem serveOnce_exact : FlexExact (serveOnce.foldl flexStep flexInit) ∧
    ((serveOnce.foldl flexStep flexInit).slots 0).returned = [(some 0, 7)] := by
  refine ⟨flexIpc_exact_of_noRace serveOnce ?_, by decide +kernel⟩
  have alone : NoRace (flexStep flexInit (.create 0 100 0)) (.step 0) := by
    intro idx dataLen capSlotNumber _ _ c' stage here
    by_cases first : c' = 0
    · subst first
      cases here
    · simp [flexStep, flexInit, first] at here
  have first : NoRace ((serveOnce.take 10).foldl flexStep flexInit) (.poll 0 0) := by
    intro _ _ _ q
    revert q
    decide +kernel
  exact ⟨trivial, alone, noRace_of_stage rfl, noRace_of_stage rfl, noRace_of_stage rfl, trivial,
    trivial, noRace_of_stage rfl, noRace_of_stage rfl, nofun, first, nofun, nofun, nofun,
    noRace_of_stage rfl, noRace_of_stage rfl, noRace_of_stage rfl, trivial, trivial⟩

/-- Both pollers read the request as submitted, and both dispatch it. -/
theorem request_dispatched_twice :
    ¬ FlexExact ([.create 0 100 0, .step 0, .step 0, .step 0, .step 0, .fill 0 0, .call 0 0, .step 0,
      .step 0, .poll 0 0, .poll 0 0, .poll 1 0, .poll 1 0, .poll 0 0, .poll 1 0].foldl
        flexStep flexInit) := by
  intro exact
  have once := exact.once 0
  revert once
  decide +kernel

end KernelLabs.ChCore
