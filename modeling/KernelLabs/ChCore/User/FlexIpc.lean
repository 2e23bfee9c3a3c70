import Mathlib.Algebra.Group.Nat.Defs
import Mathlib.Logic.Function.Basic

/-!
# Flex-IPC between client coroutines and the network server

Model of `flex_ipc_create_msg`, `flex_ipc_call`, `flex_ipc_return` and
`flex_ipc_destroy_msg` (`musl-1.1.24/src/chcore-port/ipc.c`) with the pollers
`flex_lwip_main` and `flex_lwip_handler` (`user/lwip/main.c`) on the shared memory of one
connection.  Every load and every store of a field that another party reads is one step;
stores to fields nobody else reads take no step of their own.  A coroutine uses a message
it created until it destroys it, and a coroutine has any number of messages.

The server finds the request of a slot through `data_offset`, which is 0 in the fresh,
zeroed memory and `sizeof(ipc_msg_t)` from the first message in the slot on.  Through the
offset 0 the field `req_state` is the upper half of `data_len`.

What `lwip_dispatch` does with the request is left to the environment, which chooses the
value it returns.  The fields `subs`, `dispatched`, `stored` and `returned` of a slot are
its history: the submissions are numbered from 0, and `returned` holds, for every call
that returned, the submission it made itself and the value it returned.
-/

set_option autoImplicit false

namespace KernelLabs.ChCore

open Function (update)

inductive ReqState where
  | init
  | submitted
  | busy
  | done
  deriving DecidableEq, Repr

structure FlexSlot where
  occupied : Bool
  dataLen : Nat
  opened : Bool
  reqState : ReqState
  ret : Int
  subs : Nat
  dispatched : List Nat
  stored : List (Nat × Int)
  returned : List (Option Nat × Int)
  deriving DecidableEq, Repr

def freshSlot : FlexSlot :=
  { occupied := false, dataLen := 0, opened := false, reqState := .init, ret := 0
    subs := 0, dispatched := [], stored := [], returned := [] }

def storedBy (stored : List (Nat × Int)) (k : Nat) : List Int :=
  (stored.filter (·.1 = k)).map (·.2)

def maxFlexIpcCount : Nat := 32

abbrev flexLwipHandleThread : Nat := 2

def ipcShmAvailable : Nat := 0x1000 - 56

/-! ## Where the parties stand -/

/-- Inside a call on a slot, before the next load or store.  `own` is the submission this
`flex_ipc_call` has made. -/
inductive CallStage where
  /-- `occupied` was 0; next `data_len` is stored. -/
  | found (dataLen : Nat)
  | wroteLen
  | wroteOffset
  /-- Top of the `while` loop of `flex_ipc_call`. -/
  | loop (own : Option Nat)
  /-- `req_state` was `LWIP_REQ_INIT`. -/
  | submit (own : Option Nat)
  /-- Before the second load of `req_state`. -/
  | check (own : Option Nat)
  /-- `req_state` was `LWIP_REQ_DONE`. -/
  | result (own : Option Nat)
  | finish (own : Option Nat) (ret : Int)
  deriving DecidableEq, Repr

inductive ClientPc where
  | idle
  /-- The loop of `flex_ipc_create_msg` at the slot `idx`. -/
  | scan (idx dataLen capSlotNumber : Nat)
  | on (slot : Nat) (stage : CallStage)
  deriving DecidableEq, Repr

/-- Inside the loop of a poller, after the load of `data_offset`. -/
inductive PollStage where
  | loaded (opened : Bool)
  /-- `req_state` was `LWIP_REQ_SUBMITTED`. -/
  | claim
  | dispatching (sub : Nat)
  | returning
  deriving DecidableEq, Repr

structure PollerPc where
  slot : Nat
  stage : Option PollStage
  deriving DecidableEq, Repr

structure FlexState where
  slots : Nat → FlexSlot
  pollers : Fin flexLwipHandleThread → PollerPc
  clients : Nat → ClientPc
  /-- The slots of the messages a client has created and not yet destroyed. -/
  held : Nat → List Nat

def flexInit : FlexState :=
  { slots := fun _ => freshSlot, pollers := fun _ => ⟨0, none⟩, clients := fun _ => .idle
    held := fun _ => [] }

/-! ## Steps -/

/-- The poller's load of `req_state` through the offset it has loaded. -/
def FlexSlot.seemsSubmitted (slot : FlexSlot) (opened : Bool) : Bool :=
  if opened then slot.reqState = .submitted else slot.dataLen / 2 ^ 32 = 1

def nextPollSlot (i : Nat) : PollerPc := ⟨(i + 1) % maxFlexIpcCount, none⟩

/-- One step of a poller: the slot it is at and where it stands afterwards.  `ret` is what
`lwip_dispatch` passes to `flex_ipc_return`. -/
def pollSlot (slot : FlexSlot) (i : Nat) (ret : Int) : Option PollStage → FlexSlot × PollerPc
  | none => (slot, ⟨i, some (.loaded slot.opened)⟩)
  | some (.loaded opened) =>
    if slot.seemsSubmitted opened then (slot, ⟨i, some .claim⟩) else (slot, nextPollSlot i)
  | some .claim =>
    -- `lwip_dispatch` is called right after the store
    ({ slot with reqState := .busy, dispatched := (slot.subs - 1) :: slot.dispatched },
      ⟨i, some (.dispatching (slot.subs - 1))⟩)
  | some (.dispatching sub) =>
    ({ slot with ret := ret, stored := (sub, ret) :: slot.stored }, ⟨i, some .returning⟩)
  | some .returning => ({ slot with reqState := .done }, nextPollSlot i)

def pollStep (s : FlexState) (p : Fin flexLwipHandleThread) (ret : Int) : FlexState :=
  let i := (s.pollers p).slot
  let next := pollSlot (s.slots i) i ret (s.pollers p).stage
  { s with slots := update s.slots i next.1
           pollers := update s.pollers p next.2 }

def tooLong (dataLen capSlotNumber : Nat) : Bool :=
  let total := (dataLen + 8 * capSlotNumber) % 2 ^ 64
  ipcShmAvailable < total ∨ total < dataLen

/-- One step of a call on a slot: the slot, where the client stands afterwards, and whether
`flex_ipc_create_msg` has returned the message. -/
def callSlot (slot : FlexSlot) (i : Nat) : CallStage → FlexSlot × ClientPc × Bool
  | .found dataLen => ({ slot with dataLen := dataLen }, .on i .wroteLen, false)
  | .wroteLen => ({ slot with opened := true }, .on i .wroteOffset, false)
  | .wroteOffset => ({ slot with occupied := true }, .idle, true)
  | .loop own =>
    (slot, .on i (if slot.reqState = .init then .submit own else .check own), false)
  | .submit _ =>
    ({ slot with reqState := .submitted, subs := slot.subs + 1 },
      .on i (.check (some slot.subs)), false)
  | .check own =>
    (slot, .on i (if slot.reqState = .done then .result own else .loop own), false)
  | .result own => (slot, .on i (.finish own slot.ret), false)
  | .finish own ret =>
    ({ slot with reqState := .init, returned := (own, ret) :: slot.returned }, .idle, false)

def FlexState.move (s : FlexState) (c i : Nat) (slot : FlexSlot) (pc : ClientPc)
    (held : List Nat) : FlexState :=
  { s with slots := update s.slots i slot
           clients := update s.clients c pc
           held := update s.held c held }

def clientStep (s : FlexState) (c : Nat) : FlexState :=
  match s.clients c with
  | .idle => s
  | .scan idx dataLen capSlotNumber =>
    let goto (pc : ClientPc) : FlexState := s.move c idx (s.slots idx) pc (s.held c)
    if idx = maxFlexIpcCount then goto .idle
    else if (s.slots idx).occupied then goto (.scan (idx + 1) dataLen capSlotNumber)
    else if tooLong dataLen capSlotNumber then goto .idle
    else goto (.on idx (.found dataLen))
  | .on i stage =>
    let next := callSlot (s.slots i) i stage
    s.move c i next.1 next.2.1 (if next.2.2 then i :: s.held c else s.held c)

inductive FlexOp where
  | poll (p : Fin flexLwipHandleThread) (ret : Int)
  /-- The next step of the call a client is in. -/
  | step (c : Nat)
  | create (c dataLen capSlotNumber : Nat)
  /-- The caller sets `req_state` to `LWIP_REQ_INIT` in a message of its own. -/
  | fill (c slot : Nat)
  | call (c slot : Nat)
  | destroy (c slot : Nat)
  deriving DecidableEq, Repr

def flexStep (s : FlexState) : FlexOp → FlexState
  | .poll p ret => pollStep s p ret
  | .step c => clientStep s c
  | .create c dataLen capSlotNumber =>
    if s.clients c = .idle then
      { s with clients := update s.clients c (.scan 0 dataLen capSlotNumber) }
    else s
  | .fill c i =>
    if s.clients c = .idle ∧ i ∈ s.held c then
      s.move c i { s.slots i with reqState := .init } .idle (s.held c)
    else s
  | .call c i =>
    if s.clients c = .idle ∧ i ∈ s.held c then
      s.move c i (s.slots i) (.on i (.loop none)) (s.held c)
    else s
  | .destroy c i =>
    if s.clients c = .idle ∧ i ∈ s.held c then
      s.move c i { s.slots i with occupied := false } .idle ((s.held c).erase i)
    else s

end KernelLabs.ChCore
