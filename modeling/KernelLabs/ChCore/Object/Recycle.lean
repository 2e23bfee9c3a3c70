import Mathlib.Data.List.Basic

/-!
# The recycle channel

Model of `notify_user_recycler` in `kernel/object/recycle.c`, which posts messages, and of the
recycle thread in `user/procmgr/recycle.c`, which retrieves them.  The two share one page: the two
offsets, then the slots.  `recycle_buffer_lock` keeps posts apart but not the recycle thread, which
takes no lock; that a post is one step for it is assumed.  `retrieve_one_msg` and
`increase_consumer_offset` are a step each.
-/

set_option autoImplicit false

namespace KernelLabs.ChCore

def startOffset : Nat := 16

def endOffset : Nat := 4096

def msgSize : Nat := 16

structure RecycleMsg where
  badge : Nat
  exitcode : Int
  deriving DecidableEq, Repr

/-- The page, with the memory behind it, and the messages saved in `recycle_msg_head`. -/
structure RecycleBuffer where
  consumer : Nat
  producer : Nat
  slot : Nat → RecycleMsg
  saved : List RecycleMsg

def RecycleBuffer.setMsg (s : RecycleBuffer) (off : Nat) (msg : RecycleMsg) : RecycleBuffer :=
  { s with slot := Function.update s.slot off msg }

/-- `get_free_slot_in_msg_buffer`; `none` is the offset 0. -/
def getFreeSlot (s : RecycleBuffer) : Option (Nat × RecycleBuffer) :=
  if s.producer ≥ s.consumer ∧ s.producer < endOffset then
    some (s.producer, { s with producer := s.producer + msgSize })
  else if s.producer = endOffset ∧ s.consumer > startOffset then
    some (startOffset, { s with producer := startOffset + msgSize })
  else if s.producer < s.consumer then
    some (s.producer, { s with producer := s.producer + msgSize })
  else none

def moveSaved : List RecycleMsg → RecycleBuffer → RecycleBuffer
  | [], s => { s with saved := [] }
  | msg :: rest, s =>
    match getFreeSlot s with
    | none => { s with saved := msg :: rest }
    | some (off, s) => moveSaved rest (s.setMsg off msg)

/-- `notify_user_recycler`, with whether it signals the recycle thread. -/
def notifyUserRecycler (s : RecycleBuffer) (msg : RecycleMsg) : RecycleBuffer × Bool :=
  match getFreeSlot s with
  | none => ({ s with saved := msg :: s.saved }, false)
  | some (off, s) => (moveSaved s.saved (s.setMsg off msg), true)

def retrieveOneMsg (s : RecycleBuffer) : Option Nat :=
  if s.producer ≠ s.consumer then some s.consumer else none

/-- `increase_consumer_offset`; at the end of the page only the local variable is set back.  `none`
is the failed assertion. -/
def increaseConsumerOffset (s : RecycleBuffer) (off : Nat) : Option RecycleBuffer :=
  if off < endOffset then some { s with consumer := off + msgSize }
  else if off = endOffset then some s
  else none

/-- The channel, the message the recycle thread holds, and the history: what was posted and
retrieved, how much was posted when the buffer was last drained, and how much of it before a further
post. -/
structure RecycleSys where
  buffer : RecycleBuffer
  held : Option Nat
  posted : List RecycleMsg
  retrieved : List RecycleMsg
  drainedAt : Nat
  due : Nat

def RecycleSys.seeDrained (S : RecycleSys) : RecycleSys :=
  if S.buffer.producer = S.buffer.consumer then { S with drainedAt := S.posted.length } else S

def RecycleSys.post (S : RecycleSys) (msg : RecycleMsg) : RecycleSys :=
  { S with
    buffer := (notifyUserRecycler S.buffer msg).1
    posted := S.posted ++ [msg]
    due := S.drainedAt }

def RecycleSys.consume (S : RecycleSys) : Option RecycleSys :=
  match S.held with
  | none =>
    match retrieveOneMsg S.buffer with
    | none => some S.seeDrained
    | some off =>
      some { S with held := some off, retrieved := S.retrieved ++ [S.buffer.slot off] }
  | some off =>
    (increaseConsumerOffset S.buffer off).map fun buffer =>
      { S with buffer := buffer, held := none }.seeDrained

inductive RecycleOp where
  | notify (badge : Nat) (exitcode : Int)
  | consume
  deriving DecidableEq, Repr

def recycleStep (S : Option RecycleSys) : RecycleOp → Option RecycleSys
  | .notify badge exitcode => S.map fun S => S.post ⟨badge, exitcode⟩
  | .consume => S.bind RecycleSys.consume

def alone (k : Nat) (S : Option RecycleSys) : Option RecycleSys :=
  (List.replicate k RecycleOp.consume).foldl recycleStep S

def recycleInit (slot : Nat → RecycleMsg) : RecycleSys where
  buffer := ⟨startOffset, startOffset, slot, []⟩
  held := none
  posted := []
  retrieved := []
  drainedAt := 0
  due := 0

end KernelLabs.ChCore
