import KernelLabs.ChCore.Common.Bitops

/-!
# Message layout

Model of the message functions of `chcore-port/ipc.c`.  A message starts with a header of 56 bytes;
the data follow and behind them the capability slots of 8 bytes.  A write is given by the address
and the number of the bytes that it changes.
-/

set_option autoImplicit false

namespace KernelLabs.ChCore

open List Option

def ipcPerShmSize : Word := 0x1000

def sizeofIpcMsg : Word := 56

/-- The fields of `ipc_struct_t` that say where messages are built. -/
structure IpcStruct where
  sharedBuf : Word
  sharedBufLen : Word

structure IpcMsg where
  ptr : Word
  dataLen : Word
  capSlotNumber : Word
  dataOffset : Word
  capSlotsOffset : Word
  deriving DecidableEq

def layOut (ptr bufLen dataLen capSlotNumber : Word) : Option IpcMsg :=
  if bufLen < dataLen + 8 * capSlotNumber ∨ dataLen + 8 * capSlotNumber < dataLen then none
  else some ⟨ptr, dataLen, capSlotNumber, sizeofIpcMsg, sizeofIpcMsg + dataLen⟩

/-- `connected` is false if the connection that is made on demand fails. -/
def ipcCreateMsg (connected : Bool) (icb : IpcStruct) (dataLen capSlotNumber : Word) :
    Option IpcMsg :=
  if connected then
    layOut icb.sharedBuf (icb.sharedBufLen - sizeofIpcMsg) dataLen capSlotNumber
  else none

/-- The message is built in the first of the 32 slots that is not occupied. -/
def flexIpcCreateMsg (connected : Bool) (occupied : Nat → Bool) (icb : IpcStruct)
    (dataLen capSlotNumber : Word) : Option IpcMsg :=
  if connected then
    ((range 32).find? fun idx => !occupied idx).bind fun idx =>
      layOut (icb.sharedBuf + BitVec.ofNat 64 idx * ipcPerShmSize) (ipcPerShmSize - sizeofIpcMsg)
        dataLen capSlotNumber
  else none

/-- The bytes of the `memcpy`, or `none` for -1. -/
def ipcSetMsgData (msg : IpcMsg) (offset len : Word) : Option (Word × Word) :=
  if offset + len < offset ∨ msg.dataLen < offset + len then none
  else some (msg.ptr + msg.dataOffset + offset, len)

def ipcSetMsgCap (msg : IpcMsg) (capSlotIndex : Word) : Option (Word × Word) :=
  if msg.capSlotNumber ≤ capSlotIndex then none
  else some (msg.ptr + msg.capSlotsOffset + 8 * capSlotIndex, 8)

def InSlot (msg : IpcMsg) (bytes : Word × Word) : Prop :=
  msg.ptr.toNat + sizeofIpcMsg.toNat ≤ bytes.1.toNat ∧
    bytes.1.toNat + bytes.2.toNat ≤ msg.ptr.toNat + ipcPerShmSize.toNat

structure StaysInSlot (msg : IpcMsg) : Prop where
  data : ∀ offset len bytes, ipcSetMsgData msg offset len = some bytes → InSlot msg bytes
  cap : ∀ i bytes, ipcSetMsgCap msg i = some bytes → InSlot msg bytes
  apart : ∀ offset len i bytes slot, ipcSetMsgData msg offset len = some bytes →
    ipcSetMsgCap msg i = some slot → bytes.1.toNat + bytes.2.toNat ≤ slot.1.toNat

section Layout
variable {ptr dataLen capSlotNumber : Word} {msg : IpcMsg}
  (laid : layOut ptr (ipcPerShmSize - sizeofIpcMsg) dataLen capSlotNumber = some msg)
include laid

theorem layOut_stays (room : ptr.toNat + ipcPerShmSize.toNat < 2 ^ 64)
    (few : capSlotNumber.toNat < 2 ^ 61) : StaysInSlot msg := by
  rw [layOut] at laid
  split_ifs at laid with long
  cases laid
  simp only [ipcPerShmSize, sizeofIpcMsg] at *
  -- with so few slots the sum of the check does not wrap
  have fits : dataLen.toNat + 8 * capSlotNumber.toNat ≤ 4040 := by bv_omega
  clear long
  refine ⟨fun offset len bytes set => ?_, fun i bytes set => ?_,
    fun offset len i bytes slot set setCap => ?_⟩
  · rw [ipcSetMsgData] at set
    split_ifs at set
    cases set
    rw [InSlot, sizeofIpcMsg, ipcPerShmSize]
    bv_omega
  · rw [ipcSetMsgCap] at set
    split_ifs at set
    cases set
    rw [InSlot, sizeofIpcMsg, ipcPerShmSize]
    bv_omega
  · rw [ipcSetMsgData] at set
    rw [ipcSetMsgCap] at setCap
    split_ifs at set setCap
    cases set
    cases setCap
    bv_omega

theorem layOut_overlong (many : 2 ^ 61 ≤ capSlotNumber.toNat) : ¬ StaysInSlot msg := by
  rw [layOut] at laid
  split_ifs at laid with long
  cases laid
  intro stays
  have inside := stays.cap 512 _ (if_neg (by bv_omega))
  rw [InSlot] at inside
  simp only [ipcPerShmSize, sizeofIpcMsg] at *
  bv_omega

end Layout

/-- What `ipc_register_client` makes: the length of one slot, and the slots are mapped. -/
structure IpcStruct.Registered (icb : IpcStruct) : Prop where
  len : icb.sharedBufLen = ipcPerShmSize
  mapped : icb.sharedBuf.toNat + 32 * ipcPerShmSize.toNat < 2 ^ 64

/-- The writes to a message stay in its slot exactly if the number of its capability slots does not
wrap when it is taken by 8. -/
theorem msg_stays_iff (connected : Bool) (occupied : Nat → Bool) (icb : IpcStruct)
    (registered : icb.Registered) (dataLen capSlotNumber : Word) (msg : IpcMsg)
    (created : ipcCreateMsg connected icb dataLen capSlotNumber = some msg ∨
      flexIpcCreateMsg connected occupied icb dataLen capSlotNumber = some msg) :
    StaysInSlot msg ↔ capSlotNumber.toNat < 2 ^ 61 := by
  obtain ⟨ptr, room, laid⟩ : ∃ ptr : Word, ptr.toNat + ipcPerShmSize.toNat < 2 ^ 64 ∧
      layOut ptr (ipcPerShmSize - sizeofIpcMsg) dataLen capSlotNumber = some msg := by
    have mapped := registered.mapped
    simp only [ipcPerShmSize] at mapped ⊢
    rcases created with created | created
    · rw [ipcCreateMsg, registered.len] at created
      split_ifs at created
      exact ⟨_, by bv_omega, created⟩
    · rw [flexIpcCreateMsg] at created
      split_ifs at created
      obtain ⟨idx, found, laid⟩ := bind_eq_some_iff.mp created
      have small := mem_range.mp (mem_of_find?_eq_some found)
      refine ⟨_, ?_, laid⟩
      rw [ipcPerShmSize]
      bv_omega
  refine ⟨fun stays => ?_, layOut_stays laid room⟩
  by_contra many
  exact layOut_overlong laid (Nat.le_of_not_lt many) stays

def oneBuffer : IpcStruct := ⟨0x1000000, ipcPerShmSize⟩

theorem msg_stays_oneCap : ∃ msg,
    flexIpcCreateMsg true (fun idx => idx = 0) oneBuffer 16 1 = some msg ∧
    (StaysInSlot msg ↔ (1 : Word).toNat < 2 ^ 61) := by
  have created : (flexIpcCreateMsg true (fun idx => idx = 0) oneBuffer 16 1).isSome := by decide
  obtain ⟨msg, created⟩ := isSome_iff_exists.mp created
  exact ⟨msg, created, msg_stays_iff true _ oneBuffer ⟨rfl, by decide⟩ 16 1 msg (Or.inr created)⟩

/-- 2^61 slots are accepted for a message without data, and the slot 512 is behind the message. -/
theorem cap_behind_slot : ∃ msg bytes,
    flexIpcCreateMsg true (fun _ => false) oneBuffer 0 0x2000000000000000 = some msg ∧
      ipcSetMsgCap msg 512 = some bytes ∧ ¬ InSlot msg bytes := by
  refine ⟨⟨0x1000000, 0, 0x2000000000000000, 56, 56⟩, (0x1001038, 8), by decide, by decide, ?_⟩
  rw [InSlot]
  decide

end KernelLabs.ChCore
