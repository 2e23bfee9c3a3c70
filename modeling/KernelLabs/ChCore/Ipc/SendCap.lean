import KernelLabs.ChCore.Ipc.Connection
import KernelLabs.ChCore.Object.SlotTableRuns

/-!
# Sending capabilities with a call

Model of `ipc_send_cap` of `kernel/ipc/connection.c`: the capabilities whose ids are in the
client's buffer are copied to the cap_group of the server, and the ids of the copies are written
back.  The id of a copy is an `int` that goes through a `u64`, so the test for an error in between
is a test whether an unsigned number is negative.
-/

set_option autoImplicit false

namespace KernelLabs.ChCore

open Lib Function List Acc

/-- A `u64` of the buffer as the `int slot_id` of `cap_copy` and `cap_free`. -/
def capId (id : Word) : Int := (id.truncate 32).toInt

/-- Whether the accesses to the client's memory come back (otherwise the kernel stops; they return
no error), and whether `cap_buf` is allocated. -/
structure SendEnv where
  offsetRead : Bool
  bufOk : Bool
  bufRead : Bool
  bufWritten : Bool

/-- The loop at `out_free_cap`, from the capability copied last to the first one. -/
def freeSent (server : Nat) : List Word → Sys → Acc (Option Sys)
  | [], s => pure (some s)
  | id :: rest, s => do
    match ← capFree s server (capId id) with
    | none => pure none
    | some (s, _) => freeSent server rest s

/-- The loop of `ipc_send_cap`; `sent` are the ids written to `cap_buf`, the last one first. The
result tells whether the loop went through or jumped to `out_free_cap`. -/
def sendCaps (env : Nat → Env) (client server : Nat) :
    List Word → List Word → Sys → Acc (Option (Sys × List Word × Bool))
  | [], sent, s => pure (some (s, sent.reverse, true))
  | id :: rest, sent, s => do
    match ← capCopy (env sent.length) s client server (capId id) false 0 with
    | none => pure none
    | some (s, r) =>
      let destCap : Word := BitVec.ofInt 64 r
      if destCap < 0 then do
        match ← freeSent server sent s with
        | none => pure none
        | some s => pure (some (s, sent.reverse ++ id :: rest, false))
      else sendCaps env client server rest (destCap :: sent) s

/-- `ipc_send_cap` with the copies it makes: the state, the client's buffer and the result.  At
`out_free_cap` the result is still the 0 of `copy_from_user`. -/
def ipcSendCapCopies (send : SendEnv) (env : Nat → Env) (s : Sys) (client server : Nat)
    (buf : List Word) : Acc (Option (Sys × List Word × Int)) :=
  if buf.length = 0 then pure (some (s, buf, 0))
  else if maxCapTransfer ≤ buf.length then pure (some (s, buf, -eINVAL))
  else if send.offsetRead = false then pure none
  else if send.bufOk = false then pure (some (s, buf, -eNOMEM))
  else if send.bufRead = false then pure none
  else do
    match ← sendCaps env client server buf [] s with
    | none => pure none
    | some (s, _, false) => pure (some (s, buf, 0))
    | some (s, sent, true) => pure (if send.bufWritten then some (s, sent, 0) else none)

/-! ## What a transfer is -/

/-- The id `v'` of the server names in `s'` the object that the id `v` of the client named
in `s`. -/
def SameObject (s s' : Sys) (client server : Nat) (v v' : Word) : Prop :=
  ∃ p slot p' slot', (s.tables client).at v.toNat = some p ∧ s.slotHeap p = some slot ∧
    (s'.tables server).at v'.toNat = some p' ∧ s'.slotHeap p' = some slot' ∧
    slot'.object = slot.object

/-- Every listed capability has been copied, in order, to a new id, and the tables have no other
new entries. -/
structure AllCopied (s s' : Sys) (client server : Nat) (buf buf' : List Word) : Prop where
  named : Forall₂ (SameObject s s' client server) buf buf'
  distinct : buf'.Nodup
  fresh : ∀ v ∈ buf', (s.tables server).at v.toNat = none
  others : ∀ g i, (g = server → ∀ v ∈ buf', v.toNat ≠ i) → (s'.tables g).at i = (s.tables g).at i

/-- A call that returns 0 has copied everything; one that lists an id that is no capability of the
caller fails and changes nothing. -/
structure TransferAtomic (s s' : Sys) (client server : Nat) (buf buf' : List Word) (r : Int) :
    Prop where
  copied : r = 0 → AllCopied s s' client server buf buf'
  refused : (∃ v ∈ buf, (s.tables client).at v.toNat = none) → r < 0 ∧
    s'.tables server = s.tables server ∧
    ∀ o, (s'.objHeap o).map Object.refcount = (s.objHeap o).map Object.refcount

/-- Every `cap_copy` of the loop gets memory for its slot and finds a free id or the memory to make
the server's table larger. -/
def CopiesFit (env : Nat → Env) (client server : Nat) : List Word → Nat → Sys → Prop
  | [], _, _ => True
  | id :: rest, i, s => ((env i).slotOk = true ∧ CanAlloc (env i) (s.tables server)) ∧
      ∀ s' r, (capCopy (env i) s client server (capId id) false 0).val = some (s', r) →
        CopiesFit env client server rest (i + 1) s'

/-- There is nothing to send, the call is refused before the loop, or every listed id is a
capability of the caller and its copy does not fail. -/
def SendFits (send : SendEnv) (env : Nat → Env) (s : Sys) (client server : Nat)
    (buf : List Word) : Prop :=
  buf.length = 0 ∨ maxCapTransfer ≤ buf.length ∨ send.bufOk = false ∨
    (∀ v ∈ buf, (s.tables client).at v.toNat ≠ none) ∧ CopiesFit env client server buf 0 s

variable {t : SlotTable}

section Ids

theorem capId_eq {v : Word} (small : v.toNat < 2 ^ 31) : capId v = (v.toNat : Int) := by
  have low : (v.truncate 32).toNat = v.toNat := by
    rw [BitVec.truncate_eq_setWidth, BitVec.toNat_setWidth, Nat.mod_eq_of_lt (by omega)]
  rw [capId, BitVec.toInt_eq_toNat_of_lt (by omega), low]

theorem toNat_ofInt_id {id : Nat} (small : id < 2 ^ 64) :
    (BitVec.ofInt 64 (id : Int)).toNat = id := by
  rw [BitVec.ofInt_natCast, BitVec.toNat_ofNat, Nat.mod_eq_of_lt small]

theorem size_small (shape : TableShape t) : t.slotsSize < 2 ^ 31 := by
  have bounded := shape.bounded
  have maxEq : kmallocMax = 33554432 := by decide
  omega

theorem not_negative (destCap : Word) : ¬ destCap < 0 := BitVec.not_lt_zero

end Ids

/-! ## One copy -/

section OneCopy
variable {env : Env} {s s' : Sys} {client server : Nat} {v : Word} {r : Int}

structure CopyStep (s s' : Sys) (client server : Nat) (v v' : Word) : Prop where
  inv : CapInv none s'
  fresh : (s.tables server).at v'.toNat = none
  view : ∀ g i, (s'.tables g).at i =
    if g = server ∧ i = v'.toNat then some s.nextSlot else (s.tables g).at i
  slots : ∃ p slot slot', (s.tables client).at v.toNat = some p ∧ s.slotHeap p = some slot ∧
    s'.slotHeap = update s.slotHeap s.nextSlot (some slot') ∧
    slot'.object = slot.object

theorem allocSlotId_full (full : ¬ CanAlloc env t) :
    (allocSlotId env t).val = some (t, -eNOMEM) := by
  rw [CanAlloc, not_or, Bool.not_eq_true, not_not] at full
  rw [allocSlotId, allocSlotIdLoop]
  simp [full.1, full.2]

/-- The second half of `cap_copy` installs the slot at the id it was given, and returns it. -/
theorem copyIntoSlot_result {src dst : Nat} {srcId destId : Int} {valid : Bool} {rights : Nat}
    (run : (copyIntoSlot env s t src dst srcId destId valid rights).val = some (s', r)) :
    r = destId ∧ ∃ final, (installSlot env t destId s.nextSlot).val = some final ∧
      s'.tables = update s.tables dst final := by
  rw [copyIntoSlot] at run
  split at run
  · cases run
  split at run
  · cases run
  split at run
  · cases run
  simp only [bind_val] at run
  split at run
  · cases run
  · rename_i final install
    cases run
    exact ⟨rfl, final, install, rfl⟩

/-- The copy is made, or it finds no memory and comes back with the error, if it comes back:
without an id it goes on with the error as the id. -/
theorem capCopy_cases (inv : CapInv none s) {p : Nat}
    (place : (s.tables client).at v.toNat = some p)
    (run : (capCopy env s client server (capId v) false 0).val = some (s', r)) :
    (env.slotOk = true ∧ CanAlloc env (s.tables server)) ∧
        CopyStep s s' client server v (BitVec.ofInt 64 r) ∨
      ¬(env.slotOk = true ∧ CanAlloc env (s.tables server)) ∧ r = -eNOMEM := by
  have inside := at_some_lt (inv.tables client).toTableShape place
  have small := size_small (inv.tables client).toTableShape
  obtain ⟨slot, ob, heap, _, _, isvalid, _, _⟩ := inv.installed client v.toNat p place
  rw [capId_eq (by omega), capCopy, getSlot_of_at (inv.tables client).toTableShape place] at run
  simp only [heap, isvalid, Bool.true_eq_false, if_false, bind_val] at run
  have ok := inv.tables server
  by_cases room : CanAlloc env (s.tables server)
  · have outcome := allocSlotId_outcome env ok
    generalize (allocSlotId env (s.tables server)).val = result at outcome run
    cases outcome with
    | halted => cases run
    | noMem noMemory full =>
      rcases room with expand | found
      · rw [noMemory] at expand
        cases expand
      · exact absurd full found
    | done new id alloc =>
      cases memory : env.slotOk with
      | false =>
        simp only [if_neg (show ¬ ((id : Int) = -1) by omega), memory, if_true, bind_val] at run
        cases run
        exact .inr ⟨fun both => absurd both.1 (by decide), rfl⟩
      | true =>
        obtain ⟨slot', ob', final, heap', object, member, _, finalOk, view, copy⟩ :=
          copyIntoSlot_eq inv env server id new false 0 place alloc
        rw [heap] at heap'
        cases heap'
        simp only [if_neg (show ¬ ((id : Int) = -1) by omega), memory, Bool.true_eq_false,
          if_false, copy] at run
        cases run
        have idIn := alloc.inside
        have idSmall := size_small alloc.shape
        have toNat : (BitVec.ofInt 64 (id : Int)).toNat = id := toNat_ofInt_id (by omega)
        have free := alloc.at_free ok
        refine .inl ⟨⟨rfl, room⟩, ?_, by rw [toNat]; exact free, ?_, p, slot, _, place, heap,
          rfl, rfl⟩
        · exact inv.keep_addSlot (.inl rfl) object rfl rfl finalOk free view
            rfl (insertAfter_perm p s.nextSlot ob'.copies member)
        intro g i
        rw [toNat]
        change (update s.tables server final g).at i = _
        by_cases same : g = server
        · subst same
          rw [update_self, view]
          simp
        · rw [update_of_ne same, if_neg (fun both => same both.1)]
  · refine .inr ⟨fun both => room both.2, ?_⟩
    rw [allocSlotId_full room] at run
    simp only [if_neg (show ¬ (-eNOMEM = -1) by decide)] at run
    split at run
    · simp only [bind_val] at run
      cases run
      rfl
    · -- the slot is filled in and installed at the id `-ENOMEM`
      exact (copyIntoSlot_result run).1

theorem tablesOk_update (ok : ∀ g, TableOk (s.tables g)) (new : TableOk t)
    (tables : s'.tables = update s.tables server t) : ∀ g, TableOk (s'.tables g) := by
  rw [tables]
  exact (forall_update_iff s.tables fun _ => TableOk).mpr ⟨new, fun g _ => ok g⟩

theorem capCopy_tablesOk {srcSlotId : Int} (ok : ∀ g, TableOk (s.tables g))
    (run : (capCopy env s client server srcSlotId false 0).val = some (s', r)) :
    ∀ g, TableOk (s'.tables g) := by
  rw [capCopy] at run
  split at run
  · cases run
    exact ok
  split at run
  · cases run
  split at run
  · cases run
    exact ok
  simp only [bind_val] at run
  have outcome := allocSlotId_outcome env (ok server)
  generalize (allocSlotId env (s.tables server)).val = result at outcome run
  cases outcome with
  | halted => cases run
  | noMem _ _ =>
    simp only [if_neg (show ¬ (-eNOMEM = -1) by decide)] at run
    split at run
    · simp only [bind_val, freeSlotIdInt, if_pos (show -eNOMEM < 0 by decide)] at run
      cases run
      exact tablesOk_update ok (ok server) rfl
    obtain ⟨_, final, install, tables⟩ := copyIntoSlot_result run
    simp only [installSlot, bind_val, if_pos (show -eNOMEM < 0 by decide)] at install
    split at install
    · cases install
      exact tablesOk_update ok (ok server) tables
    · cases install
  | done new id alloc =>
    simp only [if_neg (show ¬ ((id : Int) = -1) by omega)] at run
    split at run
    · simp only [bind_val, freeSlotIdInt, if_neg (show ¬ ((id : Int) < 0) by omega),
        Int.toNat_natCast] at run
      cases run
      exact tablesOk_update ok (freeSlotId_allocated alloc (ok server)).1 rfl
    obtain ⟨_, final, install, tables⟩ := copyIntoSlot_result run
    obtain ⟨final', install', finalOk, _⟩ :=
      installSlot_allocated env s.nextSlot alloc (ok server)
    rw [install'] at install
    cases install
    exact tablesOk_update ok finalOk tables

end OneCopy

/-! ## The loop -/

section Loop
variable {env : Nat → Env} {client server : Nat} {s s1 s' : Sys}

/-- The loop never jumps to `out_free_cap`. -/
theorem sendCaps_through : ∀ (buf sent : List Word) {s s' : Sys} {out : List Word} {through : Bool},
    (∀ g, TableOk (s.tables g)) →
    (sendCaps env client server buf sent s).val = some (s', out, through) →
    through = true ∧ (∃ new, out = sent.reverse ++ new) ∧ ∀ g, TableOk (s'.tables g) := by
  intro buf
  induction buf with
  | nil =>
    intro sent s s' out through ok run
    cases run
    exact ⟨rfl, ⟨[], (append_nil _).symm⟩, ok⟩
  | cons id rest ih =>
    intro sent s s' out through ok run
    simp only [sendCaps, bind_val] at run
    split at run
    · cases run
    · rename_i s1 r copy
      rw [if_neg (not_negative _)] at run
      obtain ⟨done, ⟨new, same⟩, ok'⟩ := ih _ (capCopy_tablesOk ok copy) run
      refine ⟨done, ⟨BitVec.ofInt 64 r :: new, ?_⟩, ok'⟩
      rw [same, reverse_cons, append_assoc, singleton_append]

theorem AllCopied.cons {v v' : Word} {rest new : List Word} (inv : CapInv none s)
    (step : CopyStep s s1 client server v v')
    (valid : ∀ w ∈ rest, (s.tables client).at w.toNat ≠ none)
    (copied : AllCopied s1 s' client server rest new)
    (kept : ∀ q slot, s1.slotHeap q = some slot → s'.slotHeap q = some slot) :
    AllCopied s s' client server (v :: rest) (v' :: new) := by
  obtain ⟨p, slot, slot', place, heap, slots, object⟩ := step.slots
  have installed : (s1.tables server).at v'.toNat = some s.nextSlot := by
    rw [step.view, if_pos ⟨rfl, rfl⟩]
  have apart : ∀ w ∈ new, w.toNat ≠ v'.toNat := by
    intro w member same
    have free := copied.fresh w member
    rw [same, installed] at free
    cases free
  refine ⟨.cons ?_ ?_, ?_, ?_, ?_⟩
  · refine ⟨p, slot, s.nextSlot, slot', place, heap, ?_, ?_, object⟩
    · rw [copied.others server v'.toNat (fun _ => apart), installed]
    · exact kept _ _ (by rw [slots, update_self])
  · -- the other ids name in `s1` what they named in `s`
    refine ((forall₂_and_left _ _).mpr ⟨valid, copied.named⟩).imp ?_
    rintro w w' ⟨present, p1, slot1, p', slot1', place1, heap1, rest⟩
    have old : (s1.tables client).at w.toNat = (s.tables client).at w.toNat := by
      rw [step.view]
      refine if_neg ?_
      rintro ⟨rfl, same⟩
      rw [same, step.fresh] at present
      exact present rfl
    rw [old] at place1
    obtain ⟨slot2, _, heap2, _⟩ := inv.installed client w.toNat p1 place1
    have notNew : p1 ≠ s.nextSlot := by
      rintro rfl
      rw [inv.slotFresh s.nextSlot (le_refl _)] at heap2
      cases heap2
    rw [slots, update_of_ne notNew] at heap1
    exact ⟨p1, slot1, p', slot1', place1, heap1, rest⟩
  · exact nodup_cons.mpr ⟨fun member => apart v' member rfl, copied.distinct⟩
  · intro w member
    rcases mem_cons.mp member with rfl | later
    · exact step.fresh
    · have free := copied.fresh w later
      rw [step.view, if_neg (fun both => apart w later both.2)] at free
      exact free
  · intro g i other
    rw [copied.others g i (fun same w member => other same w (mem_cons_of_mem v' member)),
      step.view]
    refine if_neg ?_
    rintro ⟨same, rfl⟩
    exact other same v' mem_cons_self rfl

/-- All copies fit and everything is copied, or the error of one that fails is among the ids. -/
theorem sendCaps_cases : ∀ (buf sent : List Word) {s s' : Sys} {out : List Word} {through : Bool},
    CapInv none s → (∀ v ∈ buf, (s.tables client).at v.toNat ≠ none) →
    (sendCaps env client server buf sent s).val = some (s', out, through) →
    (CopiesFit env client server buf sent.length s ∧ ∃ new, out = sent.reverse ++ new ∧
        AllCopied s s' client server buf new ∧
        ∀ q slot, s.slotHeap q = some slot → s'.slotHeap q = some slot) ∨
      ¬ CopiesFit env client server buf sent.length s ∧ BitVec.ofInt 64 (-eNOMEM) ∈ out := by
  intro buf
  induction buf with
  | nil =>
    intro sent s s' out through _ _ run
    cases run
    exact .inl ⟨trivial, [], (append_nil _).symm,
      ⟨.nil, .nil, fun _ never => absurd never not_mem_nil, fun _ _ _ => rfl⟩,
      fun _ _ heap => heap⟩
  | cons id rest ih =>
    intro sent s s' out through inv valid run
    simp only [sendCaps, bind_val] at run
    split at run
    · cases run
    rename_i s1 r copy
    rw [if_neg (not_negative _)] at run
    obtain ⟨p, place⟩ := Option.ne_none_iff_exists'.mp (valid id mem_cons_self)
    rcases capCopy_cases inv place copy with ⟨fits, step⟩ | ⟨unfit, error⟩
    · have validRest : ∀ v ∈ rest, (s.tables client).at v.toNat ≠ none :=
        fun v member => valid v (mem_cons_of_mem id member)
      have valid1 : ∀ v ∈ rest, (s1.tables client).at v.toNat ≠ none := by
        intro v member
        rw [step.view]
        split
        · simp
        · exact validRest v member
      rcases ih (BitVec.ofInt 64 r :: sent) step.inv valid1 run with
        ⟨fitsRest, new, same, copied, kept⟩ | ⟨unfitRest, error⟩
      · refine .inl ⟨⟨fits, fun s2 r2 copy2 => ?_⟩, BitVec.ofInt 64 r :: new, ?_,
          copied.cons inv step validRest kept, fun q slot heap => ?_⟩
        · rw [copy] at copy2
          cases copy2
          exact fitsRest
        · rw [same, reverse_cons, append_assoc, singleton_append]
        · obtain ⟨_, _, _, _, _, slots, _⟩ := step.slots
          refine kept q slot ?_
          have notNew : q ≠ s.nextSlot := by
            rintro rfl
            rw [inv.slotFresh s.nextSlot (le_refl _)] at heap
            cases heap
          rw [slots, update_of_ne notNew]
          exact heap
      · exact .inr ⟨fun all => unfitRest (all.2 s1 r copy), error⟩
    · obtain ⟨_, ⟨new, same⟩, _⟩ := sendCaps_through rest _ (capCopy_tablesOk inv.tables copy) run
      refine .inr ⟨fun all => unfit all.1, ?_⟩
      rw [same, error, reverse_cons]
      simp

end Loop

/-! ## The whole call -/

section Call
variable {send : SendEnv} {env : Nat → Env} {s s' : Sys} {client server : Nat}
  {buf buf' : List Word} {r : Int}

inductive SendOutcome (send : SendEnv) (env : Nat → Env) (s : Sys) (client server : Nat)
    (buf : List Word) : Sys → List Word → Int → Prop where
  | empty (none : buf.length = 0) : SendOutcome send env s client server buf s buf 0
  | tooMany (many : maxCapTransfer ≤ buf.length) :
      SendOutcome send env s client server buf s buf (-eINVAL)
  | noBuf (nonempty : buf.length ≠ 0) (few : buf.length < maxCapTransfer)
      (memory : send.bufOk = false) : SendOutcome send env s client server buf s buf (-eNOMEM)
  | sent {s' : Sys} {out : List Word} {through : Bool} (nonempty : buf.length ≠ 0)
      (few : buf.length < maxCapTransfer) (memory : send.bufOk = true)
      (run : (sendCaps env client server buf [] s).val = some (s', out, through)) :
      SendOutcome send env s client server buf s' out 0

section
variable (ok : ∀ g, TableOk (s.tables g))
  (run : (ipcSendCapCopies send env s client server buf).val = some (s', buf', r))
include ok run

theorem ipcSendCapCopies_outcome : SendOutcome send env s client server buf s' buf' r := by
  rw [ipcSendCapCopies] at run
  split at run
  · rename_i none
    cases run
    exact .empty none
  rename_i nonempty
  split at run
  · rename_i many
    cases run
    exact .tooMany many
  rename_i few
  split at run
  · cases run
  split at run
  · rename_i memory
    cases run
    exact .noBuf nonempty (Nat.lt_of_not_le few) memory
  rename_i memory
  split at run
  · cases run
  simp only [bind_val] at run
  split at run
  · cases run
  · rename_i s1 out loop
    cases (sendCaps_through buf [] ok loop).1
  · rename_i s1 out loop
    simp only [pure_val] at run
    split at run
    · cases run
      exact .sent nonempty (Nat.lt_of_not_le few) (Bool.not_eq_false _ |>.mp memory) loop
    · cases run

end

theorem named_of_mem {ids ids' : List Word}
    (named : Forall₂ (SameObject s s' client server) ids ids') {v' : Word}
    (member : v' ∈ ids') : ∃ v, SameObject s s' client server v v' := by
  induction named with
  | nil => cases member
  | cons head _ ih =>
    rcases mem_cons.mp member with rfl | later
    · exact ⟨_, head⟩
    · exact ih later

theorem TransferAtomic.of_failure (negative : r < 0) : TransferAtomic s s client server buf buf r :=
  ⟨fun zero => absurd zero (by omega), fun _ => ⟨negative, rfl, fun _ => rfl⟩⟩

end Call

/-- A call that comes back is atomic if and only if there is nothing to send, the call is refused
before the loop, or every listed id is a capability of the caller and every copy gets its memory. -/
theorem ipcSendCap_atomic_iff (send : SendEnv) (env : Nat → Env) (s s' : Sys)
    (client server : Nat) (buf buf' : List Word) (r : Int) (inv : CapInv none s)
    (run : (ipcSendCapCopies send env s client server buf).val = some (s', buf', r)) :
    TransferAtomic s s' client server buf buf' r ↔ SendFits send env s client server buf := by
  cases ipcSendCapCopies_outcome inv.tables run with
  | empty none =>
    refine ⟨fun _ => .inl none, fun _ => ⟨fun _ => ?_, ?_⟩⟩
    · obtain rfl := length_eq_zero_iff.mp none
      exact ⟨.nil, .nil, fun _ never => absurd never not_mem_nil, fun _ _ _ => rfl⟩
    · rintro ⟨v, member, _⟩
      rw [length_eq_zero_iff.mp none] at member
      cases member
  | tooMany many =>
    exact ⟨fun _ => .inr (.inl many), fun _ => .of_failure (by decide)⟩
  | noBuf _ _ memory =>
    exact ⟨fun _ => .inr (.inr (.inl memory)), fun _ => .of_failure (by decide)⟩
  | sent nonempty few memory loop =>
    constructor
    · intro atomic
      have valid : ∀ v ∈ buf, (s.tables client).at v.toNat ≠ none := by
        intro v member absent
        exact absurd (atomic.refused ⟨v, member, absent⟩).1 (by decide)
      refine .inr (.inr (.inr ⟨valid, ?_⟩))
      refine ((sendCaps_cases buf [] inv valid loop).resolve_right ?_).1
      -- the error is written back as an id, and no table is that large
      rintro ⟨_, error⟩
      obtain ⟨v, _, _, p', _, _, _, place, _⟩ := named_of_mem (atomic.copied rfl).named error
      have ok := ((sendCaps_through buf [] inv.tables loop).2.2 server).toTableShape
      have inside := at_some_lt ok place
      have small := size_small ok
      have large : (BitVec.ofInt 64 (-eNOMEM)).toNat = 2 ^ 64 - 12 := by decide
      omega
    · rintro (none | many | noBuf | ⟨valid, fits⟩)
      · exact absurd none nonempty
      · exact absurd many (Nat.not_le_of_lt few)
      · rw [memory] at noBuf
        cases noBuf
      · obtain ⟨_, new, same, copied, _⟩ :=
          (sendCaps_cases buf [] inv valid loop).resolve_right fun bad => bad.1 fits
        refine ⟨fun _ => ?_, ?_⟩
        · rw [same]
          exact copied
        · rintro ⟨v, member, absent⟩
          exact absurd absent (valid v member)

def sendOk : SendEnv := ⟨true, true, true, true⟩

theorem ipcSendCap_atomic_two_caps :
    ∃ s' buf' r, (ipcSendCapCopies sendOk (fun _ => plenty) (afterCreates 2) 0 1 [0, 1]).val =
      some (s', buf', r) ∧ TransferAtomic (afterCreates 2) s' 0 1 [0, 1] buf' r := by
  have comes : (ipcSendCapCopies sendOk (fun _ => plenty) (afterCreates 2) 0 1 [0, 1]).val.isSome :=
    by decide +kernel
  obtain ⟨⟨s', buf', r⟩, run⟩ := Option.isSome_iff_exists.mp comes
  refine ⟨s', buf', r, run, ?_⟩
  obtain ⟨inv, packed, _⟩ := afterCreates_packed 2 (by decide)
  have valid : ∀ v ∈ [(0 : Word), 1], ((afterCreates 2).tables 0).at v.toNat ≠ none := by
    intro v member
    have below : v.toNat < 2 := by
      simp only [mem_cons, not_mem_nil, or_false] at member
      rcases member with rfl | rfl <;> decide
    rw [← mem_usedIds packed.ok.toTableShape, ← bit_iff_used packed.ok, packed.bits]
    exact decide_eq_true below
  exact (ipcSendCap_atomic_iff sendOk (fun _ => plenty) (afterCreates 2) s' 0 1 [0, 1] buf' r
    inv run).mpr
    (.inr (.inr (.inr ⟨valid, ⟨⟨rfl, .inl rfl⟩, fun _ _ _ => ⟨⟨rfl, .inl rfl⟩, fun _ _ _ =>
      trivial⟩⟩⟩)))

/-- The id 5 is no capability of the caller; the call returns 0 all the same. -/
theorem ipcSendCap_invalid_id_accepted :
    ∃ s' buf' r, (ipcSendCapCopies sendOk (fun _ => plenty) (afterCreates 1) 0 1 [5]).val =
      some (s', buf', r) ∧ ¬ TransferAtomic (afterCreates 1) s' 0 1 [5] buf' r := by
  have comes : (ipcSendCapCopies sendOk (fun _ => plenty) (afterCreates 1) 0 1 [5]).val.map
      (fun result => result.2.2) = some 0 := by decide +kernel
  obtain ⟨⟨s', buf', r⟩, run, zero⟩ := Option.map_eq_some_iff.mp comes
  refine ⟨s', buf', r, run, fun atomic => ?_⟩
  have absent : ((afterCreates 1).tables 0).at (5 : Word).toNat = none := by decide +kernel
  have negative := (atomic.refused ⟨5, mem_singleton_self 5, absent⟩).1
  have result : r = 0 := zero
  omega

end KernelLabs.ChCore
