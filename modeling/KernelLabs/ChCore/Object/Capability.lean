import KernelLabs.ChCore.Object.SlotTable

/-!
# Kernel objects and capabilities

Model of `kernel/object/capability.c` and of the object part of
`kernel/object/cap_group.c`.  Operations are atomic (the source holds the table and
list locks), so locks do not appear.  The heap is explicit: `slotHeap` and `objHeap`
hold the live `object_slot`s and `object`s by address, and addresses are not reused.

An operation ends with a state and a result, or with `none` when the kernel does not
get past a `BUG_ON` or uses a pointer to memory that is not live.  The `Acc` layer
records whether every index into a slot table was inside its array.
-/

set_option autoImplicit false

namespace KernelLabs.ChCore

open Lib Function

structure ObjectSlot where
  slotId : Int
  capGroup : Nat
  isvalid : Bool
  rights : Nat
  object : Nat
  deriving DecidableEq, Repr

/-- `struct object`; `copies` is the list behind `copies_head`, first element first. -/
structure Object where
  type : Nat
  size : Nat
  refcount : Nat
  copies : List Nat
  deriving DecidableEq, Repr

/-- All capability groups and the kernel heap.  `refs` counts the references from `get_opaque` that
are not given back, `kfreed` and `deinited` record the calls of `kfree` and of destructors. -/
structure Sys where
  tables : Nat → SlotTable
  slotHeap : Nat → Option ObjectSlot
  objHeap : Nat → Option Object
  nextSlot : Nat
  nextObj : Nat
  refs : Nat → Nat
  kfreed : List Nat
  deinited : List Nat
  inb : Bool
  halted : Bool

def typeThread : Nat := 1

def typeIrq : Nat := 4

/-- Whether `obj_deinit_tbl` has an entry for the type; neither `thread_deinit` nor
`irq_deinit` touches a slot table or a reference count. -/
def hasDeinit (type : Nat) : Bool := type == typeThread || type == typeIrq

def Sys.setTable (s : Sys) (g : Nat) (t : SlotTable) : Sys :=
  { s with tables := update s.tables g t }

def Sys.setObj (s : Sys) (o : Nat) (ob : Object) : Sys :=
  { s with objHeap := update s.objHeap o (some ob) }

def Sys.kfreeObj (s : Sys) (o : Nat) : Sys :=
  { s with objHeap := update s.objHeap o none, kfreed := o :: s.kfreed }

def objAlloc (s : Sys) (type size : Nat) : Sys :=
  { s with
    objHeap := update s.objHeap s.nextObj
      (some { type := type, size := size, refcount := 0, copies := [] })
    nextObj := s.nextObj + 1 }

def Sys.addSlot (s : Sys) (slot : ObjectSlot) (table : SlotTable) (ob : Object) : Sys :=
  { s with
    tables := update s.tables slot.capGroup table
    slotHeap := update s.slotHeap s.nextSlot (some slot)
    objHeap := update s.objHeap slot.object (some ob)
    nextSlot := s.nextSlot + 1 }

def capAlloc (env : Env) (s : Sys) (g o rights : Nat) : Acc (Option (Sys × Int)) := do
  match ← allocSlotId env (s.tables g) with
  | none => pure none
  | some (t, slotId) =>
    if slotId < 0 then pure (some (s.setTable g t, -eNOMEM))
    else if env.slotOk = false then do
      let t ← freeSlotId t slotId.toNat
      pure (some (s.setTable g t, -eNOMEM))
    else
      match s.objHeap o with
      | none => pure none
      | some ob =>
        if ob.refcount ≠ 0 then pure none
        else do
          match ← installSlot env t slotId s.nextSlot with
          | none => pure none
          | some t =>
            pure (some (s.addSlot
              { slotId := slotId, capGroup := g, isvalid := true, rights := rights,
                object := o } t
              { ob with refcount := 1, copies := s.nextSlot :: ob.copies }, slotId))

/-- Steps 2 and 3 of `__cap_free`: unlink and free the slot, drop its reference. -/
def Sys.dropSlot (s : Sys) (p o : Nat) : Option Sys :=
  match s.objHeap o with
  | none => none
  | some ob =>
    let s := { s with slotHeap := update s.slotHeap p none }
    let copies := ob.copies.erase p
    if ob.refcount = 1 then
      let s := if hasDeinit ob.type then { s with deinited := o :: s.deinited } else s
      if copies = [] then some (s.kfreeObj o) else none
    else some (s.setObj o { ob with refcount := ob.refcount - 1, copies := copies })

def capFreeAt (s : Sys) (g : Nat) (slotId : Int) : Acc (Option (Sys × Int)) :=
  match getSlot (s.tables g) slotId with
  | none => pure (some (s, -eCAPBILITY))
  | some p =>
    match s.slotHeap p with
    | none => pure none
    | some slot =>
      if slot.isvalid = false then pure (some (s, -eCAPBILITY))
      else do
        let t ← freeSlotId (s.tables g) slotId.toNat
        pure (((s.setTable g t).dropSlot p slot.object).map fun s => (s, 0))

def capFree (s : Sys) (g : Nat) (slotId : Int) : Acc (Option (Sys × Int)) := capFreeAt s g slotId

/-- The loop of `obj_free` over the slots of the object.  The successor is read before the body,
which unlinks only the current slot, so the loop visits the list as it was. -/
def freeCopies : List Nat → Sys → Acc (Option Sys)
  | [], s => pure (some s)
  | p :: rest, s =>
    match s.slotHeap p with
    | none => pure none
    | some slot => do
      match ← capFreeAt s slot.capGroup slot.slotId with
      | some (s, 0) => freeCopies rest s
      | _ => pure none

def objFree (s : Sys) (o : Nat) : Acc (Option Sys) :=
  match s.objHeap o with
  | none => pure none
  | some ob =>
    if ob.refcount = 0 then pure (some (s.kfreeObj o))
    else freeCopies ob.copies s

/-- `get_opaque`; a successful call hands out the object's address. -/
def getOpaque (env : Env) (s : Sys) (g : Nat) (slotId : Int) (typeValid : Bool) (type : Nat) :
    Acc (Option (Sys × Option Nat)) := do
  match ← isValidSlotId env (s.tables g) slotId with
  | none => pure none
  | some false => pure (some (s, none))
  | some true =>
    match getSlot (s.tables g) slotId with
    | none => pure none
    | some p =>
      match s.slotHeap p with
      | none => pure none
      | some slot =>
        if slot.isvalid = false then pure none
        else
          match s.objHeap slot.object with
          | none => pure none
          | some ob =>
            if typeValid = false ∨ ob.type = type then
              pure (some
                ({ s.setObj slot.object { ob with refcount := ob.refcount + 1 } with
                    refs := update s.refs slot.object (s.refs slot.object + 1) },
                  some slot.object))
            else pure (some (s, none))

def objPut (s : Sys) (o : Nat) : Option Sys :=
  match s.objHeap o with
  | none => none
  | some ob =>
    let s := { s with refs := update s.refs o (s.refs o - 1) }
    if ob.refcount = 1 then some (s.kfreeObj o)
    else some (s.setObj o { ob with refcount := ob.refcount - 1 })

def insertAfter (node new : Nat) : List Nat → List Nat
  | [] => []
  | a :: rest => if a = node then a :: new :: rest else a :: insertAfter node new rest

/-- `free_slot_id` on an `int`: a negative id misses all three arrays. -/
def freeSlotIdInt (t : SlotTable) (slotId : Int) : Acc SlotTable :=
  if slotId < 0 then ⟨t, false⟩ else freeSlotId t slotId.toNat

/-- The second half of `cap_copy`: the source slot is read again, now from the table
that may have grown, and the new slot is filled in and installed. -/
def copyIntoSlot (env : Env) (s : Sys) (t : SlotTable) (src dst : Nat)
    (srcSlotId destSlotId : Int) (newRightsValid : Bool) (newRights : Nat) :
    Acc (Option (Sys × Int)) :=
  match getSlot ((s.setTable dst t).tables src) srcSlotId with
  | none => pure none
  | some p =>
    match s.slotHeap p with
    | none => pure none
    | some srcSlot =>
      match s.objHeap srcSlot.object with
      | none => pure none
      | some ob => do
        match ← installSlot env t destSlotId s.nextSlot with
        | none => pure none
        | some t =>
          pure (some (s.addSlot
            { slotId := destSlotId, capGroup := dst, isvalid := true,
              rights := if newRightsValid then newRights else srcSlot.rights,
              object := srcSlot.object } t
            { ob with
              refcount := ob.refcount + 1
              copies := insertAfter p s.nextSlot ob.copies }, destSlotId))

/-- `cap_copy`.  The failure of `alloc_slot_id` is tested with `== -1`, as in the source. -/
def capCopy (env : Env) (s : Sys) (src dst : Nat) (srcSlotId : Int) (newRightsValid : Bool)
    (newRights : Nat) : Acc (Option (Sys × Int)) :=
  match getSlot (s.tables src) srcSlotId with
  | none => pure (some (s, -eCAPBILITY))
  | some p =>
    match s.slotHeap p with
    | none => pure none
    | some srcSlot =>
      if srcSlot.isvalid = false then pure (some (s, -eCAPBILITY))
      else do
        match ← allocSlotId env (s.tables dst) with
        | none => pure none
        | some (t, destSlotId) =>
          if destSlotId = -1 then pure (some (s.setTable dst t, -eNOMEM))
          else if env.slotOk = false then do
            let t ← freeSlotIdInt t destSlotId
            pure (some (s.setTable dst t, -eNOMEM))
          else
            copyIntoSlot env s t src dst srcSlotId destSlotId newRightsValid newRights

def capMove (env : Env) (s : Sys) (src dst : Nat) (srcSlotId : Int) (newRightsValid : Bool)
    (newRights : Nat) : Acc (Option (Sys × Int)) := do
  match ← capCopy env s src dst srcSlotId newRightsValid newRights with
  | none => pure none
  | some (s, r) =>
    if r < 0 then pure (some (s, r))
    else do
      match ← capFree s src srcSlotId with
      | some (s, 0) => pure (some (s, 0))
      | _ => pure none

def capRevoke (env : Env) (s : Sys) (g : Nat) (slotId : Int) : Acc (Option (Sys × Int)) := do
  match ← getOpaque env s g slotId false 0 with
  | none => pure none
  | some (s, none) => pure (some (s, -eCAPBILITY))
  | some (s, some o) => do
    match ← objFree s o with
    | none => pure none
    | some s => pure ((objPut s o).map fun s => (s, 0))

/-- `obj_alloc` followed by `cap_alloc`, with the fallback every caller has: the object
is given back with `obj_free` when `cap_alloc` fails. -/
def createObject (env : Env) (s : Sys) (g type size rights : Nat) : Acc (Option (Sys × Int)) :=
  if env.objOk = false then pure (some (s, -eNOMEM))
  else do
    match ← capAlloc env (objAlloc s type size) g s.nextObj rights with
    | none => pure none
    | some (s', r) =>
      if r < 0 then do
        match ← objFree s' s.nextObj with
        | none => pure none
        | some s' => pure (some (s', r))
      else pure (some (s', r))

inductive CapOp where
  | create (g type size rights : Nat)
  | copy (src dst : Nat) (srcSlotId : Int) (newRightsValid : Bool) (newRights : Nat)
  | move (src dst : Nat) (srcSlotId : Int) (newRightsValid : Bool) (newRights : Nat)
  | free (g : Nat) (slotId : Int)
  | revoke (g : Nat) (slotId : Int)
  | get (g : Nat) (slotId : Int) (typeValid : Bool) (type : Nat)
  | put (o : Nat)
  deriving DecidableEq, Repr

def runCapOp (env : Env) (s : Sys) : CapOp → Acc (Option (Sys × Int))
  | .create g type size rights => createObject env s g type size rights
  | .copy src dst id valid rights => capCopy env s src dst id valid rights
  | .move src dst id valid rights => capMove env s src dst id valid rights
  | .free g id => capFree s g id
  | .revoke g id => capRevoke env s g id
  | .get g id valid type => do
    match ← getOpaque env s g id valid type with
    | none => pure none
    | some (s, o) => pure (some (s, if o.isSome then 1 else 0))
  | .put o => pure ((objPut s o).map fun s => (s, 0))

/-- A step of a run.  Once the kernel has stopped nothing happens any more. -/
def capStep (s : Sys) (op : Env × CapOp) : Sys :=
  if s.halted then s
  else
    match runCapOp op.1 s op.2 with
    | ⟨none, inb⟩ => { s with inb := s.inb && inb, halted := true }
    | ⟨some (s', _), inb⟩ => { s' with inb := s.inb && inb }

theorem capStep_eq {s s' : Sys} {r : Int} (op : Env × CapOp) (running : s.halted = false)
    (run : (runCapOp op.1 s op.2).val = some (s', r)) :
    capStep s op = { s' with inb := s.inb && (runCapOp op.1 s op.2).inb } := by
  rw [capStep, running]
  generalize runCapOp op.1 s op.2 = result at run ⊢
  obtain ⟨val, inb⟩ := result
  cases run
  rfl

def startSys (tables : Nat → SlotTable) : Sys :=
  { tables := tables, slotHeap := fun _ => none, objHeap := fun _ => none, nextSlot := 0,
    nextObj := 0, refs := fun _ => 0, kfreed := [], deinited := [], inb := true, halted := false }

end KernelLabs.ChCore
