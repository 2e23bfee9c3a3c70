import KernelLabs.ChCore.Object.RefCount

/-!
# Destructors of kernel objects

Three functions free an object: `__cap_free` with the last slot, `obj_put` with the last reference
handed out, and `cap_revoke`, which holds a reference of its own while `obj_free` takes the slots
away and so always ends in `obj_put`.  Only `__cap_free` looks into `obj_deinit_tbl`.

The calls of a destructor and of `kfree` are listed in their order beside the run of the model.
-/

set_option autoImplicit false

namespace KernelLabs.ChCore

open Lib Function List Option Acc

/-- A call on an object.  `deinit` carries the references that are left then: slots on the object's
list and references handed out. -/
inductive ObjEvent where
  | deinit (o left : Nat)
  | kfree (o : Nat)
  deriving DecidableEq, Repr

def ObjEvent.object : ObjEvent → Nat
  | .deinit o _ => o
  | .kfree o => o

/-! ## The calls an operation makes -/

def dropSlotEvents (s : Sys) (p o : Nat) : List ObjEvent :=
  match s.objHeap o with
  | none => []
  | some ob =>
    if ob.refcount = 1 then
      (if hasDeinit ob.type then [.deinit o ((ob.copies.erase p).length + s.refs o)] else []) ++
        if ob.copies.erase p = [] then [.kfree o] else []
    else []

def capFreeEvents (s : Sys) (g : Nat) (slotId : Int) : List ObjEvent :=
  match getSlot (s.tables g) slotId with
  | none => []
  | some p =>
    match s.slotHeap p with
    | none => []
    | some slot => if slot.isvalid = false then [] else dropSlotEvents s p slot.object

def freeCopiesEvents : List Nat → Sys → List ObjEvent
  | [], _ => []
  | p :: rest, s =>
    match s.slotHeap p with
    | none => []
    | some slot =>
      capFreeEvents s slot.capGroup slot.slotId ++
        match (capFreeAt s slot.capGroup slot.slotId).val with
        | some (s, 0) => freeCopiesEvents rest s
        | _ => []

def objFreeEvents (s : Sys) (o : Nat) : List ObjEvent :=
  match s.objHeap o with
  | none => []
  | some ob => if ob.refcount = 0 then [.kfree o] else freeCopiesEvents ob.copies s

def objPutEvents (s : Sys) (o : Nat) : List ObjEvent :=
  match s.objHeap o with
  | none => []
  | some ob => if ob.refcount = 1 then [.kfree o] else []

def createEvents (env : Env) (s : Sys) (g type size rights : Nat) : List ObjEvent :=
  if env.objOk = false then []
  else
    match (capAlloc env (objAlloc s type size) g s.nextObj rights).val with
    | none => []
    | some (s', r) => if r < 0 then objFreeEvents s' s.nextObj else []

def capMoveEvents (env : Env) (s : Sys) (src dst : Nat) (srcSlotId : Int) (newRightsValid : Bool)
    (newRights : Nat) : List ObjEvent :=
  match (capCopy env s src dst srcSlotId newRightsValid newRights).val with
  | none => []
  | some (s, r) => if r < 0 then [] else capFreeEvents s src srcSlotId

def capRevokeEvents (env : Env) (s : Sys) (g : Nat) (slotId : Int) : List ObjEvent :=
  match (getOpaque env s g slotId false 0).val with
  | some (s, some o) =>
    objFreeEvents s o ++
      match (objFree s o).val with
      | none => []
      | some s => objPutEvents s o
  | _ => []

def opEvents (env : Env) (s : Sys) : CapOp → List ObjEvent
  | .create g type size rights => createEvents env s g type size rights
  | .copy _ _ _ _ _ => []
  | .move src dst id valid rights => capMoveEvents env s src dst id valid rights
  | .free g id => capFreeEvents s g id
  | .revoke g id => capRevokeEvents env s g id
  | .get _ _ _ _ => []
  | .put o => objPutEvents s o

variable {o rights g : Nat} {r slotId : Int} {valid : Bool}

/-! ### Operations that make no call -/

def typeAt (s : Sys) (o : Nat) : Option Nat := (s.objHeap o).map Object.type

theorem typeAt_of_update {s s' : Sys} {new : Option Object}
    (objects : s'.objHeap = update s.objHeap o new) :
    typeAt s' = update (typeAt s) o (new.map Object.type) := by
  funext o'
  by_cases eq : o' = o
  · subst eq
    simp only [typeAt, objects, update_self]
  · simp only [typeAt, objects, update_of_ne eq]

theorem typeAt_of_same {s s' : Sys} {ob new : Object} (heap : s.objHeap o = some ob)
    (objects : s'.objHeap = update s.objHeap o (some new)) (type : new.type = ob.type) :
    typeAt s' = typeAt s := by
  have before : typeAt s o = some new.type := by rw [typeAt, heap, type]; rfl
  rw [typeAt_of_update objects, map_some, ← before, update_eq_self]

structure NoCalls (s s' : Sys) : Prop where
  types : typeAt s' = typeAt s
  nextObj : s'.nextObj = s.nextObj
  kfreed : s'.kfreed = s.kfreed
  deinited : s'.deinited = s.deinited

variable {env : Env}

section NoCalls
variable {s s' : Sys}

theorem NoCalls.refl (s : Sys) : NoCalls s s := ⟨rfl, rfl, rfl, rfl⟩

theorem NoCalls.setTable (s : Sys) (g : Nat) (t : SlotTable) : NoCalls s (s.setTable g t) :=
  ⟨rfl, rfl, rfl, rfl⟩

theorem NoCalls.addSlot {slot : ObjectSlot} {ob new : Object}
    {t : SlotTable} (heap : s.objHeap slot.object = some ob) (type : new.type = ob.type) :
    NoCalls s (s.addSlot slot t new) :=
  ⟨typeAt_of_same heap rfl type, rfl, rfl, rfl⟩

theorem capAlloc_noCalls (run : (capAlloc env s g o rights).val = some (s', r)) : NoCalls s s' := by
  simp only [capAlloc, bind_val] at run
  split at run
  · cases run
  split at run
  · cases run
    exact .setTable ..
  split at run
  · simp only [bind_val] at run
    cases run
    exact .setTable ..
  split at run
  · cases run
  rename_i ob heap
  split at run
  · cases run
  simp only [bind_val] at run
  split at run
  · cases run
  · cases run
    refine .addSlot heap ?_
    rfl

theorem capCopy_noCalls {src dst : Nat} {srcSlotId : Int}
    (run : (capCopy env s src dst srcSlotId valid rights).val = some (s', r)) : NoCalls s s' := by
  rw [capCopy] at run
  split at run
  · cases run
    exact .refl s
  split at run
  · cases run
  split at run
  · cases run
    exact .refl s
  simp only [bind_val] at run
  split at run
  · cases run
  split at run
  · cases run
    exact .setTable ..
  split at run
  · simp only [bind_val] at run
    cases run
    exact .setTable ..
  rw [copyIntoSlot] at run
  split at run
  · cases run
  split at run
  · cases run
  split at run
  · cases run
  rename_i ob heap
  simp only [bind_val] at run
  split at run
  · cases run
  · cases run
    refine .addSlot heap ?_
    rfl

theorem getOpaque_noCalls {typeValid : Bool} {type : Nat} {found : Option Nat}
    (run : (getOpaque env s g slotId typeValid type).val = some (s', found)) :
    NoCalls s s' ∧ ∀ o, found = some o → ∃ p slot ob, getSlot (s.tables g) slotId = some p ∧
      s.slotHeap p = some slot ∧ slot.object = o ∧ s.objHeap o = some ob ∧
      s'.objHeap o = some { ob with refcount := ob.refcount + 1 } ∧
      s'.refs o = s.refs o + 1 := by
  obtain ⟨rfl, rfl⟩ | ⟨p, slot, ob, get, slotHeap, heap, rfl, rfl⟩ := getOpaque_cases run
  · exact ⟨.refl s', fun o never => by cases never⟩
  · refine ⟨⟨typeAt_of_same heap rfl rfl, rfl, rfl, rfl⟩, ?_⟩
    intro o same
    cases same
    exact ⟨p, slot, ob, get, slotHeap, rfl, heap, update_self .., update_self ..⟩

end NoCalls

end KernelLabs.ChCore
