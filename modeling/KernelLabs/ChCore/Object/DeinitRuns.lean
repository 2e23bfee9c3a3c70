import KernelLabs.ChCore.Object.Deinit
import KernelLabs.ChCore.Object.Lookup
import KernelLabs.ChCore.Object.RefCountRuns

/-!
# Destructors over whole runs

An object whose type has a destructor ends as it should if `__cap_free` takes its last reference
away.  Given back by `obj_put` or taken by `cap_revoke`, the last reference goes and the object is
freed without the destructor.
-/

set_option autoImplicit false

namespace KernelLabs.ChCore

open Lib Function List Option Acc ObjEvent

/-! ## What an operation does to each object -/

def eventsOf (o : Nat) (log : List ObjEvent) : List ObjEvent :=
  log.filter fun event => event.object == o

@[simp] theorem eventsOf_append (o : Nat) (log log' : List ObjEvent) :
    eventsOf o (log ++ log') = eventsOf o log ++ eventsOf o log' :=
  filter_append log log'

def endEvents (o type : Nat) : List ObjEvent :=
  if hasDeinit type then [.deinit o 0, .kfree o] else [.kfree o]

theorem eventsOf_endEvents_ne {o o' : Nat} (type : Nat) (other : o' ≠ o) :
    eventsOf o' (endEvents o type) = [] := by
  rw [endEvents]
  split <;> simp [eventsOf, object, other.symm]

theorem eventsOf_endEvents {o type : Nat} (deinit : hasDeinit type = true) :
    eventsOf o (endEvents o type) = [.deinit o 0, .kfree o] := by
  rw [endEvents, if_pos deinit]
  simp [eventsOf, object]

/-- What can happen to one object: nothing, its creation, a creation that is taken back, or its
end, with the destructor before `kfree` if its type has one. -/
inductive ObjectStep (s s' : Sys) (events : List ObjEvent) (o : Nat) : Prop where
  | same (types : typeAt s' o = typeAt s o) (silent : eventsOf o events = [])
  | made (fresh : s.nextObj ≤ o) (known : o < s'.nextObj) (silent : eventsOf o events = [])
  | refused (fresh : s.nextObj ≤ o) (known : o < s'.nextObj) (absent : typeAt s' o = none)
  | ended (type : Nat) (before : typeAt s o = some type) (after : typeAt s' o = none)
      (events : hasDeinit type = true → eventsOf o events = [.deinit o 0, .kfree o])

structure CleanStep (s s' : Sys) (events : List ObjEvent) : Prop where
  nextObj : s.nextObj ≤ s'.nextObj
  objects : ∀ o, ObjectStep s s' events o
  unreferenced : ∀ o left, ObjEvent.deinit o left ∈ events → left = 0

/-- An operation either ends objects as it should or frees one without its destructor, and
`cond` tells which. -/
def StepEffect (cond : Prop) (s s' : Sys) (events : List ObjEvent) : Prop :=
  cond ∧ CleanStep s s' events ∨
    ¬ cond ∧ ∃ o type, typeAt s o = some type ∧ typeAt s' o = none ∧ hasDeinit type = true ∧
      events = [.kfree o]

/-- A call that does not come back has made no call on an object. -/
def CallEffect (cond : Prop) (s : Sys) (events : List ObjEvent) : Option (Sys × Int) → Prop
  | none => events = [] ∧ cond
  | some (s', _) => StepEffect cond s s' events

section Effects
variable {env : Env} {s s' : Sys}

theorem NoCalls.clean (noCalls : NoCalls s s') : CleanStep s s' [] where
  nextObj := le_of_eq noCalls.nextObj.symm
  objects := fun o => .same (congrFun noCalls.types o) rfl
  unreferenced := fun _ _ never => absurd never not_mem_nil

variable {slotId : Int} {o g type : Nat} {cond : Prop}

/-- An object ends in `__cap_free`, or in another way if its type has no destructor. -/
theorem CleanStep.of_ended (before : typeAt s o = some type)
    (after : typeAt s' = update (typeAt s) o none) (next : s'.nextObj = s.nextObj) :
    CleanStep s s' (endEvents o type) where
  nextObj := le_of_eq next.symm
  objects := by
    intro o'
    by_cases eq : o' = o
    · subst eq
      exact .ended type before (by rw [after, update_self]) eventsOf_endEvents
    · exact .same (by rw [after, update_of_ne eq]) (eventsOf_endEvents_ne type eq)
  unreferenced := by
    intro o' left member
    rw [endEvents] at member
    split at member <;> simp at member
    exact member.2

theorem capFreeEvents_installed (inv : CapInv none s) {id p : Nat}
    (place : (s.tables g).at id = some p) : ∃ s', (capFreeAt s g (id : Int)).val = some (s', 0) ∧
      (∃ slot ob, s.slotHeap p = some slot ∧ s.objHeap slot.object = some ob ∧
        (ob.refcount = 1 ∧ capFreeEvents s g (id : Int) = endEvents slot.object ob.type ∧
            typeAt s' = update (typeAt s) slot.object none ∧ s'.nextObj = s.nextObj ∨
          ob.refcount ≠ 1 ∧ capFreeEvents s g (id : Int) = [] ∧ typeAt s' = typeAt s ∧
            s'.nextObj = s.nextObj)) := by
  obtain ⟨slot, ob, s', newOb, heap, object, member, run, dropped, fate⟩ :=
    capFreeAt_drops inv place
  obtain ⟨slot', _, heap', _, _, valid, _⟩ := inv.installed g id p place
  rw [heap] at heap'
  cases heap'
  have events : capFreeEvents s g (id : Int) = dropSlotEvents s p slot.object := by
    simp only [capFreeEvents, getSlot_of_at (inv.tables g).toTableShape place, heap, valid,
      Bool.true_eq_false, if_false]
  refine ⟨s', by rw [run], slot, ob, heap, object, ?_⟩
  rcases fate with ⟨gone, one, empty, unreferenced⟩ | ⟨stays, more⟩
  · refine .inl ⟨one, ?_, ?_, dropped.nextObj⟩
    · rw [events, dropSlotEvents, object]
      simp only [one, if_true, empty, length_nil, unreferenced, endEvents]
      cases hasDeinit ob.type <;> rfl
    · rw [gone] at dropped
      exact typeAt_of_update dropped.objects
  · refine .inr ⟨more, ?_, ?_, dropped.nextObj⟩
    · rw [events, dropSlotEvents, object]
      simp only [if_neg more]
    · rw [stays] at dropped
      exact typeAt_of_same object dropped.objects rfl

theorem capFree_clean (inv : CapInv none s) (g : Nat) (slotId : Int) :
    ∃ s' r, (capFree s g slotId).val = some (s', r) ∧
      CleanStep s s' (capFreeEvents s g slotId) ∧ (r = 0 ∨ capFreeEvents s g slotId = []) := by
  cases get : getSlot (s.tables g) slotId with
  | none =>
    have silent : capFreeEvents s g slotId = [] := by rw [capFreeEvents, get]
    refine ⟨s, -eCAPBILITY, by rw [capFree, capFreeAt_missing get], ?_, .inr silent⟩
    rw [silent]
    exact (NoCalls.refl s).clean
  | some p =>
    obtain ⟨i, rfl, place⟩ := at_of_getSlot _ _ _ get
    obtain ⟨s', run, slot, ob, _, object, fate⟩ := capFreeEvents_installed inv place
    refine ⟨s', 0, run, ?_, .inl rfl⟩
    have before : typeAt s slot.object = some ob.type := by rw [typeAt, object]; rfl
    rcases fate with ⟨_, events, after, next⟩ | ⟨_, events, after, next⟩
    · rw [events]
      exact .of_ended before after next
    · rw [events]
      exact ⟨le_of_eq next.symm, fun o => .same (congrFun after o) rfl,
        fun _ _ never => absurd never not_mem_nil⟩

/-- While somebody holds a reference, the loop of `obj_free` ends no object. -/
theorem freeCopiesEvents_held (o : Nat) (copies : List Nat) : ∀ (s : Sys) (ob : Object),
    CapInv none s → s.objHeap o = some ob → ob.copies = copies → 0 < s.refs o →
    freeCopiesEvents copies s = [] ∧ ∀ s', (freeCopies copies s).val = some s' →
      typeAt s' = typeAt s ∧ s'.nextObj = s.nextObj := by
  induction copies with
  | nil =>
    intro s ob _ _ _ _
    refine ⟨rfl, ?_⟩
    intro s' run
    cases run
    exact ⟨rfl, rfl⟩
  | cons p rest ih =>
    intro s ob inv heap list held
    obtain ⟨slot, id, slotHeap, object, slotId, place⟩ :=
      inv.linked o ob p heap (by rw [list]; exact mem_cons_self)
    obtain ⟨s1, run1, slot1, ob1, slotHeap1, heap1, fate⟩ := capFreeEvents_installed inv place
    obtain ⟨slot2, s2, slotHeap2, run2, freed⟩ := capFreeAt_installed inv place
    rw [slotHeap] at slotHeap1 slotHeap2
    cases slotHeap1
    cases slotHeap2
    rw [run2] at run1
    cases run1
    rw [object] at freed heap1
    rw [heap] at heap1
    cases heap1
    -- the slot and the reference that is held make two
    have count := inv.count o ob heap
    have more : ob.refcount ≠ 1 := by
      rw [count, list, length_cons]
      omega
    obtain ⟨one, _⟩ | ⟨_, silent, types, next⟩ := fate
    · exact absurd one more
    obtain ⟨ob', heap', list'⟩ := freed.object ob heap held
    rw [list, erase_cons_head] at list'
    obtain ⟨restSilent, restTypes⟩ :=
      ih s1 ob' freed.inv heap' list' (by rw [freed.refs]; exact held)
    simp only [freeCopiesEvents, freeCopies, slotHeap, slotId, silent, run2, restSilent,
      append_nil, bind_val, true_and]
    intro s' run
    obtain ⟨types', next'⟩ := restTypes s' run
    exact ⟨types'.trans types, next'.trans next⟩

variable {events : List ObjEvent}

theorem StepEffect.of_clean (met : cond) (clean : CleanStep s s' events) :
    StepEffect cond s s' events :=
  .inl ⟨met, clean⟩

theorem StepEffect.of_released (before : typeAt s o = some type)
    (after : typeAt s' = update (typeAt s) o none) (next : s'.nextObj = s.nextObj)
    (exact : cond ↔ hasDeinit type = false) : StepEffect cond s s' [.kfree o] := by
  by_cases deinit : hasDeinit type = true
  · refine .inr ⟨?_, o, type, before, by rw [after, update_self], deinit, rfl⟩
    rw [exact, deinit]
    simp
  · have events : endEvents o type = [.kfree o] := by rw [endEvents, if_neg deinit]
    rw [← events]
    exact .of_clean (exact.mpr (Bool.eq_false_iff.mpr deinit)) (.of_ended before after next)

variable {ob : Object}

/-- `obj_put` frees the object with the last reference and makes no other call. -/
theorem objPut_effect (heap : s.objHeap o = some ob) :
    ∃ s', objPut s o = some s' ∧
      (ob.refcount = 1 ∧ objPutEvents s o = [.kfree o] ∧
          typeAt s' = update (typeAt s) o none ∧ s'.nextObj = s.nextObj ∨
        ob.refcount ≠ 1 ∧ objPutEvents s o = [] ∧ NoCalls s s') := by
  by_cases one : ob.refcount = 1
  · refine ⟨{ s.kfreeObj o with refs := update s.refs o (s.refs o - 1) }, ?_,
      .inl ⟨one, ?_, @typeAt_of_update o s _ none rfl, rfl⟩⟩
    · simp only [objPut, heap, if_pos one, Sys.kfreeObj]
    · simp only [objPutEvents, heap, if_pos one]
  refine ⟨{ s.setObj o { ob with refcount := ob.refcount - 1 } with
    refs := update s.refs o (s.refs o - 1) }, ?_,
    .inr ⟨one, ?_, typeAt_of_same heap rfl ?_, rfl, rfl, rfl⟩⟩
  · simp only [objPut, heap, if_neg one, Sys.setObj]
  · simp only [objPutEvents, heap, if_neg one]
  · rfl

/-- The last reference to an object whose type has a destructor is not given back by `obj_put`,
nor is such an object revoked while nobody holds a reference to it. -/
def EndsInCapFree (s : Sys) : CapOp → Prop
  | .put o => ∀ ob, s.objHeap o = some ob → hasDeinit ob.type = true → ob.refcount ≠ 1
  | .revoke g slotId => ∀ p slot ob, getSlot (s.tables g) slotId = some p →
      s.slotHeap p = some slot → s.objHeap slot.object = some ob → hasDeinit ob.type = true →
      0 < s.refs slot.object
  | _ => True

theorem put_effect (heap : s.objHeap o = some ob) :
    ∃ s', objPut s o = some s' ∧
      StepEffect (EndsInCapFree s (.put o)) s s' (objPutEvents s o) := by
  obtain ⟨s', run, fate⟩ := objPut_effect heap
  refine ⟨s', run, ?_⟩
  have before : typeAt s o = some ob.type := by rw [typeAt, heap]; rfl
  rcases fate with ⟨one, events, after, next⟩ | ⟨more, events, noCalls⟩
  · rw [events]
    refine .of_released before after next ⟨fun cond => ?_, fun noDeinit ob' heap' deinit => ?_⟩
    · exact Bool.eq_false_iff.mpr fun deinit => cond ob heap deinit one
    · rw [heap] at heap'
      cases heap'
      rw [noDeinit] at deinit
      cases deinit
  · rw [events]
    refine .of_clean (fun ob' heap' _ => ?_) noCalls.clean
    rw [heap] at heap'
    cases heap'
    exact more

variable {s1 : Sys}

/-- After its `get_opaque` a `cap_revoke` takes all slots away; the object ends in the `obj_put`
unless another reference is held. -/
theorem revoke_effect (inv : CapInv none s)
    (get : (getOpaque env s g slotId false 0).val = some (s1, some o)) :
    ∃ s', (capRevoke env s g slotId).val = some (s', 0) ∧
      StepEffect (EndsInCapFree s (.revoke g slotId)) s s' (capRevokeEvents env s g slotId) := by
  obtain ⟨noCalls, found⟩ := getOpaque_noCalls get
  obtain ⟨p, slot, ob, place, slotHeap, rfl, heap, heap1, refs1⟩ := found o rfl
  obtain ⟨inv1, _, _⟩ := getOpaque_keep inv get
  have held : 0 < s1.refs slot.object := by omega
  obtain ⟨s2, free, inv2, refs2, _, ob2, heap2, empty⟩ :=
    freeCopies_spec slot.object ob.copies s1 _ inv1 heap1 rfl held
  obtain ⟨silent, types⟩ := freeCopiesEvents_held slot.object ob.copies s1 _ inv1 heap1 rfl held
  obtain ⟨types2, next2⟩ := types s2 (by rw [free])
  obtain ⟨s', put, fate⟩ := objPut_effect heap2
  have count : ob2.refcount = s.refs slot.object + 1 := by
    rw [inv2.count _ _ heap2, empty, refs2, refs1, length_nil, Nat.zero_add]
  have loop : (objFree s1 slot.object).val = some s2 := by
    rw [objFree, heap1]
    simp only [Nat.add_one_ne_zero, if_false, free]
  have run : (capRevoke env s g slotId).val = some (s', 0) := by
    simp only [capRevoke, bind_val, get, loop, pure_val, put, map_some]
  have events : capRevokeEvents env s g slotId = objPutEvents s2 slot.object := by
    simp only [capRevokeEvents, get, loop, objFreeEvents, heap1, Nat.add_one_ne_zero, if_false,
      silent, nil_append]
  have before : typeAt s slot.object = some ob.type := by rw [typeAt, heap]; rfl
  refine ⟨s', run, ?_⟩
  rw [events]
  rcases fate with ⟨one, events, after, next⟩ | ⟨more, events, noCalls'⟩
  · rw [events]
    rw [types2, noCalls.types] at after
    refine .of_released before after (next.trans (next2.trans noCalls.nextObj))
      ⟨fun cond => ?_, fun noDeinit p' slot' ob' place' slotHeap' heap' deinit => ?_⟩
    · refine Bool.eq_false_iff.mpr fun deinit => ?_
      have other := cond p slot ob place slotHeap heap deinit
      omega
    rw [place] at place'
    cases place'
    rw [slotHeap] at slotHeap'
    cases slotHeap'
    rw [heap] at heap'
    cases heap'
    rw [noDeinit] at deinit
    cases deinit
  · rw [events]
    refine .of_clean (fun p' slot' ob' place' slotHeap' _ _ => ?_) ⟨?_, ?_, ?_⟩
    · rw [place] at place'
      cases place'
      rw [slotHeap] at slotHeap'
      cases slotHeap'
      omega
    · exact le_of_eq (noCalls'.nextObj.trans (next2.trans noCalls.nextObj)).symm
    · exact fun o => .same (congrFun (noCalls'.types.trans (types2.trans noCalls.types)) o) rfl
    · exact fun _ _ never => absurd never not_mem_nil

theorem create_effect (inv : CapInv none s) (g type size rights : Nat) :
    CallEffect True s (createEvents env s g type size rights)
      (createObject env s g type size rights).val := by
  have fresh : typeAt s s.nextObj = none := by
    rw [typeAt, inv.objFresh s.nextObj (le_refl _)]
    rfl
  rw [createObject, createEvents]
  by_cases memory : env.objOk = false
  · rw [if_pos memory, if_pos memory]
    exact .of_clean trivial (NoCalls.refl s).clean
  rw [if_neg memory, if_neg memory, bind_val]
  cases alloc : (capAlloc env (objAlloc s type size) g s.nextObj rights).val with
  | none => exact ⟨rfl, trivial⟩
  | some result =>
    obtain ⟨s1, r1⟩ := result
    obtain ⟨types, next, _, _⟩ := capAlloc_noCalls alloc
    have made : typeAt (objAlloc s type size) = update (typeAt s) s.nextObj (some type) :=
      @typeAt_of_update s.nextObj s _ (some ⟨type, size, 0, []⟩) rfl
    rw [made] at types
    have next1 : s1.nextObj = s.nextObj + 1 := next
    by_cases negative : r1 < 0
    · -- the fallback: the object was never counted
      rcases capAlloc_keep (inv.keep_objAlloc type size) alloc with
        ⟨nonneg, _⟩ | ⟨_, failed⟩
      · omega
      obtain ⟨ob, heap, zero⟩ := failed.pending s.nextObj rfl
      simp only [if_pos negative, bind_val, objFree, objFreeEvents, heap, zero, if_true,
        pure_val]
      have after : typeAt (s1.kfreeObj s.nextObj) = typeAt s := by
        rw [@typeAt_of_update s.nextObj s1 (s1.kfreeObj s.nextObj) none rfl, types,
          update_idem, map_none, ← fresh, update_eq_self]
      refine .of_clean trivial ⟨?_, fun o => ?_, fun o left never => ?_⟩
      · change s.nextObj ≤ s1.nextObj
        omega
      · by_cases eq : o = s.nextObj
        · subst eq
          exact .refused (le_refl _) (show s.nextObj < s1.nextObj by omega) (by rw [after, fresh])
        · exact .same (congrFun after o) (by simp [eventsOf, object, Ne.symm eq])
      · simp at never
    · simp only [if_neg negative]
      refine .of_clean trivial ⟨by omega, fun o => ?_, fun _ _ never => absurd never not_mem_nil⟩
      by_cases eq : o = s.nextObj
      · subst eq
        exact .made (le_refl _) (by omega) rfl
      · exact .same (by rw [types, update_of_ne eq]) rfl

/-- A copy adds no object, so the free of a `cap_move` acts on the objects from before it. -/
theorem CleanStep.after_noCalls (noCalls : NoCalls s s1) (clean : CleanStep s1 s' events) :
    CleanStep s s' events where
  nextObj := noCalls.nextObj ▸ clean.nextObj
  objects := by
    intro o
    have types := congrFun noCalls.types o
    have next := noCalls.nextObj
    cases clean.objects o with
    | same same silent => exact .same (same.trans types) silent
    | made fresh known silent => exact .made (by omega) known silent
    | refused fresh known absent => exact .refused (by omega) known absent
    | ended type before after events => exact .ended type (types.symm.trans before) after events
  unreferenced := clean.unreferenced

theorem getOpaque_finds (inv : CapInv none s) {p : Nat}
    (get : getSlot (s.tables g) slotId = some p) :
    ∃ s1 o, (getOpaque env s g slotId false 0).val = some (s1, some o) := by
  obtain ⟨i, rfl, place⟩ := at_of_getSlot _ _ _ get
  obtain ⟨slot, ob, heap, _, _, valid, object, _⟩ := inv.installed g i p place
  exact ⟨_, _, (getOpaque_installed env false 0 (inv.tables g) place heap valid object).trans
    (if_pos (.inl rfl))⟩

theorem endsInCapFree_revoke_missing (missing : getSlot (s.tables g) slotId = none) :
    EndsInCapFree s (.revoke g slotId) := by
  intro p slot ob get
  rw [missing] at get
  cases get

/-- Every operation ends objects as it should, or is one that `EndsInCapFree` leaves out. -/
theorem opEffect (op : CapOp) (inv : CapInv none s) (paired : PutPaired s op)
    (room : CopyCanAlloc env s op) :
    CallEffect (EndsInCapFree s op) s (opEvents env s op) (runCapOp env s op).val := by
  cases op with
  | create g type size rights => exact create_effect inv g type size rights
  | copy src dst slotId valid rights =>
    cases run : (runCapOp env s (.copy src dst slotId valid rights)).val with
    | none => exact ⟨rfl, trivial⟩
    | some result => exact .of_clean trivial (capCopy_noCalls run).clean
  | move src dst slotId valid rights =>
    simp only [runCapOp, capMove, bind_val, opEvents, capMoveEvents]
    cases copy : (capCopy env s src dst slotId valid rights).val with
    | none => exact ⟨rfl, trivial⟩
    | some result =>
      obtain ⟨s1, r1⟩ := result
      have noCalls := capCopy_noCalls copy
      have inv1 := capCopy_keep inv room copy
      obtain ⟨s2, r2, free, clean, done⟩ := capFree_clean inv1 src slotId
      by_cases negative : r1 < 0
      · simp only [if_pos negative]
        exact .of_clean trivial noCalls.clean
      simp only [if_neg negative, bind_val, free]
      split
      · rename_i s3 same
        cases same
        exact .of_clean trivial (clean.after_noCalls noCalls)
      · rename_i failed
        refine ⟨done.resolve_left fun zero => failed s2 ?_, trivial⟩
        rw [zero]
  | free g slotId =>
    obtain ⟨s1, r1, free, clean, _⟩ := capFree_clean inv g slotId
    rw [runCapOp, free]
    exact .of_clean trivial clean
  | revoke g slotId =>
    cases place : getSlot (s.tables g) slotId with
    | none =>
      have met := endsInCapFree_revoke_missing place
      simp only [runCapOp, capRevoke, bind_val, opEvents, capRevokeEvents]
      rcases get : (getOpaque env s g slotId false 0).val with _ | ⟨s1, _ | o⟩
      · exact ⟨rfl, met⟩
      · exact .of_clean met (getOpaque_noCalls get).1.clean
      · obtain ⟨p, _, _, found, _⟩ := (getOpaque_noCalls get).2 o rfl
        rw [place] at found
        cases found
    | some p =>
      obtain ⟨s1, o, get⟩ := getOpaque_finds inv place
      obtain ⟨s2, run, effect⟩ := revoke_effect inv get
      rw [runCapOp, run]
      exact effect
  | get g slotId typeValid type =>
    simp only [runCapOp, bind_val]
    split
    · exact ⟨rfl, trivial⟩
    · rename_i s1 o get
      exact .of_clean trivial (getOpaque_noCalls get).1.clean
  | put o =>
    cases heap : s.objHeap o with
    | none => exact absurd (inv.dead o heap) (Nat.ne_of_gt paired)
    | some ob =>
      obtain ⟨s1, put, effect⟩ := put_effect heap
      simp only [runCapOp, put, pure_val, map_some]
      exact effect

end Effects

/-! ## Runs -/

/-- A run with the calls it made so far.  `typeOf` remembers the type of every object that was
given a capability, also after its end. -/
structure Logged where
  sys : Sys
  log : List ObjEvent
  typeOf : Nat → Option Nat

def logStep (S : Logged) (op : Env × CapOp) : Logged :=
  if S.sys.halted then S
  else
    { sys := capStep S.sys op
      log := S.log ++ opEvents op.1 S.sys op.2
      typeOf := fun o => (typeAt (capStep S.sys op) o).or (S.typeOf o) }

def startLog (tables : Nat → SlotTable) : Logged :=
  { sys := startSys tables, log := [], typeOf := fun _ => none }

/-- When an object with a destructor is freed, the destructor has run once, before `kfree`, and
nothing else was called on it; a destructor runs when no reference is left. -/
structure DeinitExact (S : Logged) : Prop where
  once : ∀ o type, S.typeOf o = some type → hasDeinit type = true → .kfree o ∈ S.log →
    eventsOf o S.log = [.deinit o 0, .kfree o]
  unreferenced : ∀ o left, .deinit o left ∈ S.log → left = 0

/-- A live object has its type and no call, an object that is not created yet has neither, and an
ended object with a destructor has both calls. -/
structure LogInv (S : Logged) : Prop where
  caps : CapInv none S.sys
  live : ∀ o type, typeAt S.sys o = some type → S.typeOf o = some type ∧ eventsOf o S.log = []
  unborn : ∀ o, S.sys.nextObj ≤ o → S.typeOf o = none ∧ eventsOf o S.log = []
  ended : ∀ o type, typeAt S.sys o = none → S.typeOf o = some type → hasDeinit type = true →
    eventsOf o S.log = [.deinit o 0, .kfree o]
  unreferenced : ∀ o left, .deinit o left ∈ S.log → left = 0

theorem mem_eventsOf_kfree {o : Nat} {log : List ObjEvent} (member : .kfree o ∈ log) :
    .kfree o ∈ eventsOf o log := by
  simp [eventsOf, member, object]

section Runs
variable {S : Logged}

theorem LogInv.exact (inv : LogInv S) : DeinitExact S where
  once := by
    intro o type typed deinit freed
    cases alive : typeAt S.sys o with
    | none => exact inv.ended o type alive typed deinit
    | some type' =>
      have member := mem_eventsOf_kfree freed
      rw [(inv.live o type' alive).2] at member
      cases member
  unreferenced := inv.unreferenced

theorem LogInv.keep (inv : LogInv S) {s' : Sys} {events : List ObjEvent}
    (caps : CapInv none s') (clean : CleanStep S.sys s' events) :
    LogInv ⟨s', S.log ++ events, fun o => (typeAt s' o).or (S.typeOf o)⟩ where
  caps := caps
  live := by
    intro o type alive
    refine ⟨by simp only [alive, some_or], ?_⟩
    simp only [eventsOf_append]
    cases clean.objects o with
    | same types silent => rw [silent, (inv.live o type (types ▸ alive)).2, append_nil]
    | made fresh known silent => rw [silent, (inv.unborn o fresh).2, append_nil]
    | refused fresh known absent =>
      rw [absent] at alive
      cases alive
    | ended type' before after events =>
      rw [after] at alive
      cases alive
  unborn := by
    intro o fresh
    have early : S.sys.nextObj ≤ o := le_trans clean.nextObj fresh
    have absent : typeAt s' o = none := by rw [typeAt, caps.objFresh o fresh]; rfl
    obtain ⟨untyped, silent⟩ := inv.unborn o early
    simp only [absent, untyped, or_none, eventsOf_append, silent, true_and, nil_append]
    have known : ¬ o < s'.nextObj := Nat.not_lt.mpr fresh
    cases clean.objects o with
    | same _ silent => exact silent
    | made _ below _ | refused _ below _ => exact absurd below known
    | ended type before _ _ =>
      rw [typeAt, inv.caps.objFresh o early] at before
      cases before
  ended := by
    intro o type absent typed deinit
    simp only [absent, none_or] at typed
    simp only [eventsOf_append]
    cases clean.objects o with
    | same types silent => rw [silent, inv.ended o type (types ▸ absent) typed deinit]; rfl
    | made fresh _ _ | refused fresh _ _ =>
      rw [(inv.unborn o fresh).1] at typed
      cases typed
    | ended type' before _ events =>
      obtain ⟨typed', silent⟩ := inv.live o type' before
      rw [typed] at typed'
      cases typed'
      rw [silent, events deinit]
      rfl
  unreferenced := by
    intro o left member
    rcases mem_append.mp member with old | new
    · exact inv.unreferenced o left old
    · exact clean.unreferenced o left new

variable {op : Env × CapOp}

theorem logStep_running (running : S.sys.halted = false) :
    logStep S op = ⟨capStep S.sys op, S.log ++ opEvents op.1 S.sys op.2,
      fun o => (typeAt (capStep S.sys op) o).or (S.typeOf o)⟩ := by
  rw [logStep, running]
  rfl

variable {s : Sys}

theorem capStep_stop (running : s.halted = false) (stop : (runCapOp op.1 s op.2).val = none) :
    NoCalls s (capStep s op) := by
  rw [capStep, running]
  generalize runCapOp op.1 s op.2 = result at stop
  obtain ⟨val, inb⟩ := result
  cases stop
  exact ⟨rfl, rfl, rfl, rfl⟩

theorem logStep_effect (inv : LogInv S) (running : S.sys.halted = false)
    (allowed : PutPaired S.sys op.2 ∧ CopyCanAlloc op.1 S.sys op.2) :
    StepEffect (EndsInCapFree S.sys op.2) S.sys (capStep S.sys op) (opEvents op.1 S.sys op.2) := by
  have effect := opEffect op.2 inv.caps allowed.1 allowed.2
  cases run : (runCapOp op.1 S.sys op.2).val with
  | none =>
    rw [run] at effect
    obtain ⟨silent, met⟩ := effect
    rw [silent]
    exact .of_clean met (capStep_stop running run).clean
  | some result =>
    obtain ⟨s', r⟩ := result
    rw [run] at effect
    rw [capStep_eq op running run]
    rcases effect with ⟨met, clean⟩ | skipped
    · refine .of_clean met ⟨clean.nextObj, fun o => ?_, clean.unreferenced⟩
      cases clean.objects o with
      | same types silent => exact .same types silent
      | made fresh known silent => exact .made fresh known silent
      | refused fresh known absent => exact .refused fresh known absent
      | ended type before after events => exact .ended type before after events
    · exact .inr skipped

section
variable (S : Logged) (op : Env × CapOp) (inv : LogInv S)
  (allowed : PutPaired S.sys op.2 ∧ CopyCanAlloc op.1 S.sys op.2)
include inv allowed

theorem logStep_keep (met : S.sys.halted = true ∨ EndsInCapFree S.sys op.2) :
    LogInv (logStep S op) := by
  cases halted : S.sys.halted with
  | true =>
    rw [logStep, halted]
    exact inv
  | false =>
    rw [logStep_running halted]
    rw [halted] at met
    have ends : EndsInCapFree S.sys op.2 := met.resolve_left (by decide)
    rcases logStep_effect inv halted allowed with ⟨_, clean⟩ | ⟨skipped, _⟩
    · exact inv.keep (capStep_keep S.sys op inv.caps allowed) clean
    · exact absurd ends skipped

/-- An object that is freed without its destructor stays so. -/
theorem logStep_leave (good : DeinitExact (logStep S op)) :
    S.sys.halted = true ∨ EndsInCapFree S.sys op.2 := by
  cases halted : S.sys.halted with
  | true => exact .inl rfl
  | false =>
    refine .inr ?_
    rcases logStep_effect inv halted allowed with
      ⟨met, _⟩ | ⟨_, o, type, before, after, deinit, events⟩
    · exact met
    obtain ⟨typed, silent⟩ := inv.live o type before
    rw [logStep_running halted, events] at good
    have both := good.once o type (by simp only [after, typed, none_or]) deinit
      (mem_append_right _ mem_cons_self)
    simp only [eventsOf_append, silent] at both
    simp [eventsOf, object] at both

end

theorem startLog_inv (tables : Nat → SlotTable) (ok : ∀ g, TableOk (tables g))
    (empty : ∀ g i, (tables g).at i = none) : LogInv (startLog tables) where
  caps := startSys_inv tables ok empty
  live := fun _ _ never => by cases never
  unborn := fun _ _ => ⟨rfl, rfl⟩
  ended := fun _ _ _ never => by cases never
  unreferenced := fun _ _ never => absurd never not_mem_nil

end Runs

end KernelLabs.ChCore
