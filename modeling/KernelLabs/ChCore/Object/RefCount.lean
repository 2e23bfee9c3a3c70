import KernelLabs.Lib.Runs
import KernelLabs.ChCore.Object.Capability
import Mathlib.Data.Set.Card

/-!
# Reference counts of kernel objects

The invariant behind the reference count: every installed slot is on the list of the
object it points to and every slot of that list is installed, so the count of a live
object is the number of its slots plus the references handed out, and an object is
freed exactly when both are gone.  `CapInv` is kept by every operation except a
`cap_copy` whose destination table is full and cannot grow.
-/

set_option autoImplicit false

namespace KernelLabs.ChCore

open Lib Function List Acc Sys

/-- `pend` is an object that `obj_alloc` has returned and `cap_alloc` has not taken yet. -/
structure CapInv (pend : Option Nat) (s : Sys) : Prop where
  tables : ∀ g, TableOk (s.tables g)
  installed : ∀ g i p, (s.tables g).at i = some p → ∃ slot ob, s.slotHeap p = some slot ∧
    slot.slotId = (i : Int) ∧ slot.capGroup = g ∧ slot.isvalid = true ∧
    s.objHeap slot.object = some ob ∧ p ∈ ob.copies
  linked : ∀ o ob p, s.objHeap o = some ob → p ∈ ob.copies → ∃ slot, ∃ i : Nat,
    s.slotHeap p = some slot ∧ slot.object = o ∧ slot.slotId = (i : Int) ∧
    (s.tables slot.capGroup).at i = some p
  nodup : ∀ o ob, s.objHeap o = some ob → ob.copies.Nodup
  count : ∀ o ob, s.objHeap o = some ob → ob.refcount = ob.copies.length + s.refs o
  pending : ∀ o, pend = some o → ∃ ob, s.objHeap o = some ob ∧ ob.refcount = 0
  live : ∀ o ob, s.objHeap o = some ob → pend ≠ some o → 0 < ob.refcount
  dead : ∀ o, s.objHeap o = none → s.refs o = 0
  slotFresh : ∀ p, s.nextSlot ≤ p → s.slotHeap p = none
  objFresh : ∀ o, s.nextObj ≤ o → s.objHeap o = none
  freed : ∀ o, o ∈ s.kfreed ↔ o < s.nextObj ∧ s.objHeap o = none
  once : s.kfreed.Nodup

/-- What has to hold of a single object; `pending` says that it waits for its first slot. -/
structure ObjectOk (pending : Prop) (refs : Nat) (ob : Object) : Prop where
  nodup : ob.copies.Nodup
  count : ob.refcount = ob.copies.length + refs
  unused : pending → ob.refcount = 0
  used : ¬ pending → 0 < ob.refcount

/-- The same for an address, at which there may be no object. -/
def CellOk (pending : Prop) (refs : Nat) : Option Object → Prop
  | none => ¬ pending ∧ refs = 0
  | some ob => ObjectOk pending refs ob

structure ObjectsOk (pend : Option Nat) (s : Sys) : Prop where
  cells : ∀ o, CellOk (pend = some o) (s.refs o) (s.objHeap o)
  objFresh : ∀ o, s.nextObj ≤ o → s.objHeap o = none
  freed : ∀ o, o ∈ s.kfreed ↔ o < s.nextObj ∧ s.objHeap o = none
  once : s.kfreed.Nodup

variable {s' : Sys} {ob : Object} {o g p i id : Nat} {newOb : Option Object} {t : SlotTable}

section
variable {pend : Option Nat} {s : Sys}

theorem ObjectsOk.object (ok : ObjectsOk pend s) (heap : s.objHeap o = some ob) :
    ObjectOk (pend = some o) (s.refs o) ob := by
  have cell := ok.cells o
  rw [heap] at cell
  exact cell

theorem ObjectsOk.absent (ok : ObjectsOk pend s) (heap : s.objHeap o = none) :
    pend ≠ some o ∧ s.refs o = 0 := by
  have cell := ok.cells o
  rw [heap] at cell
  exact cell

theorem CapInv.objects (inv : CapInv pend s) : ObjectsOk pend s where
  cells := by
    intro o
    cases heap : s.objHeap o with
    | none =>
      refine ⟨?_, inv.dead o heap⟩
      intro waits
      obtain ⟨ob, present, _⟩ := inv.pending o waits
      rw [heap] at present
      cases present
    | some ob =>
      refine ⟨inv.nodup o ob heap, inv.count o ob heap, ?_, inv.live o ob heap⟩
      intro waits
      obtain ⟨ob', present, zero⟩ := inv.pending o waits
      rw [heap] at present
      cases present
      exact zero
  objFresh := inv.objFresh
  freed := inv.freed
  once := inv.once

end

def OnList (s : Sys) (o p : Nat) : Prop := ∃ ob, s.objHeap o = some ob ∧ p ∈ ob.copies

structure SlotLinked (s : Sys) (p : Nat) : Prop where
  installed : ∀ g i, (s.tables g).at i = some p → ∃ slot, s.slotHeap p = some slot ∧
    slot.slotId = (i : Int) ∧ slot.capGroup = g ∧ slot.isvalid = true ∧ OnList s slot.object p
  linked : ∀ o, OnList s o p → ∃ slot, ∃ i : Nat, s.slotHeap p = some slot ∧ slot.object = o ∧
    slot.slotId = (i : Int) ∧ (s.tables slot.capGroup).at i = some p

theorem CapInv.slotLinked {pend : Option Nat} {s : Sys} (inv : CapInv pend s) (p : Nat) :
    SlotLinked s p where
  installed g i place := by
    obtain ⟨slot, ob, heap, id, group, valid, listed⟩ := inv.installed g i p place
    exact ⟨slot, heap, id, group, valid, ob, listed⟩
  linked := fun o ⟨ob, heap, member⟩ => inv.linked o ob p heap member

theorem SlotLinked.congr {s : Sys} (ok : SlotLinked s p)
    (places : ∀ g i, (s'.tables g).at i = some p ↔ (s.tables g).at i = some p)
    (slot : s'.slotHeap p = s.slotHeap p) (lists : ∀ o, OnList s' o p ↔ OnList s o p) :
    SlotLinked s' p := by
  refine ⟨fun g i => ?_, fun o => ?_⟩
  · simpa only [places, slot, lists] using ok.installed g i
  · simpa only [places, slot, lists] using ok.linked o

theorem onList_update {s : Sys} (objects : s'.objHeap = update s.objHeap o newOb)
    (same : (∃ ob, newOb = some ob ∧ p ∈ ob.copies) ↔ OnList s o p) (o' : Nat) :
    OnList s' o' p ↔ OnList s o' p := by
  rw [OnList, objects]
  by_cases eq : o' = o
  · subst eq
    rw [update_self]
    exact same
  · rw [update_of_ne eq]
    rfl

/-- The invariant from its two parts: the objects, and the links of the slots. -/
theorem ObjectsOk.capInv {pend : Option Nat} {s : Sys} (ok : ObjectsOk pend s)
    (tables : ∀ g, TableOk (s.tables g)) (slots : ∀ p, SlotLinked s p)
    (slotFresh : ∀ p, s.nextSlot ≤ p → s.slotHeap p = none) : CapInv pend s where
  tables := tables
  installed g i p place := by
    obtain ⟨slot, heap, id, group, valid, ob, listed⟩ := (slots p).installed g i place
    exact ⟨slot, ob, heap, id, group, valid, listed⟩
  linked o ob p heap member := (slots p).linked o ⟨ob, heap, member⟩
  nodup := fun _ _ heap => (ok.object heap).nodup
  count := fun _ _ heap => (ok.object heap).count
  pending := by
    intro o waits
    cases heap : s.objHeap o with
    | none => exact absurd waits (ok.absent heap).1
    | some ob => exact ⟨ob, rfl, (ok.object heap).unused waits⟩
  live := fun _ _ heap => (ok.object heap).used
  dead := fun _ heap => (ok.absent heap).2
  slotFresh := slotFresh
  objFresh := ok.objFresh
  freed := ok.freed
  once := ok.once

theorem ObjectsOk.replace {pend : Option Nat} {s : Sys} (ok : ObjectsOk pend s)
    (heap : s.objHeap o = some ob) (target : pend = none ∨ pend = some o)
    (objects : s'.objHeap = update s.objHeap o newOb) (refs : ∀ o', o' ≠ o → s'.refs o' = s.refs o')
    (cell : CellOk False (s'.refs o) newOb) (nextObj : s'.nextObj = s.nextObj)
    (kfreed : s'.kfreed = if newOb = none then o :: s.kfreed else s.kfreed) :
    ObjectsOk none s' := by
  have bound : o < s.nextObj := by
    by_contra past
    rw [ok.objFresh o (Nat.le_of_not_lt past)] at heap
    cases heap
  have self : s'.objHeap o = newOb := by rw [objects, update_self]
  have other : ∀ o', o' ≠ o → s'.objHeap o' = s.objHeap o' := by
    intro o' ne
    rw [objects, update_of_ne ne]
  refine ⟨?_, ?_, ?_, ?_⟩
  · intro o'
    by_cases eq : o' = o
    · subst eq
      rw [self]
      simpa using cell
    have notPending : pend ≠ some o' := by
      rcases target with idle | waits
      · simp [idle]
      · rw [waits]
        exact fun same => eq (Option.some.inj same).symm
    rw [other o' eq, refs o' eq]
    simpa [notPending] using ok.cells o'
  · intro o' past
    rw [nextObj] at past
    rw [other o' (by omega)]
    exact ok.objFresh o' past
  · intro o'
    rw [nextObj, kfreed]
    by_cases eq : o' = o
    · subst eq
      rw [self]
      cases newOb with
      | none => simp [bound]
      | some ob' => simp [ok.freed o', heap]
    · rw [other o' eq]
      cases newOb with
      | none => simp [eq, ok.freed o']
      | some ob' => simpa using ok.freed o'
  · rw [kfreed]
    cases newOb with
    | none =>
      refine nodup_cons.mpr ⟨?_, ok.once⟩
      intro inList
      rw [ok.freed o, heap] at inList
      cases inList.2
    | some ob' => simpa using ok.once

theorem startSys_inv (tables : Nat → SlotTable) (ok : ∀ g, TableOk (tables g))
    (empty : ∀ g i, (tables g).at i = none) : CapInv none (startSys tables) := by
  refine ⟨ok, ?_, ?_, ?_, ?_, ?_, ?_, ?_, ?_, ?_, ?_, ?_⟩
  · intro g i p h
    simp only [startSys, empty] at h
    cases h
  all_goals simp [startSys]

/-! ## The elementary changes -/

section Changes
variable {pend : Option Nat} {s : Sys}

theorem setTable_at (g : Nat) (t : SlotTable) (same : ∀ i, t.at i = (s.tables g).at i)
    (g' i : Nat) : ((s.setTable g t).tables g').at i = (s.tables g').at i := by
  by_cases eq : g' = g
  · subst eq
    simp [setTable, same]
  · simp [setTable, update_of_ne eq]

theorem CapInv.tables_update (inv : CapInv pend s) (g : Nat) (ok : TableOk t) :
    ∀ g', TableOk (update s.tables g t g') :=
  (forall_update_iff s.tables fun _ => TableOk).mpr ⟨ok, fun g' _ => inv.tables g'⟩

theorem CapInv.keep_setTable (inv : CapInv pend s) (g : Nat) (ok : TableOk t)
    (same : ∀ i, t.at i = (s.tables g).at i) : CapInv pend (s.setTable g t) := by
  have objects : ObjectsOk pend (s.setTable g t) :=
    ⟨inv.objects.cells, inv.objFresh, inv.freed, inv.once⟩
  refine objects.capInv (inv.tables_update g ok) (fun p => (inv.slotLinked p).congr ?_ rfl fun _ =>
    Iff.rfl) inv.slotFresh
  intro g' i
  rw [setTable_at g t same]

/-- One object changes and keeps its slots: the links are as before. -/
theorem CapInv.relink {pend' : Option Nat} (inv : CapInv pend s) (ok : ObjectsOk pend' s')
    (tables : s'.tables = s.tables) (slots : s'.slotHeap = s.slotHeap)
    (nextSlot : s'.nextSlot = s.nextSlot) (objects : s'.objHeap = update s.objHeap o newOb)
    (copies : ∀ p, (∃ ob, newOb = some ob ∧ p ∈ ob.copies) ↔ OnList s o p) : CapInv pend' s' := by
  refine ok.capInv (tables ▸ inv.tables) (fun p => (inv.slotLinked p).congr ?_ (congrFun slots p)
    (onList_update objects (copies p))) ?_
  · intro g i
    rw [tables]
  · rw [slots, nextSlot]
    exact inv.slotFresh

theorem CapInv.keep_objAlloc (inv : CapInv none s) (type size : Nat) :
    CapInv (some s.nextObj) (objAlloc s type size) := by
  have fresh := inv.objFresh s.nextObj (le_refl _)
  have other : ∀ o, o ≠ s.nextObj → (objAlloc s type size).objHeap o = s.objHeap o :=
    fun o ne => update_of_ne ne _ _
  have self : (objAlloc s type size).objHeap s.nextObj =
      some { type := type, size := size, refcount := 0, copies := [] } := update_self _ _ _
  refine inv.relink ⟨?_, ?_, ?_, inv.once⟩ rfl rfl rfl rfl (by simp [OnList, fresh])
  · intro o
    by_cases eq : o = s.nextObj
    · subst eq
      rw [self]
      exact ⟨nodup_nil, (inv.dead _ fresh).symm.trans (Nat.zero_add _).symm, fun _ => rfl,
        fun never => absurd rfl never⟩
    · rw [other o eq]
      change CellOk _ (s.refs o) _
      simpa [Ne.symm eq] using inv.objects.cells o
  · intro o past
    have ne : o ≠ s.nextObj := Nat.ne_of_gt past
    rw [other o ne]
    exact inv.objFresh o (Nat.le_of_lt past)
  · intro o
    change o ∈ s.kfreed ↔ o < s.nextObj + 1 ∧ _
    rw [inv.freed o]
    by_cases eq : o = s.nextObj
    · subst eq
      simp [self]
    · rw [other o eq]
      exact and_congr_left fun _ => by omega

/-- A slot installed at a free place of a table and put on its object's list. -/
theorem CapInv.keep_addSlot (inv : CapInv pend s) {slot : ObjectSlot} {table : SlotTable}
    {ob' : Object} (target : pend = none ∨ pend = some slot.object)
    (heap : s.objHeap slot.object = some ob) (slotId : slot.slotId = (id : Int))
    (valid : slot.isvalid = true) (ok : TableOk table)
    (free : (s.tables slot.capGroup).at id = none)
    (view : ∀ i, table.at i = if i = id then some s.nextSlot else (s.tables slot.capGroup).at i)
    (refcount : ob'.refcount = ob.refcount + 1)
    (copies : ob'.copies.Perm (s.nextSlot :: ob.copies)) :
    CapInv none (s.addSlot slot table ob') := by
  have fresh := inv.slotFresh s.nextSlot (le_refl _)
  have unplaced : ∀ g i, (s.tables g).at i ≠ some s.nextSlot := by
    intro g i place
    obtain ⟨_, old, _⟩ := (inv.slotLinked _).installed g i place
    rw [fresh] at old
    cases old
  have unlisted : ∀ o, ¬ OnList s o s.nextSlot := by
    intro o listed
    obtain ⟨_, _, old, _⟩ := (inv.slotLinked _).linked o listed
    rw [fresh] at old
    cases old
  have tablesAt : ∀ g i, ((s.addSlot slot table ob').tables g).at i =
      if g = slot.capGroup ∧ i = id then some s.nextSlot else (s.tables g).at i := by
    intro g i
    by_cases eq : g = slot.capGroup
    · subst eq
      simp [addSlot, view]
    · simp [addSlot, eq]
  have cell : CellOk False (s.refs slot.object) (some ob') := by
    have before := inv.count _ _ heap
    have length := copies.length_eq
    have new : s.nextSlot ∉ ob.copies := fun member => unlisted _ ⟨ob, heap, member⟩
    rw [length_cons] at length
    refine ⟨?_, by omega, False.elim, by omega⟩
    exact copies.nodup_iff.mpr (nodup_cons.mpr ⟨new, inv.nodup _ _ heap⟩)
  have objects : ObjectsOk none (s.addSlot slot table ob') :=
    inv.objects.replace heap target rfl (fun _ _ => rfl) cell rfl rfl
  refine objects.capInv (inv.tables_update _ ok) (fun p => ?_) ?_
  · by_cases new : p = s.nextSlot
    · subst new
      refine ⟨fun g i place => ?_, fun o listed => ?_⟩
      · rw [tablesAt] at place
        split at place
        next here =>
          exact ⟨slot, update_self _ _ _, by rw [slotId, here.2], here.1.symm, valid, ob',
            update_self _ _ _, copies.mem_iff.mpr mem_cons_self⟩
        next => exact absurd place (unplaced g i)
      · have same : slot.object = o := by
          by_contra other
          obtain ⟨ob1, live, member⟩ := listed
          exact unlisted o ⟨ob1, (update_of_ne (Ne.symm other) _ _).symm.trans live, member⟩
        exact ⟨slot, id, update_self _ _ _, same, slotId, by rw [tablesAt, if_pos ⟨rfl, rfl⟩]⟩
    · refine (inv.slotLinked p).congr (fun g i => ?_) (update_of_ne new _ _) (onList_update rfl ?_)
      · -- only a free place was taken
        rw [tablesAt]
        split
        next here => simp [here.1, here.2, free, Ne.symm new]
        next => rfl
      · simp [OnList, heap, copies.mem_iff, new]
  · intro p past
    have old : s.nextSlot < p := past
    rw [← inv.slotFresh p old.le]
    exact update_of_ne old.ne' _ _

theorem at_some_lt (shape : TableShape t) (h : t.at i = some p) : i < t.slotsSize := by
  by_contra past
  rw [SlotTable.at, getD_eq_getElem?_getD,
    getElem?_eq_none (by rw [shape.slots_length]; omega)] at h
  cases h

structure Dropped (s s' : Sys) (p o : Nat) (newOb : Option Object) : Prop where
  tables : s'.tables = s.tables
  slots : s'.slotHeap = update s.slotHeap p none
  objects : s'.objHeap = update s.objHeap o newOb
  kfreed : s'.kfreed = if newOb = none then o :: s.kfreed else s.kfreed
  refs : s'.refs = s.refs
  nextSlot : s'.nextSlot = s.nextSlot
  nextObj : s'.nextObj = s.nextObj

def Fate (s : Sys) (p o : Nat) (ob : Object) (newOb : Option Object) : Prop :=
  newOb = none ∧ ob.refcount = 1 ∧ ob.copies.erase p = [] ∧ s.refs o = 0 ∨
    newOb = some { ob with refcount := ob.refcount - 1, copies := ob.copies.erase p } ∧
      ob.refcount ≠ 1

/-- One slot less: the table without it, the slot freed, and its object either one
reference shorter or, with the last one gone, freed. -/
theorem CapInv.keep_unlink (inv : CapInv none s) (place : (s.tables g).at id = some p)
    (heap : s.objHeap o = some ob) (member : p ∈ ob.copies)
    (drop : Dropped (s.setTable g (freeSlotId (s.tables g) id).val) s' p o newOb)
    (fate : Fate s p o ob newOb) : CapInv none s' := by
  have ok := inv.tables g
  have inside := at_some_lt ok.toTableShape place
  obtain ⟨_, _, _, _, _, freeView⟩ := freeSlotId_shape ok.toTableShape inside
  have view : ∀ g' i, (s'.tables g').at i =
      if g' = g ∧ i = id then none else (s.tables g').at i := by
    intro g' i
    rw [drop.tables]
    by_cases eq : g' = g
    · subst eq
      simp [setTable, freeView]
    · simp [setTable, eq]
  obtain ⟨pSlot, pHeap, pId, pGroup, _⟩ := (inv.slotLinked p).installed g id place
  have cell : CellOk False (s'.refs o) newOb := by
    rw [drop.refs]
    rcases fate with ⟨rfl, _, _, unreferenced⟩ | ⟨rfl, more⟩
    · exact ⟨not_false, unreferenced⟩
    have before := inv.count _ _ heap
    have live := inv.live _ _ heap (by simp)
    have length := length_erase_of_mem member
    have some_slot : 0 < ob.copies.length := length_pos_of_mem member
    change _ = _ + s.refs o at before
    refine ⟨(inv.nodup _ _ heap).erase p, ?_, False.elim, fun _ => by simp only; omega⟩
    change _ = _ + s.refs o
    simp only [length]
    omega
  have objects := inv.objects.replace heap (.inl rfl) drop.objects
    (fun o' _ => congrFun drop.refs o') cell drop.nextObj drop.kfreed
  refine objects.capInv (drop.tables ▸ inv.tables_update g (freeSlotId_ok ok inside))
    (fun q => ?_) ?_
  · by_cases gone : q = p
    · subst gone
      refine ⟨fun g' i again => ?_, fun o' ⟨ob1, live, inList⟩ => ?_⟩
      · -- another place holds another slot
        rw [view] at again
        obtain ⟨elsewhere, again⟩ := Option.ite_none_left_eq_some.mp again
        obtain ⟨slot, heap', slotId, group, _⟩ := (inv.slotLinked q).installed g' i again
        rw [pHeap] at heap'
        cases heap'
        exact absurd ⟨group.symm.trans pGroup, by have := slotId.symm.trans pId; omega⟩ elsewhere
      · rw [drop.objects] at live
        by_cases eq : o' = o
        · subst eq
          rw [update_self] at live
          rcases fate with ⟨rfl, _⟩ | ⟨rfl, _⟩ <;> cases live
          exact absurd inList (inv.nodup _ _ heap).not_mem_erase
        · rw [update_of_ne eq] at live
          obtain ⟨slot, _, heap1, object, _⟩ := inv.linked o' ob1 q live inList
          obtain ⟨slot', _, heap2, object', _⟩ := inv.linked o ob q heap member
          rw [heap1] at heap2
          cases heap2
          exact absurd (object.symm.trans object') eq
    · refine (inv.slotLinked q).congr (fun g' i => ?_) ?_ (onList_update drop.objects ?_)
      · rw [view]
        split
        next here => simp [here.1, here.2, place, Ne.symm gone]
        next => rfl
      · rw [drop.slots]
        exact update_of_ne gone _ _
      · have listed : q ∈ ob.copies.erase p ↔ OnList s o q := by
          simp [OnList, heap, mem_erase_of_ne gone]
        rw [← listed]
        rcases fate with ⟨rfl, _, empty, _⟩ | ⟨rfl, _⟩
        · simp [empty]
        · simp
  · rw [drop.nextSlot, drop.slots]
    exact (forall_update_iff _ fun q slot => s.nextSlot ≤ q → slot = none).mpr
      ⟨fun _ => rfl, fun q _ => inv.slotFresh q⟩

theorem CapInv.keep_refs (inv : CapInv none s) (o : Nat) (ob : Object) (n refs : Nat)
    (heap : s.objHeap o = some ob) (count : n = ob.copies.length + refs) (pos : 0 < n) :
    CapInv none { s.setObj o { ob with refcount := n } with
      refs := update s.refs o refs } := by
  have cell : ObjectOk False refs { ob with refcount := n } :=
    ⟨inv.nodup o ob heap, count, False.elim, fun _ => pos⟩
  refine inv.relink ?_ rfl rfl rfl rfl (by simp [OnList, heap])
  apply inv.objects.replace heap (.inl rfl) rfl
  · exact fun o' ne => update_of_ne ne _ _
  · change CellOk False (update s.refs o refs o) _
    rw [update_self]
    exact cell
  · rfl
  · rfl

theorem CapInv.keep_kfreeObj (inv : CapInv pend s) (target : pend = none ∨ pend = some o)
    (heap : s.objHeap o = some ob) (noCopies : ob.copies = []) :
    CapInv none { s.kfreeObj o with refs := update s.refs o 0 } := by
  refine inv.relink ?_ rfl rfl rfl rfl (by simp [OnList, heap, noCopies])
  apply inv.objects.replace heap target rfl
  · exact fun o' ne => update_of_ne ne _ _
  · exact ⟨not_false, update_self _ _ _⟩
  · rfl
  · rfl

end Changes

/-! ## The operations -/

section Operations
variable {pend : Option Nat} {s : Sys}

theorem getSlot_of_at (shape : TableShape t) (h : t.at i = some p) :
    getSlot t (i : Int) = some p := by
  have inside := at_some_lt shape h
  rw [getSlot, if_neg (by omega)]
  exact h

theorem at_of_getSlot (t : SlotTable) (slotId : Int) (p : Nat) (h : getSlot t slotId = some p) :
    ∃ i : Nat, slotId = (i : Int) ∧ t.at i = some p := by
  rcases getSlot_eq t slotId with none | ⟨i, id, _, same⟩
  · rw [none] at h
    cases h
  · exact ⟨i, id, by rw [← same]; exact h⟩

theorem dropSlot_last (heap : s.objHeap o = some ob) (one : ob.refcount = 1)
    (empty : ob.copies.erase p = []) : ∃ s', s.dropSlot p o = some s' ∧ Dropped s s' p o none := by
  by_cases deinit : hasDeinit ob.type = true
  · refine ⟨kfreeObj { s with
      slotHeap := update s.slotHeap p none, deinited := o :: s.deinited } o, ?_,
      ⟨rfl, rfl, rfl, rfl, rfl, rfl, rfl⟩⟩
    simp [dropSlot, heap, one, empty, deinit]
  · refine ⟨kfreeObj { s with slotHeap := update s.slotHeap p none } o, ?_,
      ⟨rfl, rfl, rfl, rfl, rfl, rfl, rfl⟩⟩
    simp [dropSlot, heap, one, empty, deinit]

theorem dropSlot_more (p : Nat) (heap : s.objHeap o = some ob) (more : ob.refcount ≠ 1) :
    ∃ s', s.dropSlot p o = some s' ∧ Dropped s s' p o
      (some { ob with refcount := ob.refcount - 1, copies := ob.copies.erase p }) := by
  refine ⟨setObj { s with slotHeap := update s.slotHeap p none } o
    { ob with refcount := ob.refcount - 1, copies := ob.copies.erase p }, ?_,
    ⟨rfl, rfl, rfl, by simp [setObj], rfl, rfl, rfl⟩⟩
  simp [dropSlot, heap, more]

structure SlotFreed (s s' : Sys) (g id p o : Nat) : Prop where
  inv : CapInv none s'
  tables : s'.tables = update s.tables g (freeSlotId (s.tables g) id).val
  refs : s'.refs = s.refs
  object : ∀ ob, s.objHeap o = some ob → 0 < s.refs o →
    ∃ ob', s'.objHeap o = some ob' ∧ ob'.copies = ob.copies.erase p

variable (inv : CapInv none s)
include inv

/-- `__cap_free` of an installed slot succeeds, and the object goes with its last reference. -/
theorem capFreeAt_drops (place : (s.tables g).at id = some p) :
    ∃ slot ob s' newOb, s.slotHeap p = some slot ∧ s.objHeap slot.object = some ob ∧
      p ∈ ob.copies ∧ capFreeAt s g (id : Int) = ⟨some (s', 0), true⟩ ∧
      Dropped (s.setTable g (freeSlotId (s.tables g) id).val) s' p slot.object newOb ∧
      Fate s p slot.object ob newOb := by
  have ok := inv.tables g
  have inside := at_some_lt ok.toTableShape place
  obtain ⟨slot, ob, heap, slotId, group, valid, object, member⟩ := inv.installed g id p place
  obtain ⟨freeIn, _⟩ := freeSlotId_shape ok.toTableShape inside
  have count := inv.count _ _ object
  have pos : 0 < ob.copies.length := length_pos_of_mem member
  have reduce : ∀ s', (s.setTable g (freeSlotId (s.tables g) id).val).dropSlot p slot.object =
      some s' → capFreeAt s g (id : Int) = ⟨some (s', 0), true⟩ := by
    intro s' drop
    have val : (capFreeAt s g (id : Int)).val = some (s', 0) := by
      simp [capFreeAt, getSlot_of_at ok.toTableShape place, heap, valid, drop]
    have inb : (capFreeAt s g (id : Int)).inb = true := by
      simp [capFreeAt, getSlot_of_at ok.toTableShape place, heap, valid, freeIn]
    rw [← val, ← inb]
  have objectT : (s.setTable g (freeSlotId (s.tables g) id).val).objHeap slot.object = some ob :=
    object
  by_cases one : ob.refcount = 1
  · have empty : ob.copies.erase p = [] := by
      rw [← length_eq_zero_iff, length_erase_of_mem member]
      omega
    obtain ⟨s', drop, dropped⟩ := dropSlot_last objectT one empty
    exact ⟨slot, ob, s', none, heap, object, member, reduce s' drop, dropped,
      .inl ⟨rfl, one, empty, by omega⟩⟩
  · obtain ⟨s', drop, dropped⟩ := dropSlot_more p objectT one
    exact ⟨slot, ob, s', _, heap, object, member, reduce s' drop, dropped, .inr ⟨rfl, one⟩⟩

theorem capFreeAt_installed (place : (s.tables g).at id = some p) :
    ∃ slot s', s.slotHeap p = some slot ∧ capFreeAt s g (id : Int) = ⟨some (s', 0), true⟩ ∧
      SlotFreed s s' g id p slot.object := by
  obtain ⟨slot, ob, s', newOb, heap, object, member, run, dropped, fate⟩ :=
    capFreeAt_drops inv place
  refine ⟨slot, s', heap, run, inv.keep_unlink place object member dropped fate, dropped.tables,
    dropped.refs, ?_⟩
  intro ob1 live held
  rw [object] at live
  cases live
  rcases fate with ⟨_, _, _, unreferenced⟩ | ⟨rfl, _⟩
  · exact absurd unreferenced (Nat.ne_of_gt held)
  · exact ⟨_, by rw [dropped.objects, update_self], rfl⟩

variable {env : Env} {slotId r srcSlotId : Int} {rights src type : Nat} {typeValid valid : Bool}

omit inv in
theorem capFreeAt_missing (h : getSlot (s.tables g) slotId = none) :
    capFreeAt s g slotId = ⟨some (s, -eCAPBILITY), true⟩ := by
  rw [capFreeAt, h]
  rfl

/-- Whatever holds of all tables and is kept by `free_slot_id` of an installed slot holds
after any number of such frees. -/
def FreesFrom (s s' : Sys) : Prop :=
  ∀ P : SlotTable → Prop,
    (∀ t id, TableOk t → t.at id ≠ none → P t → P (freeSlotId t id).val) →
    (∀ g, P (s.tables g)) → ∀ g, P (s'.tables g)

theorem SlotFreed.freesFrom (place : (s.tables g).at id = some p)
    (freed : SlotFreed s s' g id p o) : FreesFrom s s' := by
  intro P keep all
  rw [freed.tables]
  exact (forall_update_iff s.tables fun _ => P).mpr
    ⟨keep _ id (inv.tables g) (by rw [place]; simp) (all g), fun g' _ => all g'⟩

omit inv in
/-- The loop of `obj_free` while somebody holds a reference: every slot of the object
goes, the object stays. -/
theorem freeCopies_spec (o : Nat) : ∀ (copies : List Nat) (s : Sys) (ob : Object),
    CapInv none s → s.objHeap o = some ob → ob.copies = copies → 0 < s.refs o →
    ∃ s', freeCopies copies s = ⟨some s', true⟩ ∧ CapInv none s' ∧ s'.refs = s.refs ∧
      FreesFrom s s' ∧ ∃ ob', s'.objHeap o = some ob' ∧ ob'.copies = [] := by
  intro copies
  induction copies with
  | nil =>
    intro s ob inv heap list _
    exact ⟨s, rfl, inv, rfl, fun _ _ all => all, ob, heap, list⟩
  | cons p rest ih =>
    intro s ob inv heap list held
    obtain ⟨slot, id, slotHeap, object, slotId, place⟩ :=
      inv.linked o ob p heap (by rw [list]; exact mem_cons_self)
    obtain ⟨slot', s', slotHeap', free, freed⟩ := capFreeAt_installed inv place
    rw [slotHeap] at slotHeap'
    cases slotHeap'
    rw [object] at freed
    obtain ⟨ob', heap', list'⟩ := freed.object ob heap held
    rw [list, erase_cons_head] at list'
    obtain ⟨final, run, finalInv, finalRefs, frees, finalOb⟩ :=
      ih s' ob' freed.inv heap' list' (by rw [freed.refs]; exact held)
    refine ⟨final, ?_, finalInv, finalRefs.trans freed.refs,
      fun P keep all => frees P keep (freed.freesFrom inv place P keep all), finalOb⟩
    rw [freeCopies, slotHeap]
    simp only [slotId, free]
    change (⟨(freeCopies rest s').val, true && (freeCopies rest s').inb⟩ : Acc (Option Sys)) = _
    rw [run]
    rfl

/-! ### References -/

omit inv in
/-- Everything `get_opaque` can do: it finds nothing, or it finds an object through a slot and
counts the reference it hands out. -/
theorem getOpaque_cases {r : Option Nat}
    (run : (getOpaque env s g slotId typeValid type).val = some (s', r)) : (s' = s ∧ r = none) ∨
      ∃ p slot ob, getSlot (s.tables g) slotId = some p ∧ s.slotHeap p = some slot ∧
        s.objHeap slot.object = some ob ∧ r = some slot.object ∧
        s' = { s.setObj slot.object { ob with refcount := ob.refcount + 1 } with
          refs := update s.refs slot.object (s.refs slot.object + 1) } := by
  simp only [getOpaque, bind_val] at run
  split at run
  · cases run
  · cases run
    exact .inl ⟨rfl, rfl⟩
  · split at run
    · cases run
    rename_i p get
    split at run
    · cases run
    rename_i slot heap
    split at run
    · cases run
    split at run
    · cases run
    rename_i ob object
    split at run
    · cases run
      exact .inr ⟨p, slot, ob, get, heap, object, rfl, rfl⟩
    · cases run
      exact .inl ⟨rfl, rfl⟩

theorem getOpaque_keep {r : Option Nat}
    (run : (getOpaque env s g slotId typeValid type).val = some (s', r)) :
    CapInv none s' ∧ s'.tables = s.tables ∧
      ∀ o, r = some o → 0 < s'.refs o ∧ ∃ ob, s'.objHeap o = some ob ∧ 0 < ob.refcount := by
  obtain ⟨rfl, rfl⟩ | ⟨p, slot, ob, _, _, object, rfl, rfl⟩ := getOpaque_cases run
  · exact ⟨inv, rfl, fun o never => by cases never⟩
  have count := inv.count _ _ object
  have kept := inv.keep_refs slot.object ob (ob.refcount + 1) (s.refs slot.object + 1) object
    (by omega) (by omega)
  refine ⟨kept, rfl, ?_⟩
  intro o same
  cases same
  exact ⟨by simp, _, by simp [setObj]; rfl, by simp⟩

theorem objPut_keep (held : 0 < s.refs o) :
    ∃ s', objPut s o = some s' ∧ CapInv none s' ∧ s'.tables = s.tables := by
  rcases heap : s.objHeap o with _ | ob
  · exact absurd (inv.dead o heap) (by omega)
  have count := inv.count _ _ heap
  by_cases one : ob.refcount = 1
  · have noCopies : ob.copies = [] := by
      rw [← length_eq_zero_iff]
      omega
    have zero : s.refs o - 1 = 0 := by omega
    refine ⟨{ s.kfreeObj o with refs := update s.refs o 0 }, ?_,
      inv.keep_kfreeObj (.inl rfl) heap noCopies, rfl⟩
    simp [objPut, heap, one, zero, kfreeObj]
  · have live := inv.live _ _ heap (by simp)
    refine ⟨{ s.setObj o { ob with refcount := ob.refcount - 1 } with
      refs := update s.refs o (s.refs o - 1) }, ?_,
      inv.keep_refs o ob (ob.refcount - 1) (s.refs o - 1) heap (by omega) (by omega), rfl⟩
    simp [objPut, heap, one, setObj]

theorem revokeRest_spec (heap : s.objHeap o = some ob) (live : 0 < ob.refcount)
    (held : 0 < s.refs o) :
    ∃ s1 s', objFree s o = ⟨some s1, true⟩ ∧ objPut s1 o = some s' ∧ CapInv none s' ∧
      FreesFrom s s' := by
  obtain ⟨s1, free, inv1, refs, frees, _⟩ := freeCopies_spec o ob.copies s ob inv heap rfl held
  obtain ⟨s', put, inv', tables⟩ := objPut_keep inv1 (by rw [refs]; exact held)
  refine ⟨s1, s', ?_, put, inv', ?_⟩
  · rw [objFree, heap]
    simp only [if_neg (Nat.ne_of_gt live), free]
  · intro P keep all
    rw [tables]
    exact frees P keep all

theorem capRevoke_keep (env : Env) (g : Nat) (slotId : Int) (s' : Sys) (r : Int)
    (run : (capRevoke env s g slotId).val = some (s', r)) : CapInv none s' ∧ FreesFrom s s' := by
  simp only [capRevoke, bind_val] at run
  generalize get : (getOpaque env s g slotId false 0).val = result at run
  obtain _ | ⟨s1, found⟩ := result
  · cases run
  obtain ⟨inv1, tables, held⟩ := getOpaque_keep inv get
  cases found with
  | none =>
    dsimp only at run
    cases run
    exact ⟨inv1, fun P _ all => by rw [tables]; exact all⟩
  | some o =>
    obtain ⟨refs, ob, heap, live⟩ := held o rfl
    obtain ⟨s2, s3, free, put, inv3, frees⟩ := revokeRest_spec inv1 heap live refs
    simp only [bind_val, free, put] at run
    cases run
    exact ⟨inv3, fun P keep all => frees P keep (by rw [tables]; exact all)⟩

/-- Only the `get_opaque` of a `cap_revoke` can leave an array. -/
theorem capRevoke_inb (env : Env) (g : Nat) (slotId : Int) :
    (capRevoke env s g slotId).inb = (getOpaque env s g slotId false 0).inb := by
  simp only [capRevoke, bind_inb]
  cases get : (getOpaque env s g slotId false 0).val with
  | none => simp
  | some result =>
    obtain ⟨s1, found⟩ := result
    obtain ⟨inv1, _, held⟩ := getOpaque_keep inv get
    cases found with
    | none => simp
    | some o =>
      obtain ⟨refs, ob, heap, live⟩ := held o rfl
      obtain ⟨s2, s3, free, _⟩ := revokeRest_spec inv1 heap live refs
      simp [free]

/-! ### New slots -/

omit inv in
theorem insertAfter_perm (node new : Nat) : ∀ list : List Nat, node ∈ list →
    (insertAfter node new list).Perm (new :: list) := by
  intro list
  induction list with
  | nil => intro member; cases member
  | cons a rest ih =>
    intro member
    by_cases eq : a = node
    · simp only [insertAfter, if_pos eq]
      exact List.Perm.swap new a rest
    simp only [insertAfter, if_neg eq]
    have inRest : node ∈ rest := by
      rcases mem_cons.mp member with head | tail
      · exact absurd head.symm eq
      · exact tail
    exact ((ih inRest).cons a).trans (List.Perm.swap new a rest)

omit inv in
theorem capAlloc_keep (inv : CapInv (some o) s)
    (run : (capAlloc env s g o rights).val = some (s', r)) :
    (0 ≤ r ∧ CapInv none s') ∨ (r < 0 ∧ CapInv (some o) s') := by
  have ok := inv.tables g
  have outcome := allocSlotId_outcome env ok
  simp only [capAlloc, bind_val] at run
  generalize (allocSlotId env (s.tables g)).val = result at outcome run
  cases outcome with
  | halted => cases run
  | noMem _ _ =>
    simp only [if_pos (show -eNOMEM < 0 by decide)] at run
    cases run
    exact .inr ⟨by decide, inv.keep_setTable g ok (fun _ => rfl)⟩
  | done new id alloc =>
    simp only [if_neg (show ¬ ((id : Int) < 0) by omega)] at run
    by_cases memory : env.slotOk = false
    · obtain ⟨backOk, back⟩ := freeSlotId_allocated alloc ok
      simp only [memory, if_true, bind_val, Int.toNat_natCast] at run
      cases run
      exact .inr ⟨by decide, inv.keep_setTable g backOk back⟩
    obtain ⟨ob, heap, zero⟩ := inv.pending o rfl
    obtain ⟨final, install, finalOk, _, _, _, view⟩ := installSlot_allocated env s.nextSlot alloc ok
    simp only [if_neg memory, heap, zero, ne_eq, not_true_eq_false, if_false, bind_val,
      install] at run
    cases run
    refine .inl ⟨by omega, ?_⟩
    exact inv.keep_addSlot (.inr rfl) heap rfl rfl finalOk
      (alloc.at_free ok) view (by simp [zero]) (List.Perm.refl _)

theorem createObject_keep {size : Nat}
    (run : (createObject env s g type size rights).val = some (s', r)) : CapInv none s' := by
  simp only [createObject] at run
  by_cases memory : env.objOk = false
  · rw [if_pos memory] at run
    cases run
    exact inv
  rw [if_neg memory] at run
  simp only [bind_val] at run
  generalize alloc : (capAlloc env (objAlloc s type size) g s.nextObj rights).val = result at run
  obtain _ | ⟨s1, r1⟩ := result
  · cases run
  dsimp only at run
  rcases capAlloc_keep (inv.keep_objAlloc type size) alloc with
    ⟨nonneg, done⟩ | ⟨neg, failed⟩
  · rw [if_neg (by omega)] at run
    cases run
    exact done
  -- the fallback of `obj_alloc`: the object was never counted
  obtain ⟨ob, heap, zero⟩ := failed.pending s.nextObj rfl
  have count := failed.count _ _ heap
  have free : objFree s1 s.nextObj = pure (some (s1.kfreeObj s.nextObj)) := by
    rw [objFree, heap]
    simp only [zero, if_true]
  simp only [if_pos neg, bind_val, free, pure_val] at run
  cases run
  have kept := failed.keep_kfreeObj (.inr rfl) heap (by
    rw [← length_eq_zero_iff]
    omega)
  have refs : s1.refs s.nextObj = 0 := by omega
  rw [← refs, update_eq_self] at kept
  exact kept

def CanAlloc (env : Env) (t : SlotTable) : Prop :=
  env.expandOk = true ∨ (searchFree env t).val ≠ none

section
variable (env : Env) (dst : Nat) (id : Nat) (new : SlotTable) (valid : Bool) (rights : Nat)
  (place : (s.tables src).at i = some p) (alloc : Allocated (s.tables dst) new id)
include place alloc

theorem copyIntoSlot_eq :
    ∃ slot ob final, s.slotHeap p = some slot ∧ s.objHeap slot.object = some ob ∧
      p ∈ ob.copies ∧ installSlot env new (id : Int) s.nextSlot = ⟨some final, true⟩ ∧
      TableOk final ∧
      (∀ j, final.at j = if j = id then some s.nextSlot else (s.tables dst).at j) ∧
      copyIntoSlot env s new src dst (i : Int) (id : Int) valid rights =
        ⟨some (s.addSlot
          ⟨(id : Int), dst, true, if valid then rights else slot.rights, slot.object⟩ final
          { ob with refcount := ob.refcount + 1, copies := insertAfter p s.nextSlot ob.copies },
          (id : Int)), true⟩ := by
  have shape : TableShape ((s.setTable dst new).tables src) := by
    by_cases eq : src = dst
    · subst eq
      simpa [setTable] using alloc.shape
    · simpa [setTable, update_of_ne eq] using (inv.tables src).toTableShape
  have again : ((s.setTable dst new).tables src).at i = some p := by
    rw [setTable_at dst new alloc.at_eq]
    exact place
  obtain ⟨slot, ob, heap, _, _, _, object, member⟩ := inv.installed src i p place
  obtain ⟨final, install, finalOk, _, _, _, view⟩ :=
    installSlot_allocated env s.nextSlot alloc (inv.tables dst)
  refine ⟨slot, ob, final, heap, object, member, install, finalOk, view, ?_⟩
  rw [copyIntoSlot, getSlot_of_at shape again]
  simp only [heap, object, install]
  rfl

theorem copyIntoSlot_keep :
    ∃ s' slot ob, s.slotHeap p = some slot ∧ s.objHeap slot.object = some ob ∧
      copyIntoSlot env s new src dst (i : Int) (id : Int) valid rights =
        ⟨some (s', (id : Int)), true⟩ ∧ CapInv none s' ∧
      ∃ final, installSlot env new (id : Int) s.nextSlot = ⟨some final, true⟩ ∧
        s'.tables = update s.tables dst final := by
  obtain ⟨slot, ob, final, heap, object, member, install, finalOk, view, run⟩ :=
    copyIntoSlot_eq inv env dst id new valid rights place alloc
  refine ⟨_, slot, ob, heap, object, run, ?_, final, install, rfl⟩
  exact inv.keep_addSlot (.inl rfl) object rfl rfl finalOk
    (alloc.at_free (inv.tables dst)) view rfl (insertAfter_perm p s.nextSlot ob.copies member)

end

theorem capCopy_keep {dst : Nat}
    (room : getSlot (s.tables src) srcSlotId ≠ none → CanAlloc env (s.tables dst))
    (run : (capCopy env s src dst srcSlotId valid rights).val = some (s', r)) : CapInv none s' := by
  rw [capCopy] at run
  cases get : getSlot (s.tables src) srcSlotId with
  | none =>
    simp only [get] at run
    cases run
    exact inv
  | some p =>
    obtain ⟨i, id, place⟩ := at_of_getSlot _ _ _ get
    subst id
    obtain ⟨slot, ob, heap, _, _, isvalid, _, _⟩ := inv.installed src i p place
    simp only [get, heap, isvalid, Bool.true_eq_false, if_false, bind_val] at run
    have ok := inv.tables dst
    have outcome := allocSlotId_outcome env ok
    generalize (allocSlotId env (s.tables dst)).val = result at outcome run
    cases outcome with
    | halted => cases run
    | noMem memory search =>
      rcases room (by rw [get]; simp) with expand | found
      · rw [memory] at expand
        cases expand
      · exact absurd search found
    | done new id alloc =>
      simp only [if_neg (show ¬ ((id : Int) = -1) by omega)] at run
      by_cases memory : env.slotOk = false
      · obtain ⟨backOk, back⟩ := freeSlotId_allocated alloc ok
        simp only [memory, if_true, bind_val, freeSlotIdInt,
          if_neg (show ¬ ((id : Int) < 0) by omega), Int.toNat_natCast] at run
        cases run
        exact inv.keep_setTable dst backOk back
      · obtain ⟨s1, _, _, _, _, copy, inv1, _⟩ :=
          copyIntoSlot_keep inv env dst id new valid rights place alloc
        simp only [if_neg memory, copy] at run
        cases run
        exact inv1

theorem capFree_keep (run : (capFree s g slotId).val = some (s', r)) : CapInv none s' := by
  cases get : getSlot (s.tables g) slotId with
  | none =>
    rw [capFree, capFreeAt_missing get] at run
    cases run
    exact inv
  | some p =>
    obtain ⟨i, id, place⟩ := at_of_getSlot _ _ _ get
    subst id
    obtain ⟨slot, s1, _, free, freed⟩ := capFreeAt_installed inv place
    rw [capFree, free] at run
    cases run
    exact freed.inv

theorem capMove_keep {dst : Nat}
    (room : getSlot (s.tables src) srcSlotId ≠ none → CanAlloc env (s.tables dst))
    (run : (capMove env s src dst srcSlotId valid rights).val = some (s', r)) : CapInv none s' := by
  simp only [capMove, bind_val] at run
  generalize copy : (capCopy env s src dst srcSlotId valid rights).val = result at run
  obtain _ | ⟨s1, r1⟩ := result
  · cases run
  have inv1 := capCopy_keep inv room copy
  dsimp only at run
  by_cases neg : r1 < 0
  · rw [if_pos neg] at run
    cases run
    exact inv1
  rw [if_neg neg] at run
  simp only [bind_val] at run
  split at run
  · rename_i s2 free
    cases run
    exact capFree_keep inv1 free
  · cases run

omit inv

theorem CapInv.keep_flags (inv : CapInv pend s) (inb halted : Bool) :
    CapInv pend { s with inb := inb, halted := halted } :=
  ⟨inv.tables, inv.installed, inv.linked, inv.nodup, inv.count, inv.pending, inv.live, inv.dead,
    inv.slotFresh, inv.objFresh, inv.freed, inv.once⟩

end Operations

end KernelLabs.ChCore
