import KernelLabs.ChCore.Object.SlotTableRuns

/-!
# Reference counts over whole runs

`cap_copy` asks whether `alloc_slot_id` returned `-1`, but the error is `-ENOMEM`.  When
the destination table is full and cannot grow, the copy goes on with the id `-12`: the
object gets a reference and a slot on its list that no table holds.  In every run in
which a copy finds or makes room the reference counts are exact.
-/

set_option autoImplicit false

namespace KernelLabs.ChCore

open Lib Function List

def slotsOf (s : Sys) (o : Nat) : Set (Nat × Nat) :=
  {x | ∃ p slot, (s.tables x.1).at x.2 = some p ∧ s.slotHeap p = some slot ∧ slot.object = o}

structure RefCountsExact (s : Sys) : Prop where
  count : ∀ o ob, s.objHeap o = some ob → (ob.refcount : ℕ∞) = (slotsOf s o).encard + s.refs o
  copies : ∀ o ob, s.objHeap o = some ob → ob.copies.Nodup ∧ ∀ p, p ∈ ob.copies ↔
    ∃ g i slot, (s.tables g).at i = some p ∧ s.slotHeap p = some slot ∧ slot.object = o
  freedOnce : s.kfreed.Nodup
  freed : ∀ o, o < s.nextObj → (o ∈ s.kfreed ↔ slotsOf s o = ∅ ∧ s.refs o = 0)
  pointsLive : ∀ g i p, (s.tables g).at i = some p → ∃ slot, s.slotHeap p = some slot ∧
    slot.object ∉ s.kfreed ∧ s.objHeap slot.object ≠ none

section Exact
variable {s : Sys} {ob : Object} {o : Nat}

theorem CapInv.mem_copies_iff (inv : CapInv none s) (heap : s.objHeap o = some ob) (p : Nat) :
    p ∈ ob.copies ↔
      ∃ g i slot, (s.tables g).at i = some p ∧ s.slotHeap p = some slot ∧ slot.object = o := by
  constructor
  · intro member
    obtain ⟨slot, i, slotHeap, object, _, place⟩ := inv.linked o ob p heap member
    exact ⟨slot.capGroup, i, slot, place, slotHeap, object⟩
  rintro ⟨g, i, slot, place, slotHeap, object⟩
  obtain ⟨slot', ob', slotHeap', _, _, _, heap', member⟩ := inv.installed g i p place
  rw [slotHeap] at slotHeap'
  cases slotHeap'
  rw [object, heap] at heap'
  cases heap'
  exact member

theorem CapInv.encard_slotsOf (inv : CapInv none s) (heap : s.objHeap o = some ob) :
    (slotsOf s o).encard = ob.copies.length := by
  have image : (fun x : Nat × Nat => (s.tables x.1).at x.2) '' slotsOf s o =
      some '' (ob.copies.toFinset : Set Nat) := by
    ext q
    simp only [Set.mem_image, Finset.mem_coe, mem_toFinset, inv.mem_copies_iff heap]
    constructor
    · rintro ⟨x, ⟨p, slot, place, slotHeap, object⟩, rfl⟩
      exact ⟨p, ⟨x.1, x.2, slot, place, slotHeap, object⟩, place.symm⟩
    · rintro ⟨p, ⟨g, i, slot, place, slotHeap, object⟩, rfl⟩
      exact ⟨(g, i), ⟨p, slot, place, slotHeap, object⟩, place⟩
  have inj : Set.InjOn (fun x : Nat × Nat => (s.tables x.1).at x.2) (slotsOf s o) := by
    rintro ⟨g, i⟩ ⟨p, slot, place, slotHeap, _⟩ ⟨g', i'⟩ _ same
    have place' : (s.tables g').at i' = some p := by rw [← place]; exact same.symm
    obtain ⟨slot1, _, heap1, id1, group1, _⟩ := inv.installed g i p place
    obtain ⟨slot2, _, heap2, id2, group2, _⟩ := inv.installed g' i' p place'
    rw [heap1] at heap2
    cases heap2
    have group : g = g' := group1.symm.trans group2
    have id : i = i' := by omega
    rw [group, id]
  rw [← inj.encard_image, image, (Option.some_injective Nat).encard_image,
    Set.encard_coe_eq_coe_finsetCard, toFinset_card_of_nodup (inv.nodup o ob heap)]

theorem CapInv.refCountsExact (inv : CapInv none s) : RefCountsExact s := by
  refine ⟨?_, fun o ob heap => ⟨inv.nodup o ob heap, inv.mem_copies_iff heap⟩, inv.once, ?_, ?_⟩
  · intro o ob heap
    rw [inv.encard_slotsOf heap, inv.count o ob heap]
    push_cast
    rfl
  · intro o below
    rw [inv.freed]
    constructor
    · rintro ⟨_, dead⟩
      refine ⟨?_, inv.dead o dead⟩
      rw [Set.eq_empty_iff_forall_notMem]
      rintro ⟨g, i⟩ ⟨p, slot, place, slotHeap, object⟩
      obtain ⟨slot', ob, slotHeap', _, _, _, heap, _⟩ := inv.installed g i p place
      rw [slotHeap] at slotHeap'
      cases slotHeap'
      rw [object, dead] at heap
      cases heap
    · rintro ⟨none, refs⟩
      refine ⟨below, ?_⟩
      cases heap : s.objHeap o with
      | none => rfl
      | some ob =>
        have length := inv.encard_slotsOf heap
        rw [none, Set.encard_empty] at length
        have zero : ob.copies.length = 0 := by exact_mod_cast length.symm
        have count := inv.count o ob heap
        have live := inv.live o ob heap (by simp)
        omega
  · intro g i p place
    obtain ⟨slot, ob, slotHeap, _, _, _, heap, _⟩ := inv.installed g i p place
    refine ⟨slot, slotHeap, ?_, by rw [heap]; simp⟩
    intro inList
    rw [inv.freed, heap] at inList
    cases inList.2

end Exact

/-! ## Runs -/

def PutPaired (s : Sys) : CapOp → Prop
  | .put o => 0 < s.refs o
  | _ => True

/-- A `cap_copy` or `cap_move` of an existing slot finds a free id in the destination
table or the memory to make the table larger. -/
def CopyCanAlloc (env : Env) (s : Sys) : CapOp → Prop
  | .copy src dst slotId _ _ | .move src dst slotId _ _ =>
    getSlot (s.tables src) slotId ≠ none → CanAlloc env (s.tables dst)
  | _ => True

theorem runCapOp_keep {s : Sys} (env : Env) (op : CapOp) (inv : CapInv none s)
    (paired : PutPaired s op) (room : CopyCanAlloc env s op) (s' : Sys) (r : Int)
    (run : (runCapOp env s op).val = some (s', r)) : CapInv none s' := by
  cases op with
  | create g type size rights => exact createObject_keep inv run
  | copy src dst slotId valid rights =>
    exact capCopy_keep inv room run
  | move src dst slotId valid rights =>
    exact capMove_keep inv room run
  | free g slotId => exact capFree_keep inv run
  | revoke g slotId => exact (capRevoke_keep inv env g slotId s' r run).1
  | get g slotId typeValid type =>
    simp only [runCapOp, Acc.bind_val] at run
    split at run
    · cases run
    · rename_i s1 o get
      cases run
      exact (getOpaque_keep inv get).1
  | put o =>
    obtain ⟨s1, put, inv1, _⟩ := objPut_keep inv paired
    rw [runCapOp, put] at run
    cases run
    exact inv1

theorem capStep_keep (s : Sys) (op : Env × CapOp) (inv : CapInv none s)
    (meets : PutPaired s op.2 ∧ CopyCanAlloc op.1 s op.2) : CapInv none (capStep s op) := by
  have keep := runCapOp_keep op.1 op.2 inv meets.1 meets.2
  rw [capStep]
  split
  · exact inv
  · split
    · exact inv.keep_flags _ true
    · rename_i s' r inb run
      exact (keep s' r (by rw [run])).keep_flags _ s'.halted

/-- In every run whose copies can allocate their slot the reference counts are exact. -/
theorem refCounts_exact_of_canAlloc (sizes : Nat → Nat) (tables : Nat → SlotTable)
    (init : ∀ g, slotTableInit (sizes g) = some (tables g)) (ops : List (Env × CapOp))
    (meets : RunMeets capStep (fun s op => PutPaired s op.2 ∧ CopyCanAlloc op.1 s op.2)
      (startSys tables) ops) : RefCountsExact (ops.foldl capStep (startSys tables)) := by
  refine CapInv.refCountsExact (run_invariant capStep _ (CapInv none) capStep_keep ops
    (startSys tables) ?_ meets)
  exact startSys_inv tables (fun g => slotTableInit_ok (sizes g) _ (init g))
    (fun g => slotTableInit_at (sizes g) (init g))

theorem refCounts_exact_copy_get_revoke_put : RefCountsExact
      ([(plenty, CapOp.create 0 0 0 0), (plenty, .copy 0 1 0 false 0), (plenty, .get 1 0 true 0),
        (plenty, .revoke 0 0), (plenty, .put 0)].foldl capStep (startSys fun _ => baseTable)) := by
  refine refCounts_exact_of_canAlloc (fun _ => 64) (fun _ => baseTable) (fun _ => rfl) _ ?_
  refine ⟨⟨trivial, trivial⟩, ⟨trivial, fun _ => Or.inl rfl⟩, ⟨trivial, trivial⟩,
    ⟨trivial, trivial⟩, ⟨?_, trivial⟩, trivial⟩
  change 0 < Sys.refs _ 0
  decide +kernel

/-! ### The copy into a full table -/

def noExpand : Env := { plenty with expandOk := false, behindBmp := fun _ => allOnesWord }

theorem capCopy_slips {s : Sys} (inv : CapInv none s) {src dst i p : Nat} (valid : Bool)
    (rights : Nat) (place : (s.tables src).at i = some p)
    (full : (searchFree noExpand (s.tables dst)).val = none) :
    ∃ s', (capCopy noExpand s src dst (i : Int) valid rights).val = some (s', -eNOMEM) ∧
      s'.tables = s.tables ∧ ∃ slot ob, s.slotHeap p = some slot ∧
        s'.objHeap slot.object = some ob ∧ s.nextSlot ∈ ob.copies := by
  obtain ⟨slot, ob, heap, _, _, isvalid, object, member⟩ := inv.installed src i p place
  have get := getSlot_of_at (inv.tables src).toTableShape place
  have shape := (inv.tables dst).toTableShape
  have alloc : (allocSlotId noExpand (s.tables dst)).val = some (s.tables dst, -eNOMEM) := by
    have memory : noExpand.expandOk = false := rfl
    rw [allocSlotId, allocSlotIdLoop]
    simp [full, memory]
  have beyond : ¬ toU32 (-eNOMEM) / bitsPerLong < (s.tables dst).slotsBmp.length := by
    have bounded := shape.bounded
    have maxEq : kmallocMax = 33554432 := by decide
    have index : toU32 (-eNOMEM) / bitsPerLong = 67108863 := by decide
    rw [shape.bmp_length, index]
    omega
  have install : (installSlot noExpand (s.tables dst) (-eNOMEM) s.nextSlot).val =
      some (s.tables dst) := by
    have bit : (getBit noExpand.behindBmp (toU32 (-eNOMEM)) (s.tables dst).slotsBmp).val = true := by
      simp only [getBit, Acc.bind_val, readAt, getD_eq_getElem?_getD,
        getElem?_eq_none (Nat.le_of_not_lt beyond)]
      decide
    have negative : -eNOMEM < 0 := by decide
    simp only [installSlot, Acc.bind_val, bit, if_true, if_pos negative]
  have same : s.setTable dst (s.tables dst) = s := by
    simp [Sys.setTable]
  refine ⟨s.addSlot ⟨-eNOMEM, dst, true, if valid then rights else slot.rights, slot.object⟩
    (s.tables dst)
    { ob with refcount := ob.refcount + 1, copies := insertAfter p s.nextSlot ob.copies }, ?_, ?_,
    slot, _, heap, update_self .., ?_⟩
  · have memory : noExpand.slotOk = true := rfl
    have error : ¬ (-eNOMEM = -1) := by decide
    simp [capCopy, get, heap, isvalid, alloc, memory, error, copyIntoSlot, same, object, install]
  · exact update_eq_self dst s.tables
  · exact (insertAfter_perm p s.nextSlot ob.copies member).symm.subset mem_cons_self

/-- A table of 256 slots is full and there are no pages for a larger one. -/
theorem refCounts_not_exact_after_full_copy :
    ¬ RefCountsExact (capStep (afterCreates 256) (noExpand, .copy 0 0 0 false 0)) := by
  intro exact
  obtain ⟨inv, packed, running⟩ := afterCreates_packed 256 (by decide)
  generalize afterCreates 256 = s at exact inv packed running
  have shape := packed.ok.toTableShape
  have used : (s.tables 0).at 0 ≠ none := by
    rw [← mem_usedIds shape, ← bit_iff_used packed.ok, packed.bits]
    decide
  obtain ⟨p, place⟩ := Option.ne_none_iff_exists'.mp used
  have full : (searchFree noExpand (s.tables 0)).val = none := by
    cases found : (searchFree noExpand (s.tables 0)).val with
    | none => rfl
    | some id =>
      obtain ⟨_, spec⟩ := searchFree_spec noExpand (s.tables 0) shape
      rw [found] at spec
      obtain ⟨inside, clear, _⟩ := spec
      rw [packed.size] at inside
      rw [packed.bits, decide_eq_false_iff_not] at clear
      exact absurd inside clear
  obtain ⟨s', run, tables, slot, ob, heap, object, member⟩ := capCopy_slips inv false 0 place full
  have step := capStep_eq (s := s) (noExpand, .copy 0 0 0 false 0) running run
  rw [step] at exact
  -- the new slot is on the list of its object, but every installed slot is older
  obtain ⟨g, i, _, installed, _⟩ := ((exact.copies _ ob object).2 s.nextSlot).mp member
  have old : (s.tables g).at i = some s.nextSlot := by
    rw [← tables]
    exact installed
  obtain ⟨_, _, older, _⟩ := inv.installed g i s.nextSlot old
  rw [inv.slotFresh s.nextSlot (le_refl _)] at older
  cases older

end KernelLabs.ChCore
