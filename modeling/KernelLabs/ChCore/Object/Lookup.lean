import KernelLabs.ChCore.Object.SlotTableRuns

/-!
# Looking up a capability

`get_opaque` takes the id as a user program passed it; `obj_get` is `get_opaque` with the type
check.  `is_valid_slot_id` rejects an id that is negative and at least `slots_size`, so of the ids
outside the table it rejects the negative ones only: they are large as `unsigned int`.  An id from
`slots_size` on reads the bitmap behind its end.
-/

set_option autoImplicit false

namespace KernelLabs.ChCore

open Lib Function Acc

def SlotsLive (s : Sys) (g : Nat) : Prop :=
  ∀ i p, (s.tables g).at i = some p → ∃ slot ob,
    s.slotHeap p = some slot ∧ slot.isvalid = true ∧ s.objHeap slot.object = some ob

def Names (s : Sys) (g : Nat) (slotId : Int) (typeValid : Bool) (type o : Nat) : Prop :=
  ∃ (i p : Nat) (slot : ObjectSlot) (ob : Object), slotId = (i : Int) ∧
    i < (s.tables g).slotsSize ∧ (s.tables g).at i = some p ∧ s.slotHeap p = some slot ∧
    slot.object = o ∧ s.objHeap o = some ob ∧ (typeValid = false ∨ ob.type = type)

/-- The call comes back, its reads stay in the arrays, it returns the object that is named, and
counts one reference to it and none to another. -/
structure LookupExact (env : Env) (s : Sys) (g : Nat) (slotId : Int) (typeValid : Bool)
    (type : Nat) : Prop where
  inBounds : (getOpaque env s g slotId typeValid type).inb = true
  result : ∃ s' r, (getOpaque env s g slotId typeValid type).val = some (s', r) ∧
    (∀ o, r = some o ↔ Names s g slotId typeValid type o) ∧
    ∀ o, s'.objHeap o =
      (s.objHeap o).map fun ob => { ob with refcount := ob.refcount + if r = some o then 1 else 0 }

section Lookup
variable (env : Env) {s : Sys} {g : Nat} {slotId : Int} {typeValid : Bool} {type : Nat}

/-- An id behind the table reads the bitmap behind its end. -/
theorem isValidSlotId_past (shape : TableShape (s.tables g))
    (past : ((s.tables g).slotsSize : Int) ≤ slotId) (high : slotId < 2 ^ 31) :
    (isValidSlotId env (s.tables g) slotId).inb = false := by
  obtain ⟨i, rfl⟩ := Int.eq_ofNat_of_zero_le (show 0 ≤ slotId by omega)
  have aligned := shape.aligned
  have nonnegative : ¬ ((i : Int) < 0 ∧ (s.tables g).slotsSize ≤ toU32 i) := by omega
  have behind : ¬ toU32 i / bitsPerLong < (s.tables g).slotsBmp.length := by
    rw [toU32_natCast (by omega), shape.bmp_length]
    simp only [bitsPerLong]
    omega
  rw [isValidSlotId, if_neg nonnegative]
  simp only [bind_inb, getBit_inb, behind, decide_false, Bool.false_and]

theorem isValidSlotId_negative (shape : TableShape (s.tables g)) (negative : slotId < 0)
    (low : -2 ^ 31 ≤ slotId) : isValidSlotId env (s.tables g) slotId = pure (some false) := by
  have bounded := shape.bounded
  have maxEq : kmallocMax = 33554432 := by decide
  have large : (s.tables g).slotsSize ≤ toU32 slotId := by
    simp only [toU32]
    omega
  rw [isValidSlotId, if_pos ⟨negative, large⟩]

variable {i : Nat}

/-- In the table an id is valid if and only if its slot is installed. -/
theorem isValidSlotId_inside (ok : TableOk (s.tables g)) (inside : i < (s.tables g).slotsSize) :
    (isValidSlotId env (s.tables g) i).val = some ((s.tables g).at i).isSome := by
  have size := size_lt _ ok.toTableShape
  have aligned := ok.aligned
  have word : i / bitsPerLong < (s.tables g).slotsBmp.length := by
    rw [ok.bmp_length]
    simp only [bitsPerLong]
    omega
  have nonnegative : ¬ ((i : Int) < 0 ∧ (s.tables g).slotsSize ≤ toU32 i) := by omega
  have bit := ok.bits i inside
  rw [isValidSlotId, if_neg nonnegative, toU32_natCast (by omega)]
  simp only [bind_val, getBit_val _ word, bit, Int.toNat_natCast]
  cases slot : ((s.tables g).slots.getD i none).isSome with
  | false =>
    simp only [SlotTable.at, slot]
    rfl
  | true =>
    have read := readAt_val_of_lt (fun j => env.behindSlots j) (s.tables g).slots i none
      (by rw [ok.slots_length]; exact inside)
    simp only [SlotTable.at, if_true, bind_val, pure_val, read, slot]

theorem not_names_outside (outside : ∀ i : Nat, slotId = (i : Int) → ¬ i < (s.tables g).slotsSize)
    (o : Nat) : ¬ Names s g slotId typeValid type o := by
  intro names
  obtain ⟨i, _, _, _, same, inside, _⟩ := names
  exact outside i same inside

variable {env}

theorem LookupExact.of_none (inb : (getOpaque env s g slotId typeValid type).inb = true)
    (run : (getOpaque env s g slotId typeValid type).val = some (s, none))
    (nothing : ∀ o, ¬ Names s g slotId typeValid type o) :
    LookupExact env s g slotId typeValid type := by
  refine ⟨inb, s, none, run, ?_, ?_⟩
  · intro o
    constructor
    · intro never
      cases never
    · intro names
      exact absurd names (nothing o)
  · intro o
    cases s.objHeap o with
    | none | some => rfl

variable {slot : ObjectSlot} {ob : Object}

theorem getOpaque_installed (env : Env) (typeValid : Bool) (type : Nat) (ok : TableOk (s.tables g))
    {p : Nat} (place : (s.tables g).at i = some p) (heap : s.slotHeap p = some slot)
    (valid : slot.isvalid = true) (object : s.objHeap slot.object = some ob) :
    (getOpaque env s g i typeValid type).val =
      if typeValid = false ∨ ob.type = type then
        some ({ s.setObj slot.object { ob with refcount := ob.refcount + 1 } with
          refs := update s.refs slot.object (s.refs slot.object + 1) }, some slot.object)
      else some (s, none) := by
  have inside := at_some_lt ok.toTableShape place
  have installed := isValidSlotId_inside env ok inside
  have get := getSlot_of_at ok.toTableShape place
  rw [place] at installed
  simp only [getOpaque, bind_val, installed, Option.isSome_some, get, heap, valid, object,
    Bool.true_eq_false, if_false]
  split
  · rfl
  · rfl

theorem LookupExact.of_installed (ok : TableOk (s.tables g)) {p : Nat}
    (place : (s.tables g).at i = some p) (heap : s.slotHeap p = some slot)
    (valid : slot.isvalid = true) (object : s.objHeap slot.object = some ob) :
    LookupExact env s g i typeValid type := by
  have inside := at_some_lt ok.toTableShape place
  have inb : (getOpaque env s g i typeValid type).inb = true :=
    getOpaque_inb env g ok.toTableShape i typeValid type (by omega)
  have run := getOpaque_installed env typeValid type ok place heap valid object
  have only : ∀ o, Names s g i typeValid type o →
      o = slot.object ∧ (typeValid = false ∨ ob.type = type) := by
    intro o names
    obtain ⟨i', p', slot', ob', same, _, place', heap', object', heap'', typed⟩ := names
    obtain rfl : i = i' := by omega
    rw [place] at place'
    cases place'
    rw [heap] at heap'
    cases heap'
    subst object'
    rw [object] at heap''
    cases heap''
    exact ⟨rfl, typed⟩
  by_cases typed : typeValid = false ∨ ob.type = type
  · rw [if_pos typed] at run
    refine ⟨inb, _, _, run, ?_, ?_⟩
    · intro o
      constructor
      · intro same
        cases same
        exact ⟨i, p, slot, ob, rfl, inside, place, heap, rfl, object, typed⟩
      · intro names
        rw [(only o names).1]
    intro o
    by_cases same : o = slot.object
    · subst same
      rw [object]
      simp [Sys.setObj]
    · have other : ¬ some slot.object = some o := fun equal => same (Option.some.inj equal).symm
      simp only [Sys.setObj, update_of_ne same, other, if_false]
      cases s.objHeap o with
      | none | some => rfl
  · rw [if_neg typed] at run
    exact .of_none inb run fun o names => typed (only o names).2

theorem LookupExact.of_inside (ok : TableOk (s.tables g)) (live : SlotsLive s g)
    (inside : i < (s.tables g).slotsSize) : LookupExact env s g i typeValid type := by
  cases place : (s.tables g).at i with
  | some p =>
    obtain ⟨slot, ob, heap, valid, object⟩ := live i p place
    exact .of_installed ok place heap valid object
  | none =>
    have empty := isValidSlotId_inside env ok inside
    rw [place] at empty
    refine .of_none (getOpaque_inb env g ok.toTableShape i typeValid type (by omega)) ?_ ?_
    · simp only [getOpaque, bind_val, empty, Option.isSome_none, pure_val]
    · intro o names
      obtain ⟨i', p, _, _, same, _, place', _⟩ := names
      obtain rfl : i = i' := by omega
      rw [place] at place'
      cases place'

/-- Look-ups are in bounds and exact for the ids below `slots_size`, and for no other. -/
theorem lookup_exact_iff (env : Env) (s : Sys) (g : Nat) (ok : TableOk (s.tables g))
    (live : SlotsLive s g) (slotId : Int) (low : -2 ^ 31 ≤ slotId) (high : slotId < 2 ^ 31)
    (typeValid : Bool) (type : Nat) :
    LookupExact env s g slotId typeValid type ↔ slotId < (s.tables g).slotsSize := by
  constructor
  · intro exact
    by_contra past
    have behind := isValidSlotId_past env ok.toTableShape (Int.not_lt.mp past) high
    have inb := exact.inBounds
    simp only [getOpaque, bind_inb, behind, Bool.false_and] at inb
    cases inb
  intro below
  by_cases negative : slotId < 0
  · have rejected := isValidSlotId_negative env ok.toTableShape negative low
    refine .of_none (getOpaque_inb env g ok.toTableShape slotId typeValid type below) ?_ ?_
    · simp only [getOpaque, rejected, bind_val, pure_val]
    · exact not_names_outside fun i same => by omega
  · obtain ⟨i, rfl⟩ := Int.eq_ofNat_of_zero_le (Int.not_lt.mp negative)
    exact .of_inside ok live (by omega)

end Lookup

theorem CapInv.slotsLive {s : Sys} {pend : Option Nat} (inv : CapInv pend s) (g : Nat) :
    SlotsLive s g := by
  intro i p place
  obtain ⟨slot, ob, heap, _, _, valid, object, _⟩ := inv.installed g i p place
  exact ⟨slot, ob, heap, valid, object⟩

/-- The object of the first `create` is found by its id. -/
theorem lookup_exact_first_object : LookupExact plenty (afterCreates 1) 0 0 true 0 := by
  obtain ⟨inv, packed, _⟩ := afterCreates_packed 1 (by decide)
  refine (lookup_exact_iff plenty (afterCreates 1) 0 (inv.tables 0) (inv.slotsLive 0)
    0 (by decide) (by decide) true 0).mpr ?_
  rw [packed.size]
  decide

/-- The id `slots_size` reads the bitmap behind its end. -/
theorem lookup_past_table : ¬ LookupExact plenty (startSys fun _ => baseTable) 0 64 true 0 := by
  intro exact
  have inb := exact.inBounds
  revert inb
  decide +kernel

end KernelLabs.ChCore
