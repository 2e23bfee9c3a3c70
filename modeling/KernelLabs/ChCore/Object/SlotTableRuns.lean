import KernelLabs.ChCore.Object.RefCount

/-!
# Slot tables over whole runs

`alloc_slot_id` tests the wrong bitmap before it marks a word as full, so no bit of
`full_slots_bmp` is ever set.  As long as no table holds more than 63 slots this does
not show: all ids stay inside the first word and that word is never all ones.  The
invariant below is this situation; `RoomFor` says which operations stay in it.
-/

set_option autoImplicit false

namespace KernelLabs.ChCore

open Lib Function List Option Finset

def usedIds (t : SlotTable) : Finset Nat :=
  (Finset.range t.slotsSize).filter fun i => (t.at i).isSome

structure FirstWord (t : SlotTable) : Prop where
  ok : TableOk t
  unmarked : ∀ w, bitAt t.fullSlotsBmp w = false
  low : usedIds t ⊆ Finset.range 64

section Tables
variable {t : SlotTable}

theorem mem_usedIds (shape : TableShape t) (i : Nat) : i ∈ usedIds t ↔ t.at i ≠ none := by
  simp only [usedIds, Finset.mem_filter, Finset.mem_range, isSome_iff_ne_none]
  refine ⟨And.right, fun used => ⟨?_, used⟩⟩
  obtain ⟨p, place⟩ := ne_none_iff_exists'.mp used
  exact at_some_lt shape place

theorem bit_iff_used (ok : TableOk t) (i : Nat) : bitAt t.slotsBmp i = true ↔ i ∈ usedIds t := by
  rw [mem_usedIds ok.toTableShape]
  by_cases inside : i < t.slotsSize
  · rw [ok.bits i inside, SlotTable.at, isSome_iff_ne_none]
  have past : t.slotsBmp.length * 64 ≤ i := by
    rw [ok.bmp_length]
    have := ok.aligned
    omega
  rw [bitAt_of_length_le past, SlotTable.at, getD_eq_getElem?_getD,
    getElem?_eq_none (by rw [ok.slots_length]; omega)]
  simp

theorem FirstWord.exists_clear (first : FirstWord t) (room : (usedIds t).card < 64) :
    ∃ i, i < 64 ∧ bitAt t.slotsBmp i = false := by
  obtain ⟨i, inRange, unused⟩ :=
    exists_mem_notMem_of_card_lt_card (s := usedIds t) (t := range 64) (by simpa)
  refine ⟨i, Finset.mem_range.mp inRange, ?_⟩
  rw [← Bool.not_eq_true, bit_iff_used first.ok]
  exact unused

theorem slotTableInit_at (size : Nat) (init : slotTableInit size = some t) (i : Nat) :
    t.at i = none := by
  obtain ⟨_, _, slots, _⟩ := slotTableInit_eq init
  rw [SlotTable.at, slots, getD_eq_getElem?_getD, getElem?_replicate]
  split <;> rfl

theorem slotTableInit_firstWord (size : Nat) (init : slotTableInit size = some t) :
    FirstWord t ∧ usedIds t = ∅ := by
  obtain ⟨_, _, _, _, full⟩ := slotTableInit_eq init
  have ok := slotTableInit_ok size t init
  have empty : usedIds t = ∅ := by
    rw [eq_empty_iff_forall_notMem]
    intro i
    rw [mem_usedIds ok.toTableShape, slotTableInit_at size init]
    simp
  exact ⟨⟨ok, fun w => by rw [full, bitAt_replicate_zero], by simp [empty]⟩, empty⟩

/-! ## Allocation -/

variable {id : Nat} {env : Env}

section Search
variable (shape : TableShape t) (unmarked : ∀ w, bitAt t.fullSlotsBmp w = false)
include shape unmarked

theorem searchFree_least (found : (searchFree env t).val = some id) :
    bitAt t.slotsBmp id = false ∧ ∀ i, i < id → bitAt t.slotsBmp i = true := by
  obtain ⟨_, spec⟩ := searchFree_spec env t shape
  rw [found] at spec
  obtain ⟨_, clear, word, marked, before⟩ := spec
  refine ⟨clear, fun i below => before i ?_ below⟩
  have zero : word = 0 := by
    by_contra pos
    have mark := marked 0 (Nat.pos_of_ne_zero pos)
    rw [unmarked] at mark
    cases mark
  simp [zero]

/-- The search fails only when every bit is set. -/
theorem searchFree_none (full : (searchFree env t).val = none) {i : Nat}
    (inside : i < t.slotsSize) : bitAt t.slotsBmp i = true := by
  obtain ⟨_, spec⟩ := searchFree_spec env t shape
  have aligned := shape.aligned
  rw [full] at spec
  rcases spec 0 (by omega) with mark | used
  · rw [unmarked] at mark
    cases mark
  · exact used i (by omega) inside

end Search

variable {new : SlotTable}

theorem Expanded.firstWord (first : FirstWord t) (grow : Expanded t new) :
    FirstWord new ∧ usedIds new = usedIds t := by
  have same : usedIds new = usedIds t := by
    ext i
    rw [← bit_iff_used grow.ok, ← bit_iff_used first.ok, grow.bits]
  exact ⟨⟨grow.ok, fun w => by rw [grow.fullBits, first.unmarked], by rw [same]; exact first.low⟩,
    same⟩

theorem word_ne_allOnes (p : List Word) (w i : Nat) (below : i < 64)
    (clear : bitAt p (w * 64 + i) = false) : p.getD w 0 ≠ allOnesWord := by
  intro ones
  have index : (w * 64 + i) / bitsPerLong = w := by
    simp only [bitsPerLong]
    omega
  have bit : (w * 64 + i) % bitsPerLong = i := by
    simp only [bitsPerLong]
    omega
  rw [bitAt, index, ones, allOnesWord, BitVec.getLsbD_allOnes, bit, decide_eq_false_iff_not] at clear
  exact clear below

theorem takeSlotId_unmarked (env : Env) (unmarked : ∀ w, bitAt t.fullSlotsBmp w = false)
    (word : id / 64 < t.fullSlotsBmp.length ∨ ∀ i, env.behindFull i ≠ allOnesWord) :
    (takeSlotId env t id).val.fullSlotsBmp = t.fullSlotsBmp := by
  have word : (readAt env.behindFull t.fullSlotsBmp (id / bitsPerLong)).val ≠ allOnesWord := by
    by_cases inside : id / bitsPerLong < t.fullSlotsBmp.length
    · rw [readAt_val_of_lt _ _ (id / bitsPerLong) 0 inside]
      intro ones
      exact word_ne_allOnes _ (id / bitsPerLong) 0 (by omega) (unmarked _) ones
    · rw [readAt, getD_eq_getElem?_getD, getElem?_eq_none (Nat.le_of_not_lt inside)]
      exact word.resolve_left inside _
  simp [takeSlotId, word]

theorem takeSlotId_size (env : Env) (t : SlotTable) (id : Nat) :
    (takeSlotId env t id).val.slotsSize = t.slotsSize := by
  simp only [takeSlotId, Acc.bind_val]
  split <;> rfl

theorem expandSlotTable_of_small (small : t.slotsSize ≤ 4096) :
    ∃ new, (expandSlotTable t).val = some new := by
  have init : ∃ new, slotTableInit ((t.slotsSize + baseObjectNum) % 2 ^ 32) = some new := by
    rw [slotTableInit, if_neg]
    · exact ⟨_, rfl⟩
    · simp only [divRoundUp, baseObjectNum, bitsPerLong, kmallocMax]
      omega
  obtain ⟨new, init⟩ := init
  simp only [expandSlotTable, init]
  exact ⟨_, rfl⟩

theorem allocSlotId_firstWord (memory : env.expandOk = true) (first : FirstWord t)
    (room : (usedIds t).card < 64) :
    ∃ new, ∃ id : Nat, allocSlotId env t = ⟨some (new, (id : Int)), true⟩ ∧
      Allocated t new id ∧ (id < 64 ∧ new.slotsSize = max t.slotsSize 64) ∧
      (∀ w, bitAt new.fullSlotsBmp w = false) ∧ ∀ i, i < id → bitAt t.slotsBmp i = true := by
  obtain ⟨c, low, clear⟩ := first.exists_clear room
  have shape := first.ok.toTableShape
  have aligned := shape.aligned
  -- an id found in a table of at least one word: the test reads word 0 of the bitmap
  have fits : ∀ {t' : SlotTable} (id : Nat), TableShape t' → id < t'.slotsSize → id < 64 →
      id / 64 < t'.fullSlotsBmp.length := by
    intro t' id shape' inside below
    have aligned' := shape'.aligned
    have long := le_bitsToLongs_mul (t'.slotsSize / 64)
    rw [shape'.full_length]
    omega
  cases search : (searchFree env t).val with
  | some id =>
    obtain ⟨val, alloc, inb⟩ := allocSlotId_found shape search
    obtain ⟨_, least⟩ := searchFree_least shape first.unmarked search
    have below : id < 64 := by
      by_contra past
      rw [least c (by omega)] at clear
      cases clear
    obtain ⟨_, spec⟩ := searchFree_spec env t shape
    rw [search] at spec
    have inside := fits id shape spec.1 below
    refine ⟨_, id, ?_, alloc, ⟨below, ?_⟩, ?_, least⟩
    · rw [← val, ← inb.mpr inside]
    · rw [takeSlotId_size]
      omega
    · rw [takeSlotId_unmarked env first.unmarked (.inl inside)]
      exact first.unmarked
  | none =>
    -- every bit of the table is set, so it has no word at all
    have empty : t.slotsSize = 0 := by
      by_contra pos
      rw [searchFree_none shape first.unmarked search (by omega)] at clear
      cases clear
    obtain ⟨new, expand⟩ := expandSlotTable_of_small (t := t) (by omega)
    obtain ⟨grow, id, found, val, alloc, inb⟩ := allocSlotId_grown first.ok search memory expand
    obtain ⟨firstNew, _⟩ := grow.firstWord first
    obtain ⟨_, spec⟩ := searchFree_spec env new grow.ok.toTableShape
    rw [found] at spec
    have size := grow.size
    have below : id < 64 := by omega
    have inside := fits id grow.ok.toTableShape spec.1 below
    refine ⟨_, id, ?_, alloc, ⟨below, ?_⟩, ?_, ?_⟩
    · rw [← val, ← inb.mpr inside]
    · rw [takeSlotId_size]
      omega
    · rw [takeSlotId_unmarked env firstNew.unmarked (.inl inside)]
      exact firstNew.unmarked
    · intro i before
      rw [← grow.bits]
      exact (searchFree_least grow.ok.toTableShape firstNew.unmarked found).2 i before

structure OneMore (t t' : SlotTable) : Prop where
  first : FirstWord t'
  size : t'.slotsSize = max t.slotsSize 64
  card : (usedIds t').card = (usedIds t).card + 1
  kept : ∀ i p, t.at i = some p → t'.at i = some p

theorem installSlot_oneMore (env : Env) (slot : Nat) (first : FirstWord t)
    (alloc : Allocated t new id) (below : id < 64 ∧ new.slotsSize = max t.slotsSize 64)
    (unmarked : ∀ w, bitAt new.fullSlotsBmp w = false) :
    ∃ final, installSlot env new (id : Int) slot = ⟨some final, true⟩ ∧ OneMore t final := by
  obtain ⟨final, install, ok, size, _, full, view⟩ := installSlot_allocated env slot alloc first.ok
  have vacant := alloc.at_free first.ok
  have ids : usedIds final = insert id (usedIds t) := by
    ext i
    rw [mem_insert, mem_usedIds ok.toTableShape, mem_usedIds first.ok.toTableShape, view]
    by_cases eq : i = id <;> simp [eq]
  have fresh : id ∉ usedIds t := by
    rw [mem_usedIds first.ok.toTableShape, vacant]
    simp
  refine ⟨final, install, ⟨ok, by rw [full]; exact unmarked, ?_⟩, size.trans below.2, ?_, ?_⟩
  · rw [ids, insert_subset_iff]
    exact ⟨Finset.mem_range.mpr below.1, first.low⟩
  · rw [ids, Finset.card_insert_of_notMem fresh]
  · intro i p place
    have ne : i ≠ id := fun eq => by rw [eq, vacant] at place; cases place
    rw [view, if_neg ne]
    exact place

theorem freeSlotId_firstWord (first : FirstWord t) (used : t.at id ≠ none) :
    FirstWord (freeSlotId t id).val ∧
      (usedIds (freeSlotId t id).val).card + 1 = (usedIds t).card := by
  have shape := first.ok.toTableShape
  obtain ⟨p, place⟩ := ne_none_iff_exists'.mp used
  have inside := at_some_lt shape place
  obtain ⟨_, shape', _, _, full, view⟩ := freeSlotId_shape shape inside
  have ids : usedIds (freeSlotId t id).val = (usedIds t).erase id := by
    ext i
    rw [mem_erase, mem_usedIds shape', mem_usedIds shape, view]
    by_cases eq : i = id <;> simp [eq]
  have member : id ∈ usedIds t := (mem_usedIds shape id).mpr used
  refine ⟨⟨freeSlotId_ok first.ok inside, ?_, ?_⟩, ?_⟩
  · intro w
    rw [full, first.unmarked, Bool.and_false]
  · rw [ids]
    exact (erase_subset _ _).trans first.low
  · rw [ids, card_erase_add_one member]

/-! ## The property -/

structure BitmapsExact (t : SlotTable) : Prop where
  bits : ∀ i, i < t.slotsSize → (bitAt t.slotsBmp i = true ↔ t.slots.getD i none ≠ none)
  full : ∀ w, w < bitsToLongs t.slotsSize →
    (bitAt t.fullSlotsBmp w = true ↔ t.slotsBmp.getD w 0 = allOnesWord)

theorem FirstWord.bitmapsExact (first : FirstWord t) (room : (usedIds t).card < 64) :
    BitmapsExact t := by
  refine ⟨?_, ?_⟩
  · intro i inside
    rw [first.ok.bits i inside, isSome_iff_ne_none]
  intro w _
  rw [first.unmarked]
  refine iff_of_false (by simp) ?_
  obtain ⟨c, below, clear⟩ := first.exists_clear room
  by_cases zero : w = 0
  · exact word_ne_allOnes _ w c below (by simpa [zero] using clear)
  · refine word_ne_allOnes _ w 0 (by omega) ?_
    rw [← Bool.not_eq_true, bit_iff_used first.ok]
    intro member
    have := Finset.mem_range.mp (first.low member)
    omega

/-- Every index was inside its array, the bitmaps are exact, `alloc_slot_id` returns the least free
id, and growing a table keeps its slots. -/
structure SlotTablesExact (s : Sys) : Prop where
  inBounds : s.inb = true
  exact : ∀ g, BitmapsExact (s.tables g)
  least : ∀ g env, env.expandOk = true → ∃ new, ∃ id : Nat,
    allocSlotId env (s.tables g) = ⟨some (new, (id : Int)), true⟩ ∧
      bitAt (s.tables g).slotsBmp id = false ∧
      ∀ i, i < id → bitAt (s.tables g).slotsBmp i = true
  expand : ∀ g new, (expandSlotTable (s.tables g)).val = some new →
    ∀ i p, (s.tables g).at i = some p → new.at i = some p

end Tables

/-! ## The operations -/

/-- Every table stays in its first word, with a bit to spare: a table that gets a slot has at most
62, and `cap_revoke` is not called beyond the table. -/
def RoomFor (s : Sys) : CapOp → Prop
  | .create g _ _ _ => (usedIds (s.tables g)).card < 63
  | .copy src dst slotId _ _ =>
    getSlot (s.tables src) slotId ≠ none → (usedIds (s.tables dst)).card < 63
  | .move src dst slotId _ _ =>
    getSlot (s.tables src) slotId ≠ none → src ≠ dst → (usedIds (s.tables dst)).card < 63
  | .revoke g slotId => slotId < (s.tables g).slotsSize
  | .free _ _ | .get _ _ _ _ | .put _ => True

instance decidableRoomFor (s : Sys) : ∀ op, Decidable (RoomFor s op) := by
  rintro ⟨⟩ <;> dsimp only [RoomFor] <;> infer_instance

def FirstWords (s : Sys) : Prop :=
  ∀ g, FirstWord (s.tables g) ∧ (usedIds (s.tables g)).card < 64

section Operations
variable {s : Sys} (env : Env)

theorem FirstWords.replace {s' : Sys} (words : FirstWords s) (g : Nat) (t : SlotTable)
    (first : FirstWord t) (room : (usedIds t).card < 64)
    (tables : s'.tables = update s.tables g t) : FirstWords s' := by
  intro g'
  rw [tables]
  by_cases eq : g' = g
  · subst eq
    rw [update_self]
    exact ⟨first, room⟩
  · rw [update_of_ne eq]
    exact words g'

theorem createObject_firstWord (inv : CapInv none s) (g type size rights : Nat)
    (object : env.objOk = true) (expand : env.expandOk = true) (slot : env.slotOk = true)
    (first : FirstWord (s.tables g)) (room : (usedIds (s.tables g)).card < 64) :
    ∃ s' r final, createObject env s g type size rights = ⟨some (s', r), true⟩ ∧
      CapInv none s' ∧ s'.tables = update s.tables g final ∧ s'.halted = s.halted ∧
      OneMore (s.tables g) final := by
  obtain ⟨new, id, alloc, allocated, below, unmarked, _⟩ := allocSlotId_firstWord expand first room
  obtain ⟨final, install, more⟩ := installSlot_oneMore env s.nextSlot first allocated below unmarked
  have run : ∃ s', createObject env s g type size rights = ⟨some (s', (id : Int)), true⟩ ∧
      s'.tables = update s.tables g final ∧ s'.halted = s.halted := by
    refine ⟨(objAlloc s type size).addSlot ⟨(id : Int), g, true, rights, s.nextObj⟩ final
      ⟨type, size, 1, [s.nextSlot]⟩, ?_, rfl, rfl⟩
    have heap : (objAlloc s type size).objHeap s.nextObj = some ⟨type, size, 0, []⟩ := by
      simp [objAlloc]
    have inner : capAlloc env (objAlloc s type size) g s.nextObj rights =
        ⟨some ((objAlloc s type size).addSlot ⟨(id : Int), g, true, rights, s.nextObj⟩ final
          ⟨type, size, 1, [s.nextSlot]⟩, (id : Int)), true⟩ := by
      have allocS : allocSlotId env ((objAlloc s type size).tables g) = _ := alloc
      have installS : installSlot env new (id : Int) (objAlloc s type size).nextSlot = _ := install
      simp only [capAlloc, allocS, bind, slot, heap, installS,
        if_neg (show ¬ ((id : Int) < 0) by omega), Bool.true_eq_false, if_false, ne_eq,
        not_true_eq_false]
      rfl
    simp only [createObject, object, Bool.true_eq_false, if_false, bind, inner,
      if_neg (show ¬ ((id : Int) < 0) by omega)]
    rfl
  obtain ⟨s', run, tables, halted⟩ := run
  exact ⟨s', id, final, run, createObject_keep inv (by rw [run]), tables, halted, more⟩

theorem capCopy_firstWord (inv : CapInv none s) (src dst i p : Nat) (valid : Bool) (rights : Nat)
    (expand : env.expandOk = true) (slot : env.slotOk = true) (place : (s.tables src).at i = some p)
    (first : FirstWord (s.tables dst)) (room : (usedIds (s.tables dst)).card < 64) :
    ∃ s' final, ∃ id : Nat, capCopy env s src dst (i : Int) valid rights =
        ⟨some (s', (id : Int)), true⟩ ∧ CapInv none s' ∧
      s'.tables = update s.tables dst final ∧ OneMore (s.tables dst) final := by
  obtain ⟨new, id, alloc, allocated, below, unmarked, _⟩ := allocSlotId_firstWord expand first room
  obtain ⟨final, install, more⟩ := installSlot_oneMore env s.nextSlot first allocated below unmarked
  obtain ⟨s', srcSlot, ob, heap, _, copy, inv', final', install', tables⟩ :=
    copyIntoSlot_keep inv env dst id new valid rights place allocated
  rw [install] at install'
  cases install'
  obtain ⟨slot1, _, heap1, _, _, isvalid, _⟩ := inv.installed src i p place
  rw [heap] at heap1
  cases heap1
  refine ⟨s', final, id, ?_, inv', tables, more⟩
  simp only [capCopy, getSlot_of_at (inv.tables src).toTableShape place, heap, isvalid, alloc,
    bind, slot, copy, if_neg (show ¬ ((id : Int) = -1) by omega), Bool.true_eq_false, if_false]
  rfl

/-- `cap_move` of an installed slot: the copy, then the free of the old slot. -/
theorem capMove_firstWord (inv : CapInv none s) (words : FirstWords s) (src dst i p : Nat)
    (valid : Bool) (rights : Nat) (expand : env.expandOk = true) (slot : env.slotOk = true)
    (place : (s.tables src).at i = some p) (room : src ≠ dst → (usedIds (s.tables dst)).card < 63) :
    ∃ s', capMove env s src dst (i : Int) valid rights = ⟨some (s', 0), true⟩ ∧
      CapInv none s' ∧ FirstWords s' := by
  obtain ⟨firstDst, roomDst⟩ := words dst
  obtain ⟨s1, final, id, copy, inv1, tables1, more⟩ :=
    capCopy_firstWord env inv src dst i p valid rights expand slot place firstDst roomDst
  have still : (s1.tables src).at i = some p := by
    rw [tables1]
    by_cases eq : src = dst
    · subst eq
      rw [update_self]
      exact more.kept i p place
    · rw [update_of_ne eq]
      exact place
  obtain ⟨_, s2, _, free, freed⟩ := capFreeAt_installed inv1 still
  refine ⟨s2, ?_, freed.inv, ?_⟩
  · simp only [capMove, copy, bind, capFree, free, if_neg (show ¬ ((id : Int) < 0) by omega)]
    rfl
  have used : (s1.tables src).at i ≠ none := by rw [still]; simp
  have firstSrc : FirstWord (s1.tables src) := by
    rw [tables1]
    by_cases eq : src = dst
    · subst eq
      rw [update_self]
      exact more.first
    · rw [update_of_ne eq]
      exact (words src).1
  obtain ⟨firstFreed, cardFreed⟩ := freeSlotId_firstWord firstSrc used
  by_cases eq : src = dst
  · -- inside one group the table ends with as many slots as before
    subst eq
    refine words.replace src _ firstFreed ?_ (by rw [freed.tables, tables1, update_idem])
    rw [tables1, update_self] at cardFreed ⊢
    have := more.card
    omega
  · have words1 : FirstWords s1 :=
      words.replace dst final more.first (by rw [more.card]; have := room eq; omega) tables1
    exact words1.replace src _ firstFreed (by have := (words1 src).2; omega) freed.tables

theorem getOpaque_inb (g : Nat) (shape : TableShape (s.tables g)) (slotId : Int) (typeValid : Bool)
    (type : Nat) (below : slotId < (s.tables g).slotsSize) :
    (getOpaque env s g slotId typeValid type).inb = true := by
  have valid : (isValidSlotId env (s.tables g) slotId).inb = true := by
    have size := size_lt _ shape
    have aligned := shape.aligned
    rw [isValidSlotId]
    split
    · rfl
    rename_i inRange
    have id : toU32 slotId < (s.tables g).slotsSize := by
      by_cases neg : slotId < 0
      · exact Nat.lt_of_not_le fun past => inRange ⟨neg, past⟩
      · obtain ⟨i, rfl⟩ := Int.eq_ofNat_of_zero_le (show 0 ≤ slotId by omega)
        rw [toU32_natCast (by omega)]
        omega
    have bmp : toU32 slotId / bitsPerLong < (s.tables g).slotsBmp.length := by
      rw [shape.bmp_length]
      simp only [bitsPerLong]
      omega
    have slots : slotId.toNat < (s.tables g).slotsSize := by omega
    simp only [Acc.bind_inb, getBit_inb, bmp, decide_true, Bool.true_and]
    split
    · simp [shape.slots_length, slots]
    · rfl
  simp only [getOpaque, Acc.bind_inb, valid, Bool.true_and]
  split
  · rfl
  · rfl
  · split
    · rfl
    split
    · rfl
    · split
      · rfl
      · split
        · rfl
        · split <;> rfl

end Operations

/-! ## Whole runs -/

def slotOp (op : Env × CapOp) : Bool :=
  op.1.objOk && op.1.expandOk && op.1.slotOk &&
    match op.2 with
    | .get _ _ _ _ | .put _ => false
    | _ => true

structure SlotInv (s : Sys) : Prop where
  inv : CapInv none s
  words : FirstWords s
  inBounds : s.inb = true

theorem SlotInv.exact {s : Sys} (inv : SlotInv s) : SlotTablesExact s := by
  refine ⟨inv.inBounds, fun g => (inv.words g).1.bitmapsExact (inv.words g).2, ?_, ?_⟩
  · intro g env memory
    obtain ⟨first, room⟩ := inv.words g
    obtain ⟨new, id, alloc, allocated, _, _, least⟩ := allocSlotId_firstWord memory first room
    exact ⟨new, id, alloc, allocated.free, least⟩
  intro g new expand i p place
  have ok := inv.inv.tables g
  have grow := (expandSlotTable_spec ok).2 new expand
  have inside := at_some_lt ok.toTableShape place
  rw [SlotTable.at, grow.slots, getD_eq_getElem?_getD,
    getElem?_append_left (by rw [ok.slots_length]; exact inside)]
  simpa [SlotTable.at, getD_eq_getElem?_getD] using place

theorem freesFrom_firstWords {s s' : Sys} (words : FirstWords s) (frees : FreesFrom s s') :
    FirstWords s' := by
  refine frees (fun t => FirstWord t ∧ (usedIds t).card < 64) ?_ words
  intro t id _ used ⟨first, room⟩
  obtain ⟨firstFreed, card⟩ := freeSlotId_firstWord first used
  exact ⟨firstFreed, by omega⟩

theorem runCapOp_firstWords {s : Sys} {env : Env} {op : CapOp} (inv : SlotInv s)
    (allowed : slotOp (env, op) = true) (room : RoomFor s op) : (runCapOp env s op).inb = true ∧
      ∀ s' r, (runCapOp env s op).val = some (s', r) → CapInv none s' ∧ FirstWords s' := by
  have words := inv.words
  simp only [slotOp, Bool.and_eq_true] at allowed
  obtain ⟨⟨⟨object, expand⟩, slot⟩, kind⟩ := allowed
  cases op with
  | create g type size rights =>
    obtain ⟨s1, r1, final, run, inv1, tables, _, more⟩ := createObject_firstWord env inv.inv g
      type size rights object expand slot (words g).1 (words g).2
    rw [runCapOp, run]
    refine ⟨rfl, ?_⟩
    rintro s' r ⟨⟩
    have : (usedIds (s.tables g)).card < 63 := room
    exact ⟨inv1, words.replace g final more.first (by rw [more.card]; omega) tables⟩
  | copy src dst slotId valid rights =>
    rw [runCapOp]
    cases get : getSlot (s.tables src) slotId with
    | none =>
      rw [capCopy, get]
      refine ⟨rfl, ?_⟩
      rintro s' r ⟨⟩
      exact ⟨inv.inv, words⟩
    | some p =>
      obtain ⟨i, rfl, place⟩ := at_of_getSlot _ _ _ get
      obtain ⟨s1, final, id, run, inv1, tables, more⟩ := capCopy_firstWord env inv.inv
        src dst i p valid rights expand slot place (words dst).1 (words dst).2
      have room1 : (usedIds (s.tables dst)).card < 63 := room (by rw [get]; simp)
      rw [run]
      refine ⟨rfl, ?_⟩
      rintro s' r ⟨⟩
      exact ⟨inv1, words.replace dst final more.first (by rw [more.card]; omega) tables⟩
  | move src dst slotId valid rights =>
    rw [runCapOp]
    cases get : getSlot (s.tables src) slotId with
    | none =>
      have run : capMove env s src dst slotId valid rights = ⟨some (s, -eCAPBILITY), true⟩ := by
        simp only [capMove, capCopy, get, bind]
        rfl
      rw [run]
      refine ⟨rfl, ?_⟩
      rintro s' r ⟨⟩
      exact ⟨inv.inv, words⟩
    | some p =>
      obtain ⟨i, rfl, place⟩ := at_of_getSlot _ _ _ get
      obtain ⟨s1, run, inv1, words1⟩ := capMove_firstWord env inv.inv words src dst i p
        valid rights expand slot place (room (by rw [get]; simp))
      rw [run]
      refine ⟨rfl, ?_⟩
      rintro s' r ⟨⟩
      exact ⟨inv1, words1⟩
  | free g slotId =>
    rw [runCapOp, capFree]
    cases get : getSlot (s.tables g) slotId with
    | none =>
      rw [capFreeAt_missing get]
      refine ⟨rfl, ?_⟩
      rintro s' r ⟨⟩
      exact ⟨inv.inv, words⟩
    | some p =>
      obtain ⟨i, rfl, place⟩ := at_of_getSlot _ _ _ get
      obtain ⟨_, s1, _, run, freed⟩ := capFreeAt_installed inv.inv place
      rw [run]
      refine ⟨rfl, ?_⟩
      rintro s' r ⟨⟩
      exact ⟨freed.inv, freesFrom_firstWords words (freed.freesFrom inv.inv place)⟩
  | revoke g slotId =>
    rw [runCapOp]
    refine ⟨?_, ?_⟩
    · rw [capRevoke_inb inv.inv env, getOpaque_inb env g (words g).1.ok.toTableShape slotId false 0 room]
    · intro s' r run
      obtain ⟨inv1, frees⟩ := capRevoke_keep inv.inv env g slotId s' r run
      exact ⟨inv1, freesFrom_firstWords words frees⟩
  | get | put => cases kind

theorem capStep_slotInv (s : Sys) (op : Env × CapOp) (inv : SlotInv s)
    (meets : slotOp op = true ∧ RoomFor s op.2) : SlotInv (capStep s op) := by
  obtain ⟨inb, keep⟩ := runCapOp_firstWords inv meets.1 meets.2
  rw [capStep]
  split
  · exact inv
  split
  · rename_i inb' run
    rw [run] at inb
    refine ⟨inv.inv.keep_flags _ true, inv.words, ?_⟩
    simpa [inv.inBounds] using inb
  · rename_i s' r inb' run
    rw [run] at inb
    obtain ⟨inv', words'⟩ := keep s' r (by rw [run])
    refine ⟨inv'.keep_flags _ s'.halted, words', ?_⟩
    simpa [inv.inBounds] using inb

/-- In every run of operations that find room in the first word of their table, the slot
tables are exact in every state. -/
theorem slotTables_exact_of_room (sizes : Nat → Nat) (tables : Nat → SlotTable)
    (init : ∀ g, slotTableInit (sizes g) = some (tables g)) (ops : List (Env × CapOp))
    (allowed : ∀ op ∈ ops, slotOp op = true)
    (room : RunMeets capStep (fun s op => RoomFor s op.2) (startSys tables) ops) :
    SlotTablesExact (ops.foldl capStep (startSys tables)) := by
  refine SlotInv.exact (run_invariant capStep _ SlotInv capStep_slotInv ops (startSys tables) ?_
    (room.and_forall allowed))
  have firsts := fun g => slotTableInit_firstWord (sizes g) (init g)
  refine ⟨startSys_inv tables (fun g => (firsts g).1.ok)
    (fun g => slotTableInit_at (sizes g) (init g)), ?_, rfl⟩
  intro g
  exact ⟨(firsts g).1, by change (usedIds (tables g)).card < 64; rw [(firsts g).2]; decide⟩

def plenty : Env :=
  { objOk := true, expandOk := true, slotOk := true, behindFull := fun _ => 0,
    behindBmp := fun _ => 0, behindSlots := fun _ => none }

def baseTable : SlotTable :=
  { slotsSize := 64, slots := replicate 64 none, fullSlotsBmp := [0], slotsBmp := [0] }

theorem slotTables_exact_create_copy_move_revoke : SlotTablesExact
      ([(plenty, CapOp.create 0 0 0 0), (plenty, .copy 0 1 0 false 0), (plenty, .move 1 0 0 true 1),
        (plenty, .revoke 0 1)].foldl capStep (startSys fun _ => baseTable)) :=
  slotTables_exact_of_room (fun _ => 64) (fun _ => baseTable) (fun _ => rfl) _ (by decide)
    (by decide +kernel)

/-! ### Sixty-four slots -/

def creates (n : Nat) : List (Env × CapOp) := replicate n (plenty, .create 0 0 0 0)

def afterCreates (n : Nat) : Sys := (creates n).foldl capStep (startSys fun _ => baseTable)

/-- The first `n` ids are in use and the table grew only when it was full. -/
structure Packed (t : SlotTable) (n : Nat) : Prop where
  ok : TableOk t
  unmarked : ∀ w, bitAt t.fullSlotsBmp w = false
  bits : ∀ i, bitAt t.slotsBmp i = decide (i < n)
  size : t.slotsSize = 64 * max 1 ((n + 63) / 64)

section Packed
variable {t : SlotTable} {n : Nat}

theorem takeSlotId_plenty (unmarked : ∀ w, bitAt t.fullSlotsBmp w = false) (id : Nat) :
    (takeSlotId plenty t id).val.fullSlotsBmp = t.fullSlotsBmp :=
  takeSlotId_unmarked plenty unmarked (.inr fun _ => (by decide : (0 : Word) ≠ allOnesWord))

theorem least_eq {id : Nat} (bits : ∀ i, bitAt t.slotsBmp i = decide (i < n))
    (least : bitAt t.slotsBmp id = false ∧ ∀ i, i < id → bitAt t.slotsBmp i = true) : id = n := by
  obtain ⟨clear, before⟩ := least
  rw [bits, decide_eq_false_iff_not] at clear
  by_contra other
  have used := before n (by omega)
  rw [bits, decide_eq_true_eq] at used
  omega

theorem Packed.alloc (packed : Packed t n) (small : n < 4096) : ∃ new,
    (allocSlotId plenty t).val = some (new, (n : Int)) ∧ Allocated t new n ∧
      new.slotsSize = 64 * max 1 ((n + 64) / 64) ∧ ∀ w, bitAt new.fullSlotsBmp w = false := by
  have shape := packed.ok.toTableShape
  have size := packed.size
  cases search : (searchFree plenty t).val with
  | some id =>
    obtain ⟨val, alloc, _⟩ := allocSlotId_found shape search
    obtain rfl := least_eq packed.bits (searchFree_least shape packed.unmarked search)
    have inside := alloc.inside
    rw [takeSlotId_size] at inside
    refine ⟨_, val, alloc, ?_, ?_⟩
    · rw [takeSlotId_size]
      omega
    · rw [takeSlotId_plenty packed.unmarked]
      exact packed.unmarked
  | none =>
    have full : n = t.slotsSize := by
      by_contra other
      have used := searchFree_none shape packed.unmarked search (i := n) (by omega)
      rw [packed.bits, decide_eq_true_eq] at used
      omega
    obtain ⟨new, expand⟩ := expandSlotTable_of_small (t := t) (by omega)
    obtain ⟨grow, id, found, val, alloc, _⟩ := allocSlotId_grown packed.ok search rfl expand
    have unmarked : ∀ w, bitAt new.fullSlotsBmp w = false := fun w => by
      rw [grow.fullBits, packed.unmarked]
    obtain rfl := least_eq (fun i => by rw [grow.bits, packed.bits])
      (searchFree_least grow.ok.toTableShape unmarked found)
    refine ⟨_, val, alloc, ?_, ?_⟩
    · rw [takeSlotId_size, grow.size]
      omega
    · rw [takeSlotId_plenty unmarked]
      exact unmarked

theorem Packed.create {s : Sys} (packed : Packed (s.tables 0) n) (small : n < 4096) :
    ∃ s', (createObject plenty s 0 0 0 0).val = some (s', (n : Int)) ∧ s'.halted = s.halted ∧
      Packed (s'.tables 0) (n + 1) := by
  obtain ⟨new, alloc, allocated, size, unmarked⟩ := packed.alloc small
  obtain ⟨final, install, ok, sameSize, bmp, full, _⟩ :=
    installSlot_allocated plenty s.nextSlot allocated packed.ok
  have heap : (objAlloc s 0 0).objHeap s.nextObj = some ⟨0, 0, 0, []⟩ := by simp [objAlloc]
  have allocS : (allocSlotId plenty ((objAlloc s 0 0).tables 0)).val = _ := alloc
  have installS : installSlot plenty new (n : Int) (objAlloc s 0 0).nextSlot = _ := install
  have memory : plenty.objOk = true ∧ plenty.slotOk = true := ⟨rfl, rfl⟩
  refine ⟨(objAlloc s 0 0).addSlot ⟨(n : Int), 0, true, 0, s.nextObj⟩ final
    ⟨0, 0, 1, [s.nextSlot]⟩, ?_, rfl, ?_⟩
  · have inner : (capAlloc plenty (objAlloc s 0 0) 0 s.nextObj 0).val =
        some ((objAlloc s 0 0).addSlot ⟨(n : Int), 0, true, 0, s.nextObj⟩ final
          ⟨0, 0, 1, [s.nextSlot]⟩, (n : Int)) := by
      simp [capAlloc, allocS, heap, installS, memory]
      rfl
    simp [createObject, inner, memory, if_neg (show ¬ ((n : Int) < 0) by omega)]
  · have table : ((objAlloc s 0 0).addSlot ⟨(n : Int), 0, true, 0, s.nextObj⟩ final
        ⟨0, 0, 1, [s.nextSlot]⟩).tables 0 = final := by
      simp [Sys.addSlot]
    rw [table]
    refine ⟨ok, by rw [full]; exact unmarked, fun i => ?_, by rw [sameSize, size]⟩
    rw [bmp, allocated.bits, packed.bits, ← Bool.decide_or]
    congr 1
    simp only [eq_iff_iff]
    omega

end Packed

theorem afterCreates_packed : ∀ n, n ≤ 4096 → CapInv none (afterCreates n) ∧
    Packed ((afterCreates n).tables 0) n ∧ (afterCreates n).halted = false := by
  intro n
  induction n with
  | zero =>
    intro _
    have first := (slotTableInit_firstWord 64 (t := baseTable) rfl).1
    exact ⟨startSys_inv _ (fun _ => first.ok) fun _ => slotTableInit_at 64 rfl,
      ⟨first.ok, first.unmarked, bitAt_replicate_zero 1, rfl⟩, rfl⟩
  | succ n ih =>
    intro le
    obtain ⟨inv, packed, running⟩ := ih (by omega)
    have next : afterCreates (n + 1) = capStep (afterCreates n) (plenty, .create 0 0 0 0) := by
      have split : creates (n + 1) = creates n ++ [(plenty, .create 0 0 0 0)] := replicate_succ'
      rw [afterCreates, split, foldl_append]
      rfl
    obtain ⟨s', run, halted, packed'⟩ := packed.create (by omega)
    have step := capStep_eq (plenty, .create 0 0 0 0) running run
    rw [next, step]
    exact ⟨(createObject_keep inv run).keep_flags _ s'.halted, packed', halted.trans running⟩

/-- The sixty-fourth slot fills the first word, and the word is not marked as full. -/
theorem slotTables_not_exact_after_creates : ¬ SlotTablesExact (afterCreates 64) := by
  intro exact
  obtain ⟨_, packed, _⟩ := afterCreates_packed 64 (by decide)
  generalize afterCreates 64 = s at exact packed
  have ones : (s.tables 0).slotsBmp.getD 0 0 = allOnesWord := by
    refine BitVec.eq_of_getLsbD_eq fun i below => ?_
    have bit := packed.bits i
    rw [decide_eq_true below, bitAt, bitsPerLong, Nat.div_eq_of_lt below, Nat.mod_eq_of_lt below] at bit
    rw [bit, allOnesWord, BitVec.getLsbD_allOnes, decide_eq_true below]
  have size : 0 < bitsToLongs (s.tables 0).slotsSize := by
    rw [packed.size]
    decide
  have mark := ((exact.exact 0).full 0 size).mpr ones
  rw [packed.unmarked] at mark
  cases mark

end KernelLabs.ChCore
