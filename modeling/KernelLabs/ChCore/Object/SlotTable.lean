import KernelLabs.ChCore.Common.Bitops
import Mathlib.Algebra.Group.Int.Defs

/-!
# The slot table of a capability group

Model of `struct slot_table` and of the functions of `kernel/object/cap_group.c`
and `kernel/include/object/cap_group.h` that work on one table.  A slot is the
address of its `object_slot` (`none` is NULL); the bitmaps are arrays of words.

`kmalloc` refuses more than `2 ^ 13` pages with `BUG_ON(1)`, which is an endless
loop, so a table never has more than `2 ^ 22` slots and the conversions between
`int`, `unsigned int` and `unsigned long` in the source do not change a value.
A result `none` below means that the kernel does not get past a `BUG_ON`.
-/

set_option autoImplicit false

namespace KernelLabs.ChCore

open Lib List Acc

def baseObjectNum : Nat := bitsPerLong

/-- The largest block `buddy_get_pages` hands out: `2 ^ (BUDDY_MAX_ORDER - 1)` pages. -/
def kmallocMax : Nat := 2 ^ 13 * 4096

def eNOMEM : Int := 12

def eCAPBILITY : Int := 200

structure SlotTable where
  slotsSize : Nat
  slots : List (Option Nat)
  fullSlotsBmp : List Word
  slotsBmp : List Word
  deriving DecidableEq, Repr

/-- Whether the allocations of an operation succeed (of the object, of the arrays of a larger table,
of the `object_slot`), and what lies in memory behind the three arrays. -/
structure Env where
  objOk : Bool
  expandOk : Bool
  slotOk : Bool
  behindFull : Nat → Word
  behindBmp : Nat → Word
  behindSlots : Int → Option Nat

/-- `slot_table_init`: the size is rounded up to whole words (in an `unsigned int`), the arrays are
zeroed; `none` when `kmalloc` stops at `slots`. -/
def slotTableInit (size : Nat) : Option SlotTable :=
  let size := divRoundUp size baseObjectNum * baseObjectNum % 2 ^ 32
  if kmallocMax < size * 8 then none
  else some
    { slotsSize := size
      slots := replicate size none
      slotsBmp := replicate (bitsToLongs size) 0
      fullSlotsBmp := replicate (bitsToLongs (bitsToLongs size)) 0 }

def copyInto {α : Type} (dst src : List α) (n : Nat) : Acc (List α) :=
  ⟨src.take n ++ dst.drop n, decide (n ≤ dst.length) && decide (n ≤ src.length)⟩

/-- `expand_slot_table` once its allocations have succeeded. -/
def expandSlotTable (t : SlotTable) : Acc (Option SlotTable) :=
  let newSize := (t.slotsSize + baseObjectNum) % 2 ^ 32
  match slotTableInit newSize with
  | none => pure none
  | some new => do
    let slots ← copyInto new.slots t.slots t.slotsSize
    let bmp ← copyInto new.slotsBmp t.slotsBmp (bitsToLongs t.slotsSize)
    let full ← copyInto new.fullSlotsBmp t.fullSlotsBmp (bitsToLongs (bitsToLongs t.slotsSize))
    pure (some { slotsSize := newSize, slots := slots, slotsBmp := bmp, fullSlotsBmp := full })

/-- One turn of the search in `alloc_slot_id`; `none` is `goto expand`. -/
def searchFree (env : Env) (t : SlotTable) : Acc (Option Nat) := do
  let bmpSize := t.slotsSize
  let fullBmpSize := bitsToLongs bmpSize
  let word ← findNextZeroBit env.behindFull t.fullSlotsBmp fullBmpSize 0
  if fullBmpSize ≤ word then pure none
  else do
    let idx ← findNextZeroBit env.behindBmp t.slotsBmp bmpSize (word * bitsPerLong)
    if bmpSize ≤ idx then pure none else pure (some idx)

/-- The end of `alloc_slot_id`.  The word compared with `~0` is word
`empty_idx / BITS_PER_LONG` of `full_slots_bmp`, as in the source. -/
def takeSlotId (env : Env) (t : SlotTable) (emptyIdx : Nat) : Acc SlotTable := do
  let bmp ← setBit emptyIdx t.slotsBmp
  let w ← readAt env.behindFull t.fullSlotsBmp (emptyIdx / bitsPerLong)
  if w = allOnesWord then do
    let full ← setBit (emptyIdx / bitsPerLong) t.fullSlotsBmp
    pure { t with slotsBmp := bmp, fullSlotsBmp := full }
  else pure { t with slotsBmp := bmp }

/-- The `while (true)` loop of `alloc_slot_id`: the table and the id, or the error
with the table as it was. -/
def allocSlotIdLoop (env : Env) : Nat → SlotTable → Acc (Option (SlotTable × Int))
  | 0, _ => pure none
  | fuel + 1, t => do
    match ← searchFree env t with
    | some emptyIdx => do
      let t ← takeSlotId env t emptyIdx
      pure (some (t, (emptyIdx : Int)))
    | none =>
      if env.expandOk then do
        match ← expandSlotTable t with
        | some new => allocSlotIdLoop env fuel new
        | none => pure none
      else pure (some (t, -eNOMEM))

/-- `alloc_slot_id`.  Every turn but the last adds a word to a table of at most
`2 ^ 16` words. -/
def allocSlotId (env : Env) (t : SlotTable) : Acc (Option (SlotTable × Int)) :=
  allocSlotIdLoop env (2 ^ 16 + 2) t

def freeSlotId (t : SlotTable) (slotId : Nat) : Acc SlotTable := do
  let bmp ← clearBit slotId t.slotsBmp
  let full ← clearBit (slotId / bitsPerLong) t.fullSlotsBmp
  let slots ← writeAt t.slots slotId none
  pure { t with slotsBmp := bmp, fullSlotsBmp := full, slots := slots }

def getSlot (t : SlotTable) (slotId : Int) : Option Nat :=
  if slotId < 0 ∨ (t.slotsSize : Int) ≤ slotId then none
  else t.slots.getD slotId.toNat none

def toU32 (i : Int) : Nat := (i % 2 ^ 32).toNat

/-- `install_slot`; a negative index writes in front of the array. -/
def installSlot (env : Env) (t : SlotTable) (slotId : Int) (slot : Nat) :
    Acc (Option SlotTable) := do
  let bit ← getBit env.behindBmp (toU32 slotId) t.slotsBmp
  if bit then
    if slotId < 0 then ⟨some t, false⟩
    else do
      let slots ← writeAt t.slots slotId.toNat (some slot)
      pure (some { t with slots := slots })
  else pure none

/-- `is_valid_slot_id`: `none` is the `BUG` on a NULL slot. -/
def isValidSlotId (env : Env) (t : SlotTable) (slotId : Int) : Acc (Option Bool) :=
  if slotId < 0 ∧ t.slotsSize ≤ toU32 slotId then pure (some false)
  else do
    let bit ← getBit env.behindBmp (toU32 slotId) t.slotsBmp
    if bit then do
      let slot ← readAt (fun i => env.behindSlots i) t.slots slotId.toNat
      pure (if slot.isSome then some true else none)
    else pure (some false)

/-! ## What holds of every table -/

/-- The arrays have their lengths and no bit of `full_slots_bmp` stands for a word
the table does not have. -/
structure TableShape (t : SlotTable) : Prop where
  aligned : t.slotsSize % 64 = 0
  bounded : t.slotsSize * 8 ≤ kmallocMax
  slots_length : t.slots.length = t.slotsSize
  bmp_length : t.slotsBmp.length = t.slotsSize / 64
  full_length : t.fullSlotsBmp.length = bitsToLongs (t.slotsSize / 64)
  fullBits : ∀ w, t.slotsSize / 64 ≤ w → bitAt t.fullSlotsBmp w = false

/-- What every operation keeps: besides the shape, a bit is set exactly for an installed slot. -/
structure TableOk (t : SlotTable) : Prop extends TableShape t where
  bits : ∀ i, i < t.slotsSize → bitAt t.slotsBmp i = (t.slots.getD i none).isSome

theorem bitsToLongs_of_aligned (n : Nat) (h : n % 64 = 0) : bitsToLongs n = n / 64 := by
  simp only [bitsToLongs, divRoundUp, bitsPerLong]
  omega

theorem le_bitsToLongs_mul (n : Nat) : n ≤ bitsToLongs n * 64 := by
  simp only [bitsToLongs, divRoundUp, bitsPerLong]
  omega

variable {i : Nat} {α : Type}

theorem getD_append_replicate (l : List α) (a : α) (n i : Nat) :
    (l ++ replicate n a).getD i a = l.getD i a := by
  simp only [getD_eq_getElem?_getD]
  by_cases inside : i < l.length
  · rw [getElem?_append_left inside]
  · rw [getElem?_append_right (by omega), getElem?_replicate,
      getElem?_eq_none (by omega)]
    split <;> rfl

theorem bitAt_append_zeros (p : List Word) (n i : Nat) :
    bitAt (p ++ replicate n 0) i = bitAt p i := by
  rw [bitAt, bitAt, getD_append_replicate]

theorem bitAt_of_length_le {p : List Word} (h : p.length * 64 ≤ i) : bitAt p i = false := by
  have past : p.length ≤ i / bitsPerLong := by simp only [bitsPerLong]; omega
  simp [bitAt, getD_eq_getElem?_getD, getElem?_eq_none past]

theorem bitAt_replicate_zero (n i : Nat) : bitAt (replicate n 0) i = false :=
  (bitAt_append_zeros [] n i).trans (bitAt_of_length_le (Nat.zero_le _))

section Words
variable {t : SlotTable} (shape : TableShape t) {id : Nat} (inside : id < t.slotsSize)
include shape inside

theorem TableShape.word_lt : id / bitsPerLong < t.slotsBmp.length := by
  have aligned := shape.aligned
  rw [shape.bmp_length]
  simp only [bitsPerLong]
  omega

theorem TableShape.fullWord_lt : id / bitsPerLong / bitsPerLong < t.fullSlotsBmp.length := by
  have room := le_bitsToLongs_mul (t.slotsSize / 64)
  have aligned := shape.aligned
  rw [shape.full_length]
  simp only [bitsPerLong]
  omega

end Words

theorem slotTableInit_eq {size : Nat} {t : SlotTable} (h : slotTableInit size = some t) :
    t.slotsSize % 64 = 0 ∧ t.slotsSize * 8 ≤ kmallocMax ∧
      t.slots = replicate t.slotsSize none ∧
      t.slotsBmp = replicate (t.slotsSize / 64) 0 ∧
      t.fullSlotsBmp = replicate (bitsToLongs (t.slotsSize / 64)) 0 := by
  simp only [slotTableInit] at h
  split at h
  · cases h
  rename_i fits
  cases h
  have aligned : divRoundUp size baseObjectNum * baseObjectNum % 2 ^ 32 % 64 = 0 := by
    simp only [baseObjectNum, bitsPerLong]
    omega
  refine ⟨aligned, Nat.le_of_not_lt fits, rfl, ?_, ?_⟩
  · simp only [bitsToLongs_of_aligned _ aligned]
  · simp only [bitsToLongs_of_aligned _ aligned]

theorem slotTableInit_ok (size : Nat) (t : SlotTable) (h : slotTableInit size = some t) :
    TableOk t := by
  obtain ⟨aligned, bounded, slots, bmp, full⟩ := slotTableInit_eq h
  refine ⟨⟨aligned, bounded, by simp [slots], by simp [bmp], by simp [full], ?_⟩, ?_⟩
  · intro w _
    rw [full, bitAt_replicate_zero]
  · intro i _
    rw [bmp, slots, bitAt_replicate_zero, ← nil_append (replicate _ none),
      getD_append_replicate]
    rfl

/-- Behind the table no bit is set and no slot installed. -/
theorem TableOk.bits_all {t : SlotTable} (ok : TableOk t) (i : Nat) :
    bitAt t.slotsBmp i = (t.slots.getD i none).isSome := by
  by_cases old : i < t.slotsSize
  · exact ok.bits i old
  · rw [bitAt_of_length_le (by rw [ok.bmp_length]; have := ok.aligned; omega),
      getD_eq_getElem?_getD, getElem?_eq_none (by rw [ok.slots_length]; omega)]
    rfl

/-! ## Growing the table -/

structure Expanded (t new : SlotTable) : Prop where
  size : new.slotsSize = t.slotsSize + 64
  slots : new.slots = t.slots ++ replicate 64 none
  bits : ∀ i, bitAt new.slotsBmp i = bitAt t.slotsBmp i
  fullBits : ∀ w, bitAt new.fullSlotsBmp w = bitAt t.fullSlotsBmp w
  ok : TableOk new

theorem copyInto_replicate {src : List α} (a : α) {n : Nat} (extra : Nat) (h : src.length = n) :
    copyInto (replicate (n + extra) a) src n = ⟨src ++ replicate extra a, true⟩ := by
  simp [copyInto, take_of_length_le, h]

theorem expandSlotTable_spec {t : SlotTable} (ok : TableOk t) : (expandSlotTable t).inb = true ∧
      ∀ new, (expandSlotTable t).val = some new → Expanded t new := by
  have aligned := ok.aligned
  have bounded := ok.bounded
  have maxEq : kmallocMax = 33554432 := by decide
  have size : (t.slotsSize + baseObjectNum) % 2 ^ 32 = t.slotsSize + 64 := by
    simp only [baseObjectNum, bitsPerLong]
    omega
  have rounded : divRoundUp (t.slotsSize + 64) baseObjectNum * baseObjectNum % 2 ^ 32 =
      t.slotsSize + 64 := by
    simp only [divRoundUp, baseObjectNum, bitsPerLong]
    omega
  by_cases big : kmallocMax < (t.slotsSize + 64) * 8
  · have init : slotTableInit (t.slotsSize + 64) = none := by
      simp only [slotTableInit, rounded, if_pos big]
    simp only [expandSlotTable, size, init]
    exact ⟨rfl, fun new h => by cases h⟩
  have words : bitsToLongs (t.slotsSize + 64) = t.slotsSize / 64 + 1 := by
    rw [bitsToLongs_of_aligned _ (by omega)]
    omega
  obtain ⟨extra, more⟩ : ∃ extra, bitsToLongs (t.slotsSize / 64 + 1) =
      bitsToLongs (t.slotsSize / 64) + extra := by
    refine ⟨bitsToLongs (t.slotsSize / 64 + 1) - bitsToLongs (t.slotsSize / 64), ?_⟩
    simp only [bitsToLongs, divRoundUp, bitsPerLong]
    omega
  have init : slotTableInit (t.slotsSize + 64) = some
      { slotsSize := t.slotsSize + 64
        slots := replicate (t.slotsSize + 64) none
        slotsBmp := replicate (t.slotsSize / 64 + 1) 0
        fullSlotsBmp := replicate (bitsToLongs (t.slotsSize / 64) + extra) 0 } := by
    simp only [slotTableInit, rounded, if_neg big, words, more]
  have result : expandSlotTable t = ⟨some
      { slotsSize := t.slotsSize + 64
        slots := t.slots ++ replicate 64 none
        slotsBmp := t.slotsBmp ++ replicate 1 0
        fullSlotsBmp := t.fullSlotsBmp ++ replicate extra 0 }, true⟩ := by
    simp only [expandSlotTable, size, init, bitsToLongs_of_aligned _ aligned,
      copyInto_replicate _ _ ok.slots_length, copyInto_replicate _ _ ok.bmp_length,
      copyInto_replicate _ _ ok.full_length]
    rfl
  rw [result]
  refine ⟨rfl, fun new h => ?_⟩
  cases h
  have bits : ∀ i, bitAt (t.slotsBmp ++ replicate 1 0) i = bitAt t.slotsBmp i :=
    bitAt_append_zeros t.slotsBmp 1
  refine ⟨rfl, rfl, bits, bitAt_append_zeros t.fullSlotsBmp extra, ?_⟩
  refine ⟨⟨by simp only; omega, by simp only; omega, by simp [ok.slots_length],
    by simp only [length_append, length_replicate, ok.bmp_length]; omega,
    ?_, ?_⟩, ?_⟩
  · have div : (t.slotsSize + 64) / 64 = t.slotsSize / 64 + 1 := by omega
    simp only [length_append, length_replicate, ok.full_length, div, more]
  · intro w past
    rw [bitAt_append_zeros]
    exact ok.fullBits w (by simp only at past; omega)
  · intro i inside
    rw [bits, getD_append_replicate]
    exact ok.bits_all i

/-! ## Allocating an id -/

/-- After a successful `alloc_slot_id`: the bit of `id` was clear and is set, and the table may have
grown.  The slot is not installed yet. -/
structure Allocated (t new : SlotTable) (id : Nat) : Prop where
  shape : TableShape new
  grown : t.slotsSize ≤ new.slotsSize
  inside : id < new.slotsSize
  slots : new.slots = t.slots ++ replicate (new.slotsSize - t.slotsSize) none
  free : bitAt t.slotsBmp id = false
  bits : ∀ i, bitAt new.slotsBmp i = (decide (i = id) || bitAt t.slotsBmp i)

theorem searchFree_spec (env : Env) (t : SlotTable) (shape : TableShape t) :
    (searchFree env t).inb = true ∧
      match (searchFree env t).val with
      | some id => id < t.slotsSize ∧ bitAt t.slotsBmp id = false ∧
          ∃ word, (∀ w, w < word → bitAt t.fullSlotsBmp w = true) ∧
            ∀ i, word * 64 ≤ i → i < id → bitAt t.slotsBmp i = true
      | none => ∀ w, w < t.slotsSize / 64 →
          bitAt t.fullSlotsBmp w = true ∨ ∀ i, w * 64 ≤ i → i < t.slotsSize →
            bitAt t.slotsBmp i = true := by
  have aligned := shape.aligned
  have fullFits : bitsToLongs t.slotsSize ≤ t.fullSlotsBmp.length * 64 := by
    rw [shape.full_length, bitsToLongs_of_aligned _ aligned]
    exact le_bitsToLongs_mul _
  obtain ⟨fullIn, first⟩ := findNextBitWith_spec env.behindFull t.fullSlotsBmp
    (bitsToLongs t.slotsSize) 0 allOnesWord fullFits (Nat.zero_le _)
  simp only [searchFree, findNextZeroBit, bind_inb, bind_val, fullIn, Bool.true_and]
  generalize (findNextBitWith env.behindFull t.fullSlotsBmp (bitsToLongs t.slotsSize) 0
    allOnesWord).val = word at first ⊢
  have skipped : ∀ w, w < word → bitAt t.fullSlotsBmp w = true := by
    intro w below
    have stop := first.before w (Nat.zero_le _) below
    rw [stopsAt_allOnes] at stop
    simpa using stop
  rw [bitsToLongs_of_aligned _ aligned] at first ⊢
  by_cases past : t.slotsSize / 64 ≤ word
  · rw [if_pos past]
    refine ⟨rfl, ?_⟩
    intro w below
    exact Or.inl (skipped w (by omega))
  rw [if_neg past]
  have bmpFits : t.slotsSize ≤ t.slotsBmp.length * 64 := by
    rw [shape.bmp_length]
    omega
  obtain ⟨bmpIn, second⟩ := findNextBitWith_spec env.behindBmp t.slotsBmp t.slotsSize
    (word * bitsPerLong) allOnesWord bmpFits (by simp only [bitsPerLong]; omega)
  simp only [bind_inb, bind_val, bmpIn, Bool.true_and]
  generalize (findNextBitWith env.behindBmp t.slotsBmp t.slotsSize (word * bitsPerLong)
    allOnesWord).val = id at second ⊢
  have used : ∀ i, word * 64 ≤ i → i < id → bitAt t.slotsBmp i = true := by
    intro i ge below
    have stop := second.before i ge below
    rw [stopsAt_allOnes] at stop
    simpa using stop
  by_cases none : t.slotsSize ≤ id
  · rw [if_pos none]
    refine ⟨rfl, ?_⟩
    intro w below
    by_cases before : w < word
    · exact Or.inl (skipped w before)
    · right
      intro i ge inside
      exact used i (by omega) (by omega)
  · rw [if_neg none]
    refine ⟨rfl, by omega, ?_, word, skipped, used⟩
    have stop := second.stops (by omega)
    rw [stopsAt_allOnes] at stop
    simpa using stop

theorem takeSlotId_spec (env : Env) {t : SlotTable} (shape : TableShape t) {id : Nat}
    (inside : id < t.slotsSize) (free : bitAt t.slotsBmp id = false) :
    Allocated t (takeSlotId env t id).val id ∧
      ((takeSlotId env t id).inb = true ↔ id / 64 < t.fullSlotsBmp.length) := by
  have aligned := shape.aligned
  have word := shape.word_lt inside
  have wordFull : id / 64 < t.slotsSize / 64 := by omega
  by_cases full : (readAt env.behindFull t.fullSlotsBmp (id / bitsPerLong)).val = allOnesWord
  · simp only [takeSlotId, bind_val, bind_inb, full, if_true, pure_val, pure_inb]
    constructor
    · refine ⟨⟨aligned, shape.bounded, shape.slots_length, by simp [shape.bmp_length],
        by simp [shape.full_length], ?_⟩, le_refl _, inside, by simp, free,
        fun i => bitAt_setBit i word⟩
      intro w (past : t.slotsSize / 64 ≤ w)
      rw [bitAt_setBit _ (shape.fullWord_lt inside), shape.fullBits w past]
      have ne : w ≠ id / bitsPerLong := by simp only [bitsPerLong]; omega
      simp [ne]
    · simp only [setBit_inb, word, readAt_inb, decide_true, Bool.true_and, Bool.and_true,
        Bool.and_eq_true, decide_eq_true_eq]
      simp only [bitsPerLong]
      omega
  · simp only [takeSlotId, bind_val, bind_inb, if_neg full, pure_val, pure_inb]
    constructor
    · exact ⟨⟨aligned, shape.bounded, shape.slots_length, by simp [shape.bmp_length],
        shape.full_length, shape.fullBits⟩, le_refl _, inside, by simp, free,
        fun i => bitAt_setBit i word⟩
    · simp only [setBit_inb, word, readAt_inb, decide_true, Bool.true_and, Bool.and_true,
        decide_eq_true_eq]
      rfl

/-- The kernel stopped in `kmalloc`, the error with the table unchanged, or an allocated id. -/
inductive AllocOutcome (env : Env) (t : SlotTable) : Option (SlotTable × Int) → Prop where
  | halted : AllocOutcome env t none
  | noMem : env.expandOk = false → (searchFree env t).val = none →
      AllocOutcome env t (some (t, -eNOMEM))
  | done (new : SlotTable) (id : Nat) : Allocated t new id →
      AllocOutcome env t (some (new, (id : Int)))

variable {env : Env}

theorem allocLoop_take {t : SlotTable} (fuel : Nat) {id : Nat}
    (found : (searchFree env t).val = some id) :
    (allocSlotIdLoop env (fuel + 1) t).val = some ((takeSlotId env t id).val, (id : Int)) ∧
      (allocSlotIdLoop env (fuel + 1) t).inb =
        ((searchFree env t).inb && (takeSlotId env t id).inb) := by
  rw [allocSlotIdLoop]
  simp only [bind_val, bind_inb, found, pure_val, pure_inb, Bool.and_true]
  exact ⟨trivial, trivial⟩

/-- After one expansion the search succeeds: the new word is empty. -/
theorem searchFree_of_expanded (env : Env) (t new : SlotTable) (shape : TableShape t)
    (grow : Expanded t new) : ∃ id, (searchFree env new).val = some id := by
  obtain ⟨_, spec⟩ := searchFree_spec env new grow.ok.toTableShape
  have size := grow.size
  cases result : (searchFree env new).val with
  | some id => exact ⟨id, rfl⟩
  | none =>
    rw [result] at spec
    rcases spec (t.slotsSize / 64) (by omega) with full | used
    · rw [grow.fullBits, shape.fullBits _ (le_refl _)] at full
      cases full
    · have bit := used t.slotsSize (by omega) (by omega)
      rw [grow.bits, bitAt_of_length_le (by rw [shape.bmp_length]; omega)] at bit
      cases bit

theorem allocSlotId_found {t : SlotTable} (shape : TableShape t) {id : Nat}
    (found : (searchFree env t).val = some id) :
    (allocSlotId env t).val = some ((takeSlotId env t id).val, (id : Int)) ∧
      Allocated t (takeSlotId env t id).val id ∧
      ((allocSlotId env t).inb = true ↔ id / 64 < t.fullSlotsBmp.length) := by
  obtain ⟨searchIn, spec⟩ := searchFree_spec env t shape
  rw [found] at spec
  obtain ⟨alloc, bound⟩ := takeSlotId_spec env shape spec.1 spec.2.1
  obtain ⟨val, inb⟩ := allocLoop_take (2 ^ 16 + 1) found
  refine ⟨val, alloc, ?_⟩
  rw [allocSlotId, inb, searchIn, Bool.true_and]
  exact bound

theorem allocSlotId_grown {t new : SlotTable} (ok : TableOk t)
    (full : (searchFree env t).val = none) (memory : env.expandOk = true)
    (grow : (expandSlotTable t).val = some new) :
    Expanded t new ∧ ∃ id, (searchFree env new).val = some id ∧
      (allocSlotId env t).val = some ((takeSlotId env new id).val, (id : Int)) ∧
      Allocated t (takeSlotId env new id).val id ∧
      ((allocSlotId env t).inb = true ↔ id / 64 < new.fullSlotsBmp.length) := by
  obtain ⟨searchIn, _⟩ := searchFree_spec env t ok.toTableShape
  obtain ⟨expandIn, expand⟩ := expandSlotTable_spec ok
  have grown := expand new grow
  obtain ⟨id, found⟩ := searchFree_of_expanded env t new ok.toTableShape grown
  obtain ⟨newIn, spec⟩ := searchFree_spec env new grown.ok.toTableShape
  rw [found] at spec
  obtain ⟨alloc, bound⟩ := takeSlotId_spec env grown.ok.toTableShape spec.1 spec.2.1
  obtain ⟨val, inb⟩ := allocLoop_take (2 ^ 16) found
  have size := grown.size
  refine ⟨grown, id, found, ?_, ?_, ?_⟩
  · rw [allocSlotId, allocSlotIdLoop]
    simp only [bind_val, full, memory, if_true, grow]
    exact val
  · refine ⟨alloc.shape, by have := alloc.grown; omega, alloc.inside, ?_, ?_, ?_⟩
    · have later := alloc.grown
      have split : (takeSlotId env new id).val.slotsSize - t.slotsSize =
          64 + ((takeSlotId env new id).val.slotsSize - new.slotsSize) := by omega
      rw [alloc.slots, grown.slots, append_assoc, replicate_append_replicate, split]
    · rw [← grown.bits]
      exact alloc.free
    · intro i
      rw [alloc.bits, grown.bits]
  · rw [allocSlotId, allocSlotIdLoop]
    simp only [bind_inb, searchIn, Bool.true_and, full, memory, if_true, expandIn, grow]
    rw [inb, newIn, Bool.true_and]
    exact bound

theorem allocSlotId_outcome (env : Env) {t : SlotTable} (ok : TableOk t) :
    AllocOutcome env t (allocSlotId env t).val := by
  cases search : (searchFree env t).val with
  | some id =>
    obtain ⟨val, alloc, _⟩ := allocSlotId_found ok.toTableShape search
    rw [val]
    exact .done _ id alloc
  | none =>
    by_cases memory : env.expandOk = true
    · cases grow : (expandSlotTable t).val with
      | none =>
        have val : (allocSlotId env t).val = none := by
          rw [allocSlotId, allocSlotIdLoop]
          simp only [bind_val, search, memory, if_true, grow, pure_val]
        rw [val]
        exact .halted
      | some new =>
        obtain ⟨_, id, _, val, alloc, _⟩ := allocSlotId_grown ok search memory grow
        rw [val]
        exact .done _ id alloc
    · have val : (allocSlotId env t).val = some (t, -eNOMEM) := by
        rw [allocSlotId, allocSlotIdLoop]
        simp only [bind_val, search, if_neg memory, pure_val]
      rw [val]
      exact .noMem (by simpa using memory) search

/-! ## Installing and freeing a slot -/

def SlotTable.at (t : SlotTable) (i : Nat) : Option Nat := t.slots.getD i none

theorem getSlot_eq (t : SlotTable) (slotId : Int) :
    getSlot t slotId = none ∨ ∃ i : Nat, slotId = (i : Int) ∧ i < t.slotsSize ∧
      getSlot t slotId = t.at i := by
  by_cases outside : slotId < 0 ∨ (t.slotsSize : Int) ≤ slotId
  · exact Or.inl (if_pos outside)
  · right
    refine ⟨slotId.toNat, by omega, by omega, ?_⟩
    rw [getSlot, if_neg outside]
    rfl

theorem toU32_natCast (h : i < 2 ^ 32) : toU32 (i : Int) = i := by
  simp only [toU32]
  omega

theorem size_lt (t : SlotTable) (shape : TableShape t) : t.slotsSize < 2 ^ 32 := by
  have bounded := shape.bounded
  have maxEq : kmallocMax = 33554432 := by decide
  omega

theorem at_set {t : SlotTable} {id : Nat} (i : Nat) (v : Option Nat) (inside : id < t.slots.length) :
    ({ t with slots := t.slots.set id v } : SlotTable).at i = if i = id then v else t.at i := by
  simp only [SlotTable.at, getD_eq_getElem?_getD]
  by_cases same : i = id
  · subst same
    simp [inside]
  · simp [getElem?_set_ne (Ne.symm same), same]

section
variable {t new : SlotTable} {id : Nat} (alloc : Allocated t new id)
include alloc

theorem Allocated.at_eq (i : Nat) : new.at i = t.at i := by
  rw [SlotTable.at, alloc.slots, getD_append_replicate, SlotTable.at]

theorem Allocated.at_free (ok : TableOk t) : t.at id = none := by
  have bit : bitAt t.slotsBmp id = (t.at id).isSome := ok.bits_all id
  rw [alloc.free] at bit
  simpa using bit.symm

theorem Allocated.bits_new (ok : TableOk t) (ne : i ≠ id) :
    bitAt new.slotsBmp i = (new.at i).isSome := by
  rw [alloc.bits, alloc.at_eq]
  simp only [ne, decide_false, Bool.false_or]
  exact ok.bits_all i

end

theorem installSlot_allocated (env : Env) {t new : SlotTable} {id : Nat} (slot : Nat)
    (alloc : Allocated t new id) (ok : TableOk t) :
    ∃ final, installSlot env new (id : Int) slot = ⟨some final, true⟩ ∧ TableOk final ∧
      final.slotsSize = new.slotsSize ∧ final.slotsBmp = new.slotsBmp ∧
      final.fullSlotsBmp = new.fullSlotsBmp ∧
      ∀ i, final.at i = if i = id then some slot else t.at i := by
  have inside := alloc.inside
  have aligned := alloc.shape.aligned
  have idIn : id < new.slots.length := by rw [alloc.shape.slots_length]; exact inside
  have u32 : toU32 (id : Int) = id :=
    toU32_natCast (lt_trans inside (size_lt new alloc.shape))
  have word := alloc.shape.word_lt inside
  have bit : (getBit env.behindBmp id new.slotsBmp).val = true := by
    rw [getBit_val _ word, alloc.bits]
    simp
  have bitIn : (getBit env.behindBmp id new.slotsBmp).inb = true := by
    rw [getBit_inb]
    simpa using word
  have notNeg : ¬ ((id : Int) < 0) := by omega
  refine ⟨{ new with slots := new.slots.set id (some slot) }, ?_, ?_, rfl, rfl, rfl, ?_⟩
  · have val : (installSlot env new (id : Int) slot).val =
        some { new with slots := new.slots.set id (some slot) } := by
      simp [installSlot, u32, bit, notNeg]
    have inb : (installSlot env new (id : Int) slot).inb = true := by
      simp [installSlot, u32, bit, bitIn, notNeg, idIn]
    cases result : installSlot env new (id : Int) slot with
    | mk v b =>
      rw [result] at val inb
      simp only at val inb
      rw [val, inb]
  · refine ⟨⟨aligned, alloc.shape.bounded, by simpa using alloc.shape.slots_length,
      alloc.shape.bmp_length, alloc.shape.full_length, alloc.shape.fullBits⟩, ?_⟩
    intro i _
    have view := at_set i (some slot) idIn
    rw [SlotTable.at] at view
    rw [view]
    by_cases same : i = id
    · subst same
      simp [alloc.bits]
    · rw [if_neg same]
      exact alloc.bits_new ok same
  · intro i
    rw [at_set i (some slot) idIn, alloc.at_eq]

section
variable {t : SlotTable} (shape : TableShape t) {id : Nat} (inside : id < t.slotsSize)
include shape inside

theorem freeSlotId_shape : (freeSlotId t id).inb = true ∧ TableShape (freeSlotId t id).val ∧
      (freeSlotId t id).val.slotsSize = t.slotsSize ∧
      (∀ i, bitAt (freeSlotId t id).val.slotsBmp i = (!decide (i = id) && bitAt t.slotsBmp i)) ∧
      (∀ w, bitAt (freeSlotId t id).val.fullSlotsBmp w =
        (!decide (w = id / 64) && bitAt t.fullSlotsBmp w)) ∧
      ∀ i, (freeSlotId t id).val.at i = if i = id then none else t.at i := by
  have word := shape.word_lt inside
  have idIn : id < t.slots.length := by rw [shape.slots_length]; exact inside
  have wordFull := shape.fullWord_lt inside
  refine ⟨?_, ⟨shape.aligned, shape.bounded, ?_, ?_, ?_, ?_⟩, rfl, ?_, ?_, ?_⟩
  · simp [freeSlotId, word, wordFull, idIn]
  · simpa [freeSlotId] using shape.slots_length
  · simpa [freeSlotId] using shape.bmp_length
  · simpa [freeSlotId] using shape.full_length
  · intro w past
    simp only [freeSlotId, bind_val, pure_val]
    rw [bitAt_clearBit _ wordFull, shape.fullBits w past, Bool.and_false]
  · exact fun i => bitAt_clearBit i word
  · exact fun w => bitAt_clearBit w wordFull
  · intro i
    simp only [freeSlotId, bind_val, pure_val, writeAt_val]
    exact at_set i none idIn

/-- The bits of the other ids are all that a freed table needs. -/
theorem TableShape.freed (others : ∀ i, i ≠ id → bitAt t.slotsBmp i = (t.at i).isSome) :
    TableOk (freeSlotId t id).val := by
  obtain ⟨_, shape', _, bits, _, view⟩ := freeSlotId_shape shape inside
  refine ⟨shape', ?_⟩
  intro i _
  have slot := view i
  rw [SlotTable.at] at slot
  rw [bits, slot]
  by_cases same : i = id
  · simp [same]
  · simp only [same, decide_false, Bool.not_false, Bool.true_and, if_false]
    exact others i same

end

theorem freeSlotId_ok {t : SlotTable} (ok : TableOk t) {id : Nat} (inside : id < t.slotsSize) :
    TableOk (freeSlotId t id).val :=
  ok.toTableShape.freed inside fun i _ => ok.bits_all i

/-- Giving an id back before a slot was installed there. -/
theorem freeSlotId_allocated {t new : SlotTable} {id : Nat} (alloc : Allocated t new id)
    (ok : TableOk t) :
    TableOk (freeSlotId new id).val ∧ ∀ i, (freeSlotId new id).val.at i = t.at i := by
  obtain ⟨_, _, _, _, _, view⟩ := freeSlotId_shape alloc.shape alloc.inside
  refine ⟨alloc.shape.freed alloc.inside fun i => alloc.bits_new ok, ?_⟩
  intro i
  rw [view, alloc.at_eq]
  by_cases eq : i = id
  · rw [if_pos eq, eq, alloc.at_free ok]
  · rw [if_neg eq]

end KernelLabs.ChCore
