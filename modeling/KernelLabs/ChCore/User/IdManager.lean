import KernelLabs.ChCore.Object.SlotTable
import KernelLabs.Lib.Runs
import Mathlib.Data.Finset.Basic

/-!
# The id manager

Model of the user-space `idman.h`: a bitmap of 64-bit slots that is searched from the slot of the
last id on.  With `max_id` at most 2^31 - 64 no `int` overflows.  A manager to which no id is
returned gives out the ids in order.
-/

set_option autoImplicit false

namespace KernelLabs.ChCore

open Lib List

def bitsPerU64 : Nat := 64

structure IdManager where
  maxId : Nat
  currSlot : Nat
  bitmap : List Word
  nrSlots : Nat

def initIdManager (maxId : Nat) : IdManager :=
  ⟨maxId, 0, replicate (divRoundUp maxId bitsPerU64) 0, divRoundUp maxId bitsPerU64⟩

/-- `__find_first_zero`: 64 if every bit is set. -/
def findFirstZero (slot : Word) : Nat :=
  (range bitsPerU64).findIdx fun i => !slot.getLsbD i

/-- The loop of `alloc_id` with the tries left: the free id, if one was found, and the slot where
the search ended. -/
def allocIdLoop (idman : IdManager) : Nat → Nat → Option Nat × Nat
  | 0, currSlot => (none, currSlot)
  | tries + 1, currSlot =>
    let currSlot := if idman.nrSlots ≤ currSlot then 0 else currSlot
    let bit := findFirstZero (idman.bitmap.getD currSlot 0)
    if bit = bitsPerU64 then allocIdLoop idman tries (currSlot + 1)
    else
      let id := currSlot * bitsPerU64 + bit
      if idman.maxId ≤ id then allocIdLoop idman tries (currSlot + 1)
      else (some id, currSlot)

def allocId (idman : IdManager) : Int × IdManager :=
  match allocIdLoop idman (idman.nrSlots + 1) idman.currSlot with
  | (some id, currSlot) =>
    (id, { idman with currSlot := currSlot, bitmap := (setBit id idman.bitmap).val })
  | (none, currSlot) => (-eNOMEM, { idman with currSlot := currSlot })

def eNOENT : Int := 2

/-- `free_id`, and below `query_id`, for an id that passes the assertion. -/
def freeId (idman : IdManager) (id : Nat) : Int × IdManager :=
  if bitAt idman.bitmap id = false then (-eNOENT, idman)
  else (0, { idman with
    currSlot := id / bitsPerU64, bitmap := (clearBit id idman.bitmap).val })

def queryId (idman : IdManager) (id : Nat) : Int :=
  if bitAt idman.bitmap id = false then -eNOENT else 0

/-! ## The search -/

theorem findFirstZero_le (slot : Word) : findFirstZero slot ≤ 64 := by
  have bound : findFirstZero slot ≤ (range bitsPerU64).length := findIdx_le_length
  rwa [length_range] at bound

theorem findFirstZero_clear (slot : Word) (found : findFirstZero slot < 64) :
    slot.getLsbD (findFirstZero slot) = false := by
  have within : (range bitsPerU64).findIdx (fun i => !slot.getLsbD i) <
      (range bitsPerU64).length := by
    rw [length_range]
    exact found
  have hit := findIdx_getElem (w := within)
  simpa [findFirstZero] using hit

theorem findFirstZero_set {slot : Word} {i : Nat} (before : i < findFirstZero slot) :
    slot.getLsbD i = true := by
  have miss := not_of_lt_findIdx before
  simpa using miss

theorem getLsbD_slot (bitmap : List Word) (slot : Nat) {bit : Nat} (small : bit < 64) :
    (bitmap.getD slot 0).getLsbD bit = bitAt bitmap (slot * 64 + bit) := by
  have word : (slot * 64 + bit) / 64 = slot := by omega
  have place : (slot * 64 + bit) % 64 = bit := by omega
  rw [bitAt, bitsPerLong, word, place]

def IdManager.slot (idman : IdManager) (currSlot : Nat) : Nat :=
  if idman.nrSlots ≤ currSlot then 0 else currSlot

open IdManager

/-- A try ends the search with the first free id of the slot, or the slot has none. -/
theorem allocIdLoop_succ (idman : IdManager) (tries currSlot : Nat) :
    (∃ id, id / 64 = idman.slot currSlot ∧ id < idman.maxId ∧ bitAt idman.bitmap id = false ∧
      (∀ j, j < id → j / 64 = idman.slot currSlot → bitAt idman.bitmap j = true) ∧
      allocIdLoop idman (tries + 1) currSlot = (some id, id / 64)) ∨
    (∀ id, id < idman.maxId → id / 64 = idman.slot currSlot → bitAt idman.bitmap id = true) ∧
      allocIdLoop idman (tries + 1) currSlot =
        allocIdLoop idman tries (idman.slot currSlot + 1) := by
  rw [allocIdLoop, ← slot]
  generalize idman.slot currSlot = slot
  have bound := findFirstZero_le (idman.bitmap.getD slot 0)
  have clear := findFirstZero_clear (idman.bitmap.getD slot 0)
  have set : ∀ id, id < slot * 64 + findFirstZero (idman.bitmap.getD slot 0) → id / 64 = slot →
      bitAt idman.bitmap id = true := by
    rintro id before rfl
    have early : id % 64 < findFirstZero (idman.bitmap.getD (id / 64) 0) := by omega
    have hit := findFirstZero_set early
    rwa [getLsbD_slot _ _ (Nat.mod_lt _ (by decide)), Nat.div_add_mod'] at hit
  generalize findFirstZero (idman.bitmap.getD slot 0) = bit at bound clear set ⊢
  by_cases full : bit = bitsPerU64
  · rw [if_pos full]
    rw [bitsPerU64] at full
    exact .inr ⟨fun id _ here => set id (by omega) here, rfl⟩
  · rw [if_neg full]
    have small : bit < 64 := Nat.lt_of_le_of_ne bound full
    by_cases beyond : idman.maxId ≤ slot * bitsPerU64 + bit
    · rw [if_pos beyond]
      exact .inr ⟨fun id below here => set id (Nat.lt_of_lt_of_le below beyond) here, rfl⟩
    · rw [if_neg beyond]
      have free := clear small
      rw [getLsbD_slot _ _ small] at free
      have inSlot : (slot * bitsPerU64 + bit) / 64 = slot := by
        rw [bitsPerU64]
        omega
      exact .inl ⟨_, inSlot, Nat.not_le.mp beyond, free, set, by rw [inSlot]⟩

/-- The search gives the first free id from its slot on or one before that slot.  It fails only
if every id of the slots that it went through, at most once around, is in use. -/
theorem allocIdLoop_spec (idman : IdManager) (tries : Nat) : ∀ currSlot,
    (∃ id, allocIdLoop idman tries currSlot = (some id, id / 64) ∧ id < idman.maxId ∧
      bitAt idman.bitmap id = false ∧
      ∀ j, j < id → idman.slot currSlot ≤ j / 64 → bitAt idman.bitmap j = true) ∨
    (∃ slot, allocIdLoop idman tries currSlot = (none, slot)) ∧
      ∀ id, id < idman.maxId → id / 64 < idman.nrSlots →
        (idman.slot currSlot ≤ id / 64 ∧ id / 64 < idman.slot currSlot + tries ∨
          id / 64 + idman.nrSlots < idman.slot currSlot + tries) → bitAt idman.bitmap id = true := by
  induction tries with
  | zero =>
    refine fun currSlot => .inr ⟨⟨currSlot, rfl⟩, fun id _ inside reached => ?_⟩
    simp only [slot] at reached
    split at reached <;> omega
  | succ tries ih =>
    intro currSlot
    rcases allocIdLoop_succ idman tries currSlot with
      ⟨id, inSlot, below, clear, first, ends⟩ | ⟨all, goes⟩
    · refine .inl ⟨id, ends, below, clear, fun j before after => first j before ?_⟩
      omega
    rw [goes]
    refine (ih (idman.slot currSlot + 1)).imp ?_ ?_
    · rintro ⟨id, ends, below, clear, first⟩
      refine ⟨id, ends, below, clear, fun j before after => ?_⟩
      by_cases here : j / 64 = idman.slot currSlot
      · exact all j (Nat.lt_trans before below) here
      · refine first j before ?_
        rw [slot]
        split <;> omega
    · rintro ⟨search, used⟩
      refine ⟨search, fun id below inside reached => ?_⟩
      by_cases here : id / 64 = idman.slot currSlot
      · exact all id below here
      · refine used id below inside ?_
        simp only [slot] at *
        split_ifs at * <;> omega

structure Issued (idman : IdManager) (issued : Nat) : Prop where
  slots : idman.nrSlots = divRoundUp idman.maxId bitsPerU64
  length : idman.bitmap.length = idman.nrSlots
  bits : ∀ id, bitAt idman.bitmap id = decide (id < issued)
  bound : issued ≤ idman.maxId
  start : issued < idman.maxId → idman.currSlot ≤ issued / 64

theorem initIdManager_issued (maxId : Nat) : Issued (initIdManager maxId) 0 := by
  refine ⟨rfl, length_replicate, ?_, Nat.zero_le _, fun _ => Nat.zero_le _⟩
  intro id
  simp only [initIdManager, bitAt, getD_eq_getElem?_getD, getElem?_replicate]
  split <;> simp

variable {id : Nat}

section Issued
variable {idman : IdManager} {issued : Nat}

theorem Issued.slot_lt (state : Issued idman issued) (below : id < idman.maxId) :
    id / 64 < idman.nrSlots := by
  rw [state.slots, divRoundUp, bitsPerU64]
  omega

theorem allocId_next (state : Issued idman issued) (left : issued < idman.maxId) :
    (allocId idman).1 = issued ∧ Issued (allocId idman).2 (issued + 1) := by
  have room := state.slot_lt left
  have start : idman.slot idman.currSlot ≤ issued / 64 := by
    have hint := state.start left
    rw [slot]
    split <;> omega
  have found : allocIdLoop idman (idman.nrSlots + 1) idman.currSlot = (some issued, issued / 64) := by
    rcases allocIdLoop_spec idman (idman.nrSlots + 1) idman.currSlot with
      ⟨id, search, _, clear, first⟩ | ⟨_, used⟩
    · rw [state.bits, decide_eq_false_iff_not] at clear
      rcases Nat.lt_or_eq_of_le (Nat.le_of_not_lt clear) with before | rfl
      · exact absurd (first issued before start) (by simp [state.bits])
      · exact search
    · exact absurd (used issued left room (.inl ⟨start, by omega⟩)) (by simp [state.bits])
  have inside : issued / bitsPerLong < idman.bitmap.length := by
    rw [state.length]
    exact room
  rw [allocId, found]
  refine ⟨rfl, ⟨state.slots, ?_, ?_, left, ?_⟩⟩
  · rw [setBit_length]
    exact state.length
  · intro id
    rw [bitAt_setBit _ inside, state.bits]
    rw [← Bool.decide_or]
    exact decide_eq_decide.mpr (by omega)
  · intro _
    change issued / 64 ≤ (issued + 1) / 64
    omega

theorem allocId_none (state : Issued idman idman.maxId) :
    (allocId idman).1 = -eNOMEM ∧ Issued (allocId idman).2 idman.maxId := by
  rcases allocIdLoop_spec idman (idman.nrSlots + 1) idman.currSlot with
    ⟨id, _, below, clear, _⟩ | ⟨⟨slot, search⟩, _⟩
  · rw [state.bits, decide_eq_false_iff_not] at clear
    exact absurd below clear
  · rw [allocId, search]
    exact ⟨rfl, ⟨state.slots, state.length, state.bits, state.bound,
      fun more => absurd more (Nat.lt_irrefl _)⟩⟩

/-- Of the calls after `calls` others, those up to `max_id` get their number. -/
theorem allocId_issued {calls : Nat} (state : Issued idman (min calls idman.maxId)) :
    (allocId idman).1 = (if calls < idman.maxId then (calls : Int) else -eNOMEM) ∧
      Issued (allocId idman).2 (min (calls + 1) idman.maxId) := by
  by_cases left : calls < idman.maxId
  · rw [Nat.min_eq_left (Nat.le_of_lt left)] at state
    rw [if_pos left, Nat.min_eq_left left]
    exact allocId_next state left
  · have all : idman.maxId ≤ calls := Nat.le_of_not_lt left
    rw [Nat.min_eq_right all] at state
    rw [if_neg left, Nat.min_eq_right (Nat.le_succ_of_le all)]
    exact allocId_none state

theorem allocId_maxId (idman : IdManager) : (allocId idman).2.maxId = idman.maxId := by
  rw [allocId]
  split <;> rfl

end Issued

/-! ## Ids that are returned -/

inductive IdOp where
  | alloc
  | free (id : Nat)
  | query (id : Nat)

def IdOp.Asserted (maxId : Nat) : IdOp → Prop
  | .alloc => True
  | .free id | .query id => 0 < id ∧ id < maxId

def idStep (s : IdManager × Finset Nat) : IdOp → IdManager × Finset Nat
  | .alloc =>
    let (r, idman) := allocId s.1
    (idman, if 0 ≤ r then insert r.toNat s.2 else s.2)
  | .free id =>
    let (r, idman) := freeId s.1 id
    (idman, if r = 0 then s.2.erase id else s.2)
  | .query _ => s

structure Managed (maxId : Nat) (s : IdManager × Finset Nat) : Prop where
  max : s.1.maxId = maxId
  slots : s.1.nrSlots = divRoundUp maxId bitsPerU64
  length : s.1.bitmap.length = s.1.nrSlots
  bits : ∀ id, bitAt s.1.bitmap id = decide (id ∈ s.2)

section Managed
variable {idman : IdManager} {maxId : Nat} {s : IdManager × Finset Nat}

theorem Managed.word_lt (managed : Managed maxId s) (below : id < maxId) :
    id / bitsPerLong < s.1.bitmap.length := by
  rw [managed.length, managed.slots, divRoundUp, bitsPerU64, bitsPerLong]
  omega

/-- `alloc_id` gives out an id that is free, or there is none. -/
theorem Managed.alloc (managed : Managed maxId s) : Managed maxId (idStep s .alloc) ∧
    ((∃ id < maxId, id ∉ s.2 ∧ (allocId s.1).1 = id) ∨
      (∀ id < maxId, id ∈ s.2) ∧ (allocId s.1).1 = -eNOMEM) := by
  rw [idStep, allocId]
  rcases allocIdLoop_spec s.1 (s.1.nrSlots + 1) s.1.currSlot with
    ⟨id, search, below, clear, _⟩ | ⟨⟨slot, search⟩, used⟩
  · rw [managed.max] at below
    rw [managed.bits, decide_eq_false_iff_not] at clear
    simp only [search]
    refine ⟨⟨managed.max, managed.slots, (setBit_length _ _).trans managed.length, fun j => ?_⟩,
      .inl ⟨id, below, clear, rfl⟩⟩
    rw [bitAt_setBit j (managed.word_lt below), managed.bits, ← Bool.decide_or]
    simp
  · simp only [search]
    refine ⟨⟨managed.max, managed.slots, managed.length, managed.bits⟩,
      .inr ⟨fun id below => ?_, trivial⟩⟩
    have inside : id / 64 < s.1.nrSlots := managed.length ▸ managed.word_lt below
    have given := used id (managed.max ▸ below) inside (by rw [IdManager.slot]; split <;> omega)
    rwa [managed.bits, decide_eq_true_iff] at given

theorem Managed.free (managed : Managed maxId s) (below : id < maxId) :
    Managed maxId (idStep s (.free id)) := by
  rw [idStep, freeId, managed.bits]
  by_cases used : id ∈ s.2
  · simp only [used, decide_true, Bool.true_eq_false, if_false, if_true]
    refine ⟨managed.max, managed.slots, (clearBit_length _ _).trans managed.length, fun j => ?_⟩
    rw [bitAt_clearBit j (managed.word_lt below), managed.bits, ← decide_not, ← Bool.decide_and]
    simp
  · simpa [used, eNOENT] using managed

end Managed

/-- After any calls that pass the assertions, `alloc_id` returns an id that is not given out, or
-ENOMEM exactly if all are; `free_id` and `query_id` succeed exactly on the ids given out. -/
theorem idman_exact (maxId : Nat) (ops : List IdOp) (asserted : ∀ op ∈ ops, op.Asserted maxId) :
    let s := ops.foldl idStep (initIdManager maxId, ∅)
    ((∃ id < maxId, id ∉ s.2 ∧ (allocId s.1).1 = id) ∨
      (∀ id < maxId, id ∈ s.2) ∧ (allocId s.1).1 = -eNOMEM) ∧
    ∀ id, 0 < id → id < maxId →
      (freeId s.1 id).1 = (if id ∈ s.2 then 0 else -eNOENT) ∧
      queryId s.1 id = (if id ∈ s.2 then 0 else -eNOENT) := by
  intro s
  have managed : Managed maxId s := by
    refine run_invariant idStep (fun _ op => op.Asserted maxId) _ (fun s op ok asserted => ?_) ops
      _ ?_ (runMeets_of_mem asserted _)
    · cases op with
      | alloc => exact ok.alloc.1
      | free id => exact ok.free asserted.2
      | query id => exact ok
    · refine ⟨rfl, rfl, length_replicate, fun id => ?_⟩
      rw [(initIdManager_issued maxId).bits]
      simp
  refine ⟨managed.alloc.2, fun id _ _ => ?_⟩
  rw [freeId, queryId, managed.bits]
  by_cases used : id ∈ s.2 <;> simp [used]

def reused : IdManager × Finset Nat :=
  [IdOp.alloc, .alloc, .free 1].foldl idStep (initIdManager 2, ∅)

theorem idman_exact_reused : (allocId reused.1).1 = 1 ∧
    ((∃ id < 2, id ∉ reused.2 ∧ (allocId reused.1).1 = id) ∨
      (∀ id < 2, id ∈ reused.2) ∧ (allocId reused.1).1 = -eNOMEM) :=
  ⟨by decide, (idman_exact 2 _ (by simp [IdOp.Asserted])).1⟩

end KernelLabs.ChCore
