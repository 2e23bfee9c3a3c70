import KernelLabs.Lib.Access
import Mathlib.Algebra.Group.Nat.Defs
import Mathlib.Data.Nat.Basic
import Mathlib.Order.Basic

/-!
# Kernel bitmap operations

Model of `kernel/include/common/bitops.h`: single-bit updates, the search
`__find_next_bit` over an array of 64-bit words and the loop `for_each_set_bit`.  Indices and sizes are natural
numbers (the callers pass values below `2 ^ 31`); every word access goes through
`readAt` and `writeAt`, so a bitmap that is shorter than the caller believes is
visible in the result.
-/

set_option autoImplicit false

namespace KernelLabs.ChCore

open Lib List Acc BitVec

abbrev Word := BitVec 64

def bitsPerLong : Nat := 64

def divRoundUp (n d : Nat) : Nat := (n + d - 1) / d

def bitsToLongs (nr : Nat) : Nat := divRoundUp nr bitsPerLong

def allOnesWord : Word := BitVec.allOnes 64

def setBit (nr : Nat) (p : List Word) : Acc (List Word) :=
  writeAt p (nr / bitsPerLong) (p.getD (nr / bitsPerLong) 0 ||| 1#64 <<< (nr % bitsPerLong))

def clearBit (nr : Nat) (p : List Word) : Acc (List Word) :=
  writeAt p (nr / bitsPerLong) (p.getD (nr / bitsPerLong) 0 &&& ~~~(1#64 <<< (nr % bitsPerLong)))

def getBit (junk : Nat → Word) (nr : Nat) (p : List Word) : Acc Bool := do
  let w ← readAt junk p (nr / bitsPerLong)
  pure (w.getLsbD (nr % bitsPerLong))

/-- `ctzl`; the zero case returns `sizeof(x)` as the source does. -/
def ctzl (x : Word) : Nat :=
  if x = 0 then 8 else (range 64).findIdx fun i => x.getLsbD i

/-- The `while (!tmp)` loop of `__find_next_bit`; `start` is word aligned. -/
def findNextBitLoop (junk : Nat → Word) (p : List Word) (size : Nat) (invert : Word) :
    Nat → Nat → Word → Acc Nat
  | 0, _, _ => pure size
  | fuel + 1, start, tmp =>
    if tmp = 0 then
      if size ≤ start + bitsPerLong then pure size
      else do
        let w ← readAt junk p ((start + bitsPerLong) / bitsPerLong)
        findNextBitLoop junk p size invert fuel (start + bitsPerLong) (w ^^^ invert)
    else pure (min (start + ctzl tmp) size)

/-- `__find_next_bit`.  Each iteration moves one word on, so the number of words
up to `size` is enough fuel. -/
def findNextBitWith (junk : Nat → Word) (p : List Word) (size start : Nat) (invert : Word) :
    Acc Nat :=
  if size ≤ start then pure size
  else do
    let w ← readAt junk p (start / bitsPerLong)
    findNextBitLoop junk p size invert (size / bitsPerLong + 1) (start / bitsPerLong * bitsPerLong)
      ((w ^^^ invert) &&& ~~~((1#64 <<< (start % bitsPerLong)) - 1#64))

def findNextZeroBit (junk : Nat → Word) (p : List Word) (size start : Nat) : Acc Nat :=
  findNextBitWith junk p size start allOnesWord

def findNextBit (junk : Nat → Word) (p : List Word) (size start : Nat) : Acc Nat :=
  findNextBitWith junk p size start 0

/-! ## Bits of a bitmap -/

/-- Bit `i` of the bitmap `p`; bits behind the array count as clear. -/
def bitAt (p : List Word) (i : Nat) : Bool := (p.getD (i / bitsPerLong) 0).getLsbD (i % bitsPerLong)

theorem mod_bitsPerLong_lt (i : Nat) : i % bitsPerLong < 64 := Nat.mod_lt _ (by decide)

theorem getD_set {p : List Word} {k : Nat} (j : Nat) (v : Word) (h : k < p.length) :
    (p.set k v).getD j 0 = if j = k then v else p.getD j 0 := by
  by_cases same : j = k
  · subst same
    simp [getD_eq_getElem?_getD, h]
  · simp [getD_eq_getElem?_getD, getElem?_set_ne (Ne.symm same), same]

theorem oneBit {nr j : Nat} (word : j / bitsPerLong = nr / bitsPerLong) :
    (1#64 <<< (nr % bitsPerLong)).getLsbD (j % bitsPerLong) = decide (j = nr) := by
  have lt := mod_bitsPerLong_lt j
  have off : j % bitsPerLong = nr % bitsPerLong ↔ j = nr := by
    rw [bitsPerLong] at word ⊢
    omega
  simp only [getLsbD_shiftLeft, getLsbD_one, ← off]
  rw [Bool.eq_iff_iff]
  simp only [Bool.and_eq_true, Bool.not_eq_true', decide_eq_true_eq, decide_eq_false_iff_not]
  omega

section
variable {p : List Word} {nr : Nat} (j : Nat) (h : nr / bitsPerLong < p.length)
include h

theorem bitAt_setBit : bitAt (setBit nr p).val j = (decide (j = nr) || bitAt p j) := by
  simp only [setBit, writeAt_val, bitAt, getD_set _ _ h]
  by_cases word : j / bitsPerLong = nr / bitsPerLong
  · rw [if_pos word, getLsbD_or, oneBit word, word, Bool.or_comm]
  · have other : j ≠ nr := fun same => word (by rw [same])
    simp [if_neg word, other]

theorem bitAt_clearBit : bitAt (clearBit nr p).val j = (!decide (j = nr) && bitAt p j) := by
  simp only [clearBit, writeAt_val, bitAt, getD_set _ _ h]
  by_cases word : j / bitsPerLong = nr / bitsPerLong
  · rw [if_pos word, getLsbD_and, getLsbD_not, oneBit word, word, Bool.and_comm]
    simp [mod_bitsPerLong_lt j]
  · have other : j ≠ nr := fun same => word (by rw [same])
    simp [if_neg word, other]

end

section
variable (nr : Nat) (p : List Word)
include nr p

@[simp] theorem setBit_length : (setBit nr p).val.length = p.length := by
  simp [setBit]

@[simp] theorem clearBit_length :
    (clearBit nr p).val.length = p.length := by
  simp [clearBit]

@[simp] theorem setBit_inb :
    (setBit nr p).inb = decide (nr / bitsPerLong < p.length) := rfl

@[simp] theorem clearBit_inb :
    (clearBit nr p).inb = decide (nr / bitsPerLong < p.length) := rfl

end

variable (junk : Nat → Word)

theorem getBit_val {nr : Nat} {p : List Word} (h : nr / bitsPerLong < p.length) :
    (getBit junk nr p).val = bitAt p nr := by
  simp [getBit, bitAt, readAt_val_of_lt junk p _ 0 h]

theorem getBit_inb (nr : Nat) (p : List Word) :
    (getBit junk nr p).inb = decide (nr / bitsPerLong < p.length) := by
  simp [getBit]

/-! ## The search -/

theorem ctzl_spec {x : Word} (h : x ≠ 0) :
    ctzl x < 64 ∧ x.getLsbD (ctzl x) = true ∧ ∀ j < ctzl x, x.getLsbD j = false := by
  have found : ∃ i ∈ range 64, x.getLsbD i = true := by
    by_contra none
    apply h
    apply eq_of_getLsbD_eq
    intro i lt
    cases bit : x.getLsbD i with
    | false => simp
    | true => exact absurd ⟨i, mem_range.mpr lt, bit⟩ none
  have lt : (range 64).findIdx (fun i => x.getLsbD i) < (range 64).length :=
    findIdx_lt_length.mpr found
  have hit := findIdx_getElem (w := lt)
  simp only [getElem_range] at hit
  simp only [ctzl, if_neg h]
  refine ⟨by simpa using lt, hit, ?_⟩
  intro j before
  have miss := not_of_lt_findIdx before
  simpa using miss

def stopsAt (p : List Word) (invert : Word) (i : Nat) : Bool :=
  ((p.getD (i / bitsPerLong) 0) ^^^ invert).getLsbD (i % bitsPerLong)

/-- `r` is the least index of `[start, size)` at which the search stops, or `size`. -/
structure FirstStop (p : List Word) (invert : Word) (size start r : Nat) : Prop where
  le_size : r ≤ size
  ge_start : start ≤ r
  stops : r < size → stopsAt p invert r = true
  before : ∀ i, start ≤ i → i < r → stopsAt p invert i = false

theorem findNextBitLoop_spec {p : List Word} {size : Nat} (invert : Word)
    (fits : size ≤ p.length * 64) (first : Nat) :
    ∀ (fuel start : Nat) (tmp : Word), start % 64 = 0 → start < size → first < start + 64 →
      size < start + fuel * 64 → first ≤ size →
      (∀ i, first ≤ i → i < start → stopsAt p invert i = false) →
      (∀ j, j < 64 → tmp.getLsbD j = (decide (first ≤ start + j) && stopsAt p invert (start + j))) →
      (findNextBitLoop junk p size invert fuel start tmp).inb = true ∧
        FirstStop p invert size first (findNextBitLoop junk p size invert fuel start tmp).val := by
  intro fuel
  induction fuel with
  | zero => intro start tmp _ lt _ enough; omega
  | succ fuel ih =>
    intro start tmp aligned lt near enough firstLe before word
    rw [findNextBitLoop]
    by_cases zero : tmp = 0
    · -- the word holds no stop: `[first, start + 64)` is exhausted
      have beforeNext : ∀ i, first ≤ i → i < start + 64 → stopsAt p invert i = false := by
        intro i ge below
        by_cases old : i < start
        · exact before i ge old
        · have bit := word (i - start) (by omega)
          rw [zero] at bit
          have index : start + (i - start) = i := by omega
          rw [index] at bit
          simpa [ge] using bit.symm
      rw [if_pos zero]
      by_cases last : size ≤ start + bitsPerLong
      · rw [if_pos last]
        refine ⟨rfl, ⟨le_refl _, firstLe, fun h => absurd h (lt_irrefl _), ?_⟩⟩
        intro i ge below
        exact beforeNext i ge (lt_of_lt_of_le below last)
      rw [if_neg last]
      simp only [bitsPerLong] at last ⊢
      have inside : (start + 64) / 64 < p.length := by omega
      have next := ih (start + 64) ((readAt junk p ((start + 64) / 64)).val ^^^ invert)
        (by omega) (by omega) (by omega) (by omega) firstLe beforeNext (by
          intro j small
          have ge : first ≤ start + 64 + j := by omega
          have sameWord : (start + 64 + j) / 64 = (start + 64) / 64 := by omega
          have sameBit : (start + 64 + j) % 64 = j := by omega
          rw [readAt_val_of_lt junk p _ 0 inside, stopsAt, bitsPerLong, sameWord, sameBit]
          simp [ge])
      refine ⟨?_, next.2⟩
      simp only [bind_inb, readAt_inb, inside, decide_true, Bool.true_and]
      exact next.1
    · rw [if_neg zero]
      obtain ⟨small, hit, least⟩ := ctzl_spec zero
      have bit := word (ctzl tmp) small
      rw [hit] at bit
      simp only [Bool.true_eq, Bool.and_eq_true, decide_eq_true_eq] at bit
      have beforeHit : ∀ i, first ≤ i → i < start + ctzl tmp → stopsAt p invert i = false := by
        intro i ge below
        by_cases old : i < start
        · exact before i ge old
        · have miss := least (i - start) (by omega)
          rw [word (i - start) (by omega)] at miss
          have index : start + (i - start) = i := by omega
          rw [index] at miss
          simpa [ge] using miss
      refine ⟨rfl, ⟨Nat.min_le_right _ _, by simp only [pure_val]; omega, ?_, ?_⟩⟩
      · intro below
        have exact' : min (start + ctzl tmp) size = start + ctzl tmp := by
          simp only [pure_val] at below; omega
        simp only [pure_val, exact', bit.2]
      · intro i ge below
        exact beforeHit i ge (by simp only [pure_val] at below; omega)

theorem mask_getLsbD {k j : Nat} (hk : k < 64) (hj : j < 64) :
    (~~~((1#64 <<< k) - 1#64)).getLsbD j = decide (k ≤ j) := by
  have ones : (1#64 <<< k) - 1#64 = BitVec.ofNat 64 (2 ^ k - 1) := by
    apply BitVec.eq_of_toNat_eq
    have pos : 0 < 2 ^ k := Nat.two_pow_pos k
    have small : 2 ^ k < 2 ^ 64 := Nat.pow_lt_pow_right (by decide) hk
    simp only [toNat_sub, toNat_shiftLeft, toNat_ofNat, Nat.shiftLeft_eq]
    omega
  rw [ones, getLsbD_not]
  simp only [hj, decide_true, Bool.true_and, BitVec.getLsbD_ofNat, Nat.testBit_two_pow_sub_one]
  by_cases le : k ≤ j
  · simp [le]
  · simp [le, Nat.lt_of_not_le le]

/-- `__find_next_bit` reads inside the bitmap and returns the least stop. -/
theorem findNextBitWith_spec (p : List Word) (size start : Nat) (invert : Word)
    (fits : size ≤ p.length * 64) (inside : start ≤ size) :
    (findNextBitWith junk p size start invert).inb = true ∧
      FirstStop p invert size start (findNextBitWith junk p size start invert).val := by
  rw [findNextBitWith]
  by_cases past : size ≤ start
  · rw [if_pos past]
    refine ⟨rfl, ⟨le_refl _, inside, fun h => absurd h (lt_irrefl _), ?_⟩⟩
    intro i ge below
    simp only [pure_val] at below
    omega
  rw [if_neg past]
  simp only [bitsPerLong]
  have wordIn : start / 64 < p.length := by omega
  have loop := findNextBitLoop_spec junk invert fits start (size / 64 + 1) (start / 64 * 64)
    (((readAt junk p (start / 64)).val ^^^ invert) &&& ~~~((1#64 <<< (start % 64)) - 1#64))
    (by omega) (by omega) (by omega) (by omega) inside (by omega) (by
      intro j small
      have sameWord : (start / 64 * 64 + j) / 64 = start / 64 := by omega
      have sameBit : (start / 64 * 64 + j) % 64 = j := by omega
      have reach : decide (start % 64 ≤ j) = decide (start ≤ start / 64 * 64 + j) :=
        decide_eq_decide.mpr (by omega)
      rw [getLsbD_and, mask_getLsbD (Nat.mod_lt _ (by decide)) small,
        readAt_val_of_lt junk p _ 0 wordIn, stopsAt, bitsPerLong, sameWord, sameBit, reach,
        Bool.and_comm])
  refine ⟨?_, loop.2⟩
  simp only [bind_inb, readAt_inb, wordIn, decide_true, Bool.true_and]
  exact loop.1

theorem stopsAt_allOnes (p : List Word) (i : Nat) : stopsAt p allOnesWord i = !bitAt p i := by
  rw [stopsAt, getLsbD_xor, allOnesWord, getLsbD_allOnes, bitAt]
  simp [mod_bitsPerLong_lt i]

/-! ## Searches and the loop as functions of the bits -/

/-- The least index of `[start, size)` with the bit, or `size`. -/
def leastIndex (bit : Nat → Bool) (size start : Nat) : Nat :=
  ((range size).find? fun i => start ≤ i && bit i).getD size

theorem FirstStop.eq_leastIndex {p : List Word} {invert : Word} {size start r : Nat}
    (stop : FirstStop p invert size start r) : r = leastIndex (stopsAt p invert) size start := by
  have none : ∀ i < r, (!(decide (start ≤ i) && stopsAt p invert i)) = true := by
    intro i below
    by_cases ge : start ≤ i
    · simp [stop.before i ge below]
    · simp [ge]
  rw [leastIndex]
  rcases Nat.lt_or_eq_of_le stop.le_size with inside | rfl
  · rw [find?_range_eq_some.mpr ⟨by simp [stop.ge_start, stop.stops inside],
      mem_range.mpr inside, none⟩, Option.getD_some]
  · rw [find?_range_eq_none.mpr none, Option.getD_none]

theorem findNextBitWith_eq (p : List Word) (size start : Nat) (invert : Word)
    (fits : size ≤ p.length * 64) :
    findNextBitWith junk p size start invert = ⟨leastIndex (stopsAt p invert) size start, true⟩ := by
  by_cases inside : start ≤ size
  · obtain ⟨inb, stop⟩ := findNextBitWith_spec junk p size start invert fits inside
    rw [← stop.eq_leastIndex, ← inb]
  · have none : (range size).find? (fun i => start ≤ i && stopsAt p invert i) = none := by
      refine find?_range_eq_none.mpr fun i below => ?_
      have before : ¬ start ≤ i := by omega
      simp [before]
    rw [findNextBitWith, if_pos (by omega), leastIndex, none]
    rfl

/-- `for_each_set_bit` from `pos` on: the positions for which the body runs. -/
def forEachLoop (p : List Word) (size : Nat) : Nat → Nat → Acc (List Nat)
  | 0, _ => pure []
  | fuel + 1, pos =>
    if pos < size then do
      let next ← findNextBit junk p size (pos + 1)
      let rest ← forEachLoop p size fuel next
      pure (pos :: rest)
    else pure []

def forEachSetBit (p : List Word) (size : Nat) : Acc (List Nat) := do
  let first ← findNextBit junk p size 0
  forEachLoop junk p size size first

theorem forEachLoop_eq {p : List Word} {size : Nat} (fits : size ≤ p.length * 64) :
    ∀ fuel start pos, size ≤ start + fuel → FirstStop p 0 size start pos →
      forEachLoop junk p size fuel pos =
        ⟨(range' start (size - start)).filter (stopsAt p 0), true⟩ := by
  intro fuel
  induction fuel with
  | zero =>
    intro start pos enough _
    rw [Nat.sub_eq_zero_of_le (show size ≤ start from enough)]
    rfl
  | succ fuel ih =>
    intro start pos enough stop
    have ge := stop.ge_start
    have skipped : (range' start (pos - start)).filter (stopsAt p 0) = [] := by
      refine filter_eq_nil_iff.mpr fun i member => ?_
      obtain ⟨low, high⟩ := mem_range'_1.mp member
      exact Bool.eq_false_iff.mp (stop.before i low (by omega))
    rw [forEachLoop]
    by_cases inside : pos < size
    · obtain ⟨inb, next⟩ := findNextBitWith_spec junk p size (pos + 1) 0 fits inside
      have parts := range'_append_1 (s := start) (m := pos - start) (n := size - (pos + 1) + 1)
      rw [Nat.add_sub_cancel' ge, range'_succ, show pos - start + (size - (pos + 1) + 1) =
        size - start by omega] at parts
      rw [if_pos inside, ← parts, filter_append, skipped, filter_cons_of_pos (stop.stops inside)]
      simp only [findNextBit, Bind.bind, ih (pos + 1) _ (by omega) next, inb]
      rfl
    · have last : pos = size := Nat.le_antisymm stop.le_size (by omega)
      rw [if_neg inside, ← last, skipped]
      rfl

theorem bitmap_search (p : List Word) (size start : Nat) (words : p.length = bitsToLongs size) :
    findNextBit junk p size start = ⟨leastIndex (bitAt p) size start, true⟩ ∧
      findNextZeroBit junk p size start = ⟨leastIndex (fun i => !bitAt p i) size start, true⟩ ∧
      forEachSetBit junk p size = ⟨(range size).filter (bitAt p), true⟩ := by
  have fits : size ≤ p.length * 64 := by
    rw [words, bitsToLongs, divRoundUp, bitsPerLong]
    omega
  have set : stopsAt p 0 = bitAt p := by
    funext i
    simp [stopsAt, bitAt]
  have clear : stopsAt p allOnesWord = fun i => !bitAt p i := funext (stopsAt_allOnes p)
  refine ⟨?_, ?_, ?_⟩
  · rw [findNextBit, findNextBitWith_eq junk p size start 0 fits, set]
  · rw [findNextZeroBit, findNextBitWith_eq junk p size start _ fits, clear]
  · obtain ⟨inb, stop⟩ := findNextBitWith_spec junk p size 0 0 fits (Nat.zero_le size)
    simp only [forEachSetBit, findNextBit, Bind.bind, inb,
      forEachLoop_eq junk fits size 0 _ (Nat.le_add_left size 0) stop, set, Nat.sub_zero,
      range_eq_range', Bool.and_self]

theorem bitmap_search_two_words : [1#64, 2#64].length = bitsToLongs 70 ∧
    forEachSetBit (fun _ => allOnesWord) [1#64, 2#64] 70 = ⟨[0, 65], true⟩ := by
  refine ⟨rfl, (bitmap_search _ _ 70 0 rfl).2.2.trans ?_⟩
  decide

end KernelLabs.ChCore
