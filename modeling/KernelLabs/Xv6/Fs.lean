import Mathlib.Algebra.Group.Nat.Defs
import Mathlib.Data.List.Nodup
import Mathlib.Order.Basic

/-!
# Blocks, inodes and files

`kernel/fs.c` of the file-system lab, with the doubly-indirect block.  A block is read and written
through the buffer cache, so `disk` is the cached view of it, as little-endian words.  The functions
that can panic return an `Option`.  `written` are the blocks passed to `log_write` and `freed` those
passed to `bfree`, latest first.
-/

set_option autoImplicit false

namespace KernelLabs.Xv6

open Function List

abbrev Word := BitVec 32

def bsize : Nat := 1024

def ndirect : Nat := 11

def nindirect : Nat := 256

def ndindirect : Nat := nindirect * nindirect

def maxfile : Nat := ndirect + nindirect + ndindirect

def bpb : Nat := bsize * 8

def ipb : Nat := 16

/-- The layout that `mkfs` writes: inode blocks, then the bitmap, then data.  The loop counters of
`balloc` are of type `int`. -/
structure Superblock where
  size : Nat
  ninodes : Nat
  inodestart : Nat
  bmapstart : Nat
  inodes_before : inodestart + ninodes / ipb < bmapstart
  fits : bmapstart + size / bpb < size
  small : size + bpb ≤ 2 ^ 31

def Superblock.bblock (sb : Superblock) (b : Nat) : Nat := b / bpb + sb.bmapstart

def Superblock.iblock (sb : Superblock) (inum : Nat) : Nat := inum / ipb + sb.inodestart

def Superblock.dataStart (sb : Superblock) : Nat := sb.bmapstart + sb.size / bpb + 1

open Superblock

structure Inode where
  type : BitVec 16
  major : BitVec 16
  minor : BitVec 16
  nlink : BitVec 16
  size : Word
  addrs : Nat → Word

/-- The words of `struct dinode`. -/
def Inode.word (ip : Inode) : Nat → Word
  | 0 => ip.major ++ ip.type
  | 1 => ip.nlink ++ ip.minor
  | 2 => ip.size
  | k + 3 => ip.addrs k

def Inode.attrs (ip : Inode) : BitVec 16 × BitVec 16 × BitVec 16 × BitVec 16 × Word :=
  (ip.type, ip.major, ip.minor, ip.nlink, ip.size)

structure Fs (sb : Superblock) where
  disk : Nat → Nat → Word
  inodes : Fin sb.ninodes → Inode
  written : List Nat
  freed : List Nat

def mapBit (block : Nat → Word) (bi : Nat) : Bool := (block (bi / 32)).getLsbD (bi % 32)

namespace Fs

section Model
variable {sb : Superblock}

def bit (s : Fs sb) (b : Nat) : Bool := mapBit (s.disk (sb.bblock b)) (b % bpb)

def setBlock (s : Fs sb) (b : Nat) (block : Nat → Word) : Fs sb :=
  { s with disk := update s.disk b block }

def setWord (s : Fs sb) (b k : Nat) (w : Word) : Fs sb :=
  s.setBlock b (update (s.disk b) k w)

def setInode (s : Fs sb) (i : Fin sb.ninodes) (ip : Inode) : Fs sb :=
  { s with inodes := update s.inodes i ip }

def setAddr (s : Fs sb) (i : Fin sb.ninodes) (n : Nat) (w : Word) : Fs sb :=
  s.setInode i { s.inodes i with addrs := update (s.inodes i).addrs n w }

def logWrite (s : Fs sb) (b : Nat) : Fs sb := { s with written := b :: s.written }

def bzero (s : Fs sb) (bno : Nat) : Fs sb := (s.setBlock bno fun _ => 0).logWrite bno

def setBit (s : Fs sb) (blk bi : Nat) : Fs sb :=
  (s.setWord blk (bi / 32) (s.disk blk (bi / 32) ||| BitVec.twoPow 32 (bi % 32))).logWrite blk

def clearBit (s : Fs sb) (blk bi : Nat) : Fs sb :=
  (s.setWord blk (bi / 32) (s.disk blk (bi / 32) &&& ~~~ BitVec.twoPow 32 (bi % 32))).logWrite blk

def findFree (s : Fs sb) (b : Nat) : Nat → Nat → Option Nat
  | 0, _ => none
  | n + 1, bi =>
    if b + bi < sb.size then
      if mapBit (s.disk (sb.bblock b)) bi then s.findFree b n (bi + 1) else some bi
    else none

def ballocFrom (s : Fs sb) : Nat → Nat → Option (Nat × Fs sb)
  | 0, _ => none
  | n + 1, b =>
    if b < sb.size then
      match s.findFree b bpb 0 with
      | some bi => some (b + bi, (s.setBit (sb.bblock b) bi).bzero (b + bi))
      | none => s.ballocFrom n (b + bpb)
    else none

def balloc (s : Fs sb) : Option (Nat × Fs sb) := s.ballocFrom (sb.size / bpb + 1) 0

def bfree (s : Fs sb) (b : Nat) : Option (Fs sb) :=
  if mapBit (s.disk (sb.bblock b)) (b % bpb) then
    some { s.clearBit (sb.bblock b) (b % bpb) with freed := b :: s.freed }
  else none

/-- The block in `ip->addrs[n]`, which is allocated if there is none. -/
def addrEntry (s : Fs sb) (i : Fin sb.ninodes) (n : Nat) : Option (Nat × Fs sb) :=
  if (s.inodes i).addrs n = 0 then do
    let (addr, s) ← s.balloc
    some (addr, s.setAddr i n (BitVec.ofNat 32 addr))
  else some (((s.inodes i).addrs n).toNat, s)

/-- The block in entry `idx` of the index block `blk`, which is allocated if there is none. -/
def blockEntry (s : Fs sb) (blk idx : Nat) : Option (Nat × Fs sb) :=
  if s.disk blk idx = 0 then do
    let (addr, s) ← s.balloc
    some (addr, (s.setWord blk idx (BitVec.ofNat 32 addr)).logWrite blk)
  else some ((s.disk blk idx).toNat, s)

def bmap (s : Fs sb) (i : Fin sb.ninodes) (bn : Nat) : Option (Nat × Fs sb) :=
  if bn < ndirect then s.addrEntry i bn
  else if bn - ndirect < nindirect then do
    let (addr, s) ← s.addrEntry i ndirect
    s.blockEntry addr (bn - ndirect)
  else if bn - ndirect - nindirect < ndindirect then do
    let (addr, s) ← s.addrEntry i (ndirect + 1)
    let (addr, s) ← s.blockEntry addr ((bn - ndirect - nindirect) / nindirect)
    s.blockEntry addr ((bn - ndirect - nindirect) % nindirect)
  else none

def truncDirect (s : Fs sb) (i : Fin sb.ninodes) : List Nat → Option (Fs sb)
  | [] => some s
  | n :: rest =>
    if (s.inodes i).addrs n ≠ 0 then do
      let s ← s.bfree ((s.inodes i).addrs n).toNat
      (s.setAddr i n 0).truncDirect i rest
    else s.truncDirect i rest

def freeEntries (s : Fs sb) (blk : Nat) : List Nat → Option (Fs sb)
  | [] => some s
  | j :: rest =>
    if s.disk blk j ≠ 0 then do
      let s ← s.bfree (s.disk blk j).toNat
      s.freeEntries blk rest
    else s.freeEntries blk rest

/-- The loop over the entries of the doubly-indirect block.  An entry is cleared in the buffer
without a `log_write`. -/
def freeIndirect (s : Fs sb) (blk : Nat) : List Nat → Option (Fs sb)
  | [] => some s
  | j :: rest =>
    if s.disk blk j ≠ 0 then do
      let child := (s.disk blk j).toNat
      let s ← s.freeEntries child (List.range nindirect)
      let s ← s.bfree child
      (s.setWord blk j 0).freeIndirect blk rest
    else s.freeIndirect blk rest

def truncIndirect (s : Fs sb) (i : Fin sb.ninodes) : Option (Fs sb) :=
  if (s.inodes i).addrs ndirect ≠ 0 then do
    let blk := ((s.inodes i).addrs ndirect).toNat
    let s ← s.freeEntries blk (List.range nindirect)
    let s ← s.bfree blk
    some (s.setAddr i ndirect 0)
  else some s

/-- The third part of `itrunc`.  If the buffer of the doubly-indirect block is `dropped` from the
cache, the block is as it was. -/
def truncDouble (s : Fs sb) (i : Fin sb.ninodes) (dropped : Bool) : Option (Fs sb) :=
  if (s.inodes i).addrs (ndirect + 1) ≠ 0 then do
    let blk := ((s.inodes i).addrs (ndirect + 1)).toNat
    let before := s.disk blk
    let s ← s.freeIndirect blk (List.range nindirect)
    let s := if dropped then s.setBlock blk before else s
    let s ← s.bfree blk
    some (s.setAddr i (ndirect + 1) 0)
  else some s

def iupdate (s : Fs sb) (i : Fin sb.ninodes) : Fs sb :=
  let start := i.val % ipb * 16
  (s.setBlock (sb.iblock i.val) fun k =>
    if start ≤ k ∧ k < start + 16 then (s.inodes i).word (k - start)
    else s.disk (sb.iblock i.val) k).logWrite (sb.iblock i.val)

def itrunc (s : Fs sb) (i : Fin sb.ninodes) (dropped : Bool) : Option (Fs sb) := do
  let s ← s.truncDirect i (List.range ndirect)
  let s ← s.truncIndirect i
  let s ← s.truncDouble i dropped
  some ((s.setInode i { s.inodes i with size := 0 }).iupdate i)

end Model

section Projections
variable {sb : Superblock} (s : Fs sb)

@[simp] theorem setBlock_disk (b : Nat) (block : Nat → Word) :
    (s.setBlock b block).disk = update s.disk b block := rfl

@[simp] theorem setWord_disk (b k : Nat) (w : Word) :
    (s.setWord b k w).disk = update s.disk b (update (s.disk b) k w) := rfl

@[simp] theorem setWord_inodes (b k : Nat) (w : Word) : (s.setWord b k w).inodes = s.inodes := rfl

@[simp] theorem logWrite_disk (b : Nat) : (s.logWrite b).disk = s.disk := rfl

@[simp] theorem setInode_disk (i : Fin sb.ninodes) (ip : Inode) :
    (s.setInode i ip).disk = s.disk := rfl

@[simp] theorem setInode_inodes (i : Fin sb.ninodes) (ip : Inode) :
    (s.setInode i ip).inodes = update s.inodes i ip := rfl

@[simp] theorem setBit_disk (blk bi : Nat) : (s.setBit blk bi).disk =
    update s.disk blk (update (s.disk blk) (bi / 32)
      (s.disk blk (bi / 32) ||| BitVec.twoPow 32 (bi % 32))) := rfl

@[simp] theorem clearBit_disk (blk bi : Nat) : (s.clearBit blk bi).disk =
    update s.disk blk (update (s.disk blk) (bi / 32)
      (s.disk blk (bi / 32) &&& ~~~ BitVec.twoPow 32 (bi % 32))) := rfl

end Projections

/-! ## The bitmap -/

variable {b : Nat}

section Bits
variable {sb : Superblock} {s : Fs sb}

theorem bpb_pos : 0 < bpb := by decide

theorem bblock_lt (onDisk : b < sb.size) :
    sb.bmapstart ≤ sb.bblock b ∧ sb.bblock b < sb.dataStart := by
  have group := Nat.div_le_div_right (c := bpb) (Nat.le_of_lt onDisk)
  rw [bblock, dataStart]
  exact ⟨Nat.le_add_left _ _, by omega⟩

theorem iblock_lt (i : Fin sb.ninodes) : sb.iblock i.val < sb.bmapstart := by
  have before := sb.inodes_before
  have group := Nat.div_le_div_right (c := ipb) (Nat.le_of_lt i.isLt)
  rw [iblock]
  omega

theorem bmapstart_le (sb : Superblock) : sb.bmapstart ≤ sb.dataStart := by
  rw [dataStart, Nat.add_assoc]
  exact Nat.le_add_right _ _

theorem dataStart_le_size (sb : Superblock) : sb.dataStart ≤ sb.size := sb.fits

variable {blk : Nat}

theorem bit_setBlock (other : sb.bblock b ≠ blk) (block : Nat → Word) :
    (s.setBlock blk block).bit b = s.bit b := by
  rw [bit, setBlock_disk, update_of_ne other, bit]

theorem bit_setBlock_of_data (onDisk : b < sb.size) (data : sb.dataStart ≤ blk)
    (block : Nat → Word) : (s.setBlock blk block).bit b = s.bit b :=
  bit_setBlock (Nat.ne_of_lt (Nat.lt_of_lt_of_le (bblock_lt onDisk).2 data)) block

/-- A word of the bitmap that differs in the bit of `b` only. -/
theorem bit_setWord {w : Word} {v : Bool} (bits : ∀ k, k < 32 → w.getLsbD k =
      if k = b % bpb % 32 then v else (s.disk (sb.bblock b) (b % bpb / 32)).getLsbD k) (c : Nat) :
    (s.setWord (sb.bblock b) (b % bpb / 32) w).bit c = if c = b then v else s.bit c := by
  rw [bit, setWord_disk, mapBit]
  by_cases block : sb.bblock c = sb.bblock b
  · have group : c / bpb = b / bpb := Nat.add_right_cancel block
    rw [block, update_self]
    by_cases word : c % bpb / 32 = b % bpb / 32
    · have equal : c % bpb % 32 = b % bpb % 32 ↔ c = b := by simp only [bpb, bsize] at *; omega
      rw [word, update_self, bits _ (Nat.mod_lt _ (by decide))]
      simp only [equal, bit, mapBit, block, word]
    · rw [update_of_ne word, if_neg (ne_of_apply_ne (· % bpb / 32) word), bit, mapBit, block]
  · rw [update_of_ne block, if_neg (ne_of_apply_ne sb.bblock block)]
    rfl

theorem bit_setBit (b c : Nat) :
    (s.setBit (sb.bblock b) (b % bpb)).bit c = (s.bit c || decide (c = b)) := by
  refine (bit_setWord (v := true) (fun k small => ?_) c).trans ?_
  · by_cases same : b % bpb % 32 = k <;> simp [same, small, Bool.or_comm]
  · by_cases same : c = b <;> simp [same]

theorem bit_clearBit (b c : Nat) :
    (s.clearBit (sb.bblock b) (b % bpb)).bit c = (s.bit c && decide (c ≠ b)) := by
  refine (bit_setWord (v := false) (fun k small => ?_) c).trans ?_
  · by_cases same : b % bpb % 32 = k <;> simp [same, small, Bool.and_comm]
  · by_cases same : c = b <;> simp [same]

end Bits

/-! ## The allocator -/

section Alloc
variable {sb : Superblock} {s : Fs sb}

def takeBlock (s : Fs sb) (b : Nat) : Fs sb := (s.setBit (sb.bblock b) (b % bpb)).bzero b

def freeList (s : Fs sb) : List Nat := (List.range sb.size).filter fun b => !s.bit b

theorem mem_freeList : b ∈ s.freeList ↔ b < sb.size ∧ s.bit b = false := by
  simp [freeList]

theorem findFree_cases (s : Fs sb) (b n : Nat) : ∀ bi,
    (∃ c, s.findFree b n bi = some c ∧ (bi ≤ c ∧ c < bi + n) ∧ b + c < sb.size ∧
      mapBit (s.disk (sb.bblock b)) c = false ∧
      ∀ d, bi ≤ d → d < c → mapBit (s.disk (sb.bblock b)) d = true) ∨
    s.findFree b n bi = none ∧
      ∀ d, bi ≤ d → d < bi + n → b + d < sb.size → mapBit (s.disk (sb.bblock b)) d = true := by
  induction n with
  | zero => exact fun bi => .inr ⟨rfl, fun d low high => by omega⟩
  | succ n ih =>
    intro bi
    rw [findFree]
    by_cases onDisk : b + bi < sb.size
    · rw [if_pos onDisk]
      cases here : mapBit (s.disk (sb.bblock b)) bi with
      | false =>
        exact .inl ⟨bi, by simp, by omega, onDisk, here, fun d low high => by omega⟩
      | true =>
        rw [if_pos rfl]
        have extend : ∀ d, bi ≤ d → d = bi ∨ bi + 1 ≤ d := fun d low => by omega
        rcases ih (bi + 1) with ⟨c, found, range, within, free, used⟩ | ⟨none, used⟩
        · refine .inl ⟨c, found, by omega, within, free, fun d low high => ?_⟩
          rcases extend d low with rfl | low
          · exact here
          · exact used d low high
        · refine .inr ⟨none, fun d low high within => ?_⟩
          rcases extend d low with rfl | low
          · exact here
          · exact used d low (by omega) within
    · rw [if_neg onDisk]
      exact .inr ⟨rfl, fun d low high within => absurd within (by omega)⟩

variable {c : Nat}

theorem group_bits (sb : Superblock) (g : Nat) (within : c < bpb) :
    sb.bblock (g * bpb) = sb.bblock (g * bpb + c) ∧ (g * bpb + c) % bpb = c := by
  have div : (g * bpb + c) / bpb = g := by
    rw [Nat.mul_comm, Nat.mul_add_div bpb_pos, Nat.div_eq_of_lt within, Nat.add_zero]
  have mod : (g * bpb + c) % bpb = c := by
    rw [Nat.mul_comm, Nat.mul_add_mod, Nat.mod_eq_of_lt within]
  refine ⟨?_, mod⟩
  rw [bblock, bblock, div, Nat.mul_div_cancel _ bpb_pos]

theorem bit_group (s : Fs sb) {g : Nat} (within : c < bpb) :
    s.bit (g * bpb + c) = mapBit (s.disk (sb.bblock (g * bpb))) c := by
  rw [bit, ← (group_bits sb g within).1, (group_bits sb g within).2]

theorem ballocFrom_cases (s : Fs sb) (n : Nat) : ∀ g,
    (∃ b, s.ballocFrom n (g * bpb) = some (b, s.takeBlock b) ∧ b < sb.size ∧ s.bit b = false ∧
      ∀ d, g * bpb ≤ d → d < b → s.bit d = true) ∨
    s.ballocFrom n (g * bpb) = none ∧
      ∀ d, g * bpb ≤ d → d < (g + n) * bpb → d < sb.size → s.bit d = true := by
  induction n with
  | zero => exact fun g => .inr ⟨rfl, fun d low high => absurd high (by rw [Nat.add_zero]; omega)⟩
  | succ n ih =>
    intro g
    have next : (g + 1) * bpb = g * bpb + bpb := by rw [Nat.add_mul, Nat.one_mul]
    rw [ballocFrom]
    by_cases onDisk : g * bpb < sb.size
    · rw [if_pos onDisk]
      -- the bits of this block of the bitmap
      have inside : ∀ d, g * bpb ≤ d → d < g * bpb + bpb →
          s.bit d = mapBit (s.disk (sb.bblock (g * bpb))) (d - g * bpb) := by
        intro d low high
        rw [← bit_group s (by omega), Nat.add_sub_cancel' low]
      rcases findFree_cases s (g * bpb) bpb 0 with
        ⟨c, found, range, within, free, used⟩ | ⟨none, used⟩
      · have here := group_bits sb g (c := c) (by omega)
        rw [found]
        refine .inl ⟨g * bpb + c, ?_, within, ?_, fun d low high => ?_⟩
        · simp only [takeBlock, here]
        · rw [bit_group s (by omega)]
          exact free
        · rw [inside d low (by omega)]
          exact used _ (Nat.zero_le _) (by omega)
      · rw [none]
        have first : ∀ d, g * bpb ≤ d → d < g * bpb + bpb → d < sb.size → s.bit d = true := by
          intro d low high within
          rw [inside d low high]
          exact used _ (Nat.zero_le _) (by omega) (by omega)
        have split : ∀ d, g * bpb ≤ d → d < g * bpb + bpb ∨ (g + 1) * bpb ≤ d :=
          fun d low => by omega
        rw [← next]
        rcases ih (g + 1) with ⟨b, result, within, free, used⟩ | ⟨result, used⟩
        · refine .inl ⟨b, result, within, free, fun d low high => ?_⟩
          rcases split d low with high' | low'
          · exact first d low high' (by omega)
          · exact used d low' high
        · refine .inr ⟨result, fun d low high within => ?_⟩
          rcases split d low with high' | low'
          · exact first d low high' within
          · exact used d low' (by rwa [show g + 1 + n = g + (n + 1) by omega]) within
    · rw [if_neg onDisk]
      exact .inr ⟨rfl, fun d low high within => absurd within (by omega)⟩

theorem balloc_eq (s : Fs sb) : s.balloc = s.freeList.head?.map fun b => (b, s.takeBlock b) := by
  have scan := ballocFrom_cases s (sb.size / bpb + 1) 0
  rw [Nat.zero_mul, Nat.zero_add] at scan
  rcases scan with ⟨b, result, within, free, used⟩ | ⟨result, used⟩
  · obtain ⟨k, size⟩ := Nat.exists_eq_add_of_lt within
    have split : List.range sb.size = List.range b ++ b :: (List.range k).map (b + 1 + ·) := by
      rw [size, Nat.add_assoc, range_add, range_succ_eq_map]
      simp [Function.comp_def, Nat.add_assoc, Nat.add_comm 1]
    obtain ⟨rest, head⟩ : ∃ rest, s.freeList = b :: rest := by
      refine ⟨_, filter_eq_cons_iff.mpr ⟨_, _, split, fun d below => ?_, ?_, rfl⟩⟩
      · simp [used d (Nat.zero_le d) (mem_range.mp below)]
      · simp [free]
    rw [balloc, result, head]
    rfl
  · have empty : s.freeList = [] := by
      refine filter_eq_nil_iff.mpr fun d onDisk => ?_
      have within := mem_range.mp onDisk
      have covered := Nat.lt_div_mul_add (a := sb.size) bpb_pos
      simp [used d (Nat.zero_le d) (by rw [Nat.add_mul, Nat.one_mul]; omega) within]
    rw [balloc, result, empty]
    rfl

theorem bit_takeBlock (data : sb.dataStart ≤ b) (onDisk : c < sb.size) :
    (s.takeBlock b).bit c = (s.bit c || decide (c = b)) := by
  rw [← bit_setBit b c]
  exact bit_setBlock_of_data onDisk data _

theorem freeList_takeBlock {rest : List Nat} (free : s.freeList = b :: rest)
    (data : sb.dataStart ≤ b) : (s.takeBlock b).freeList = rest := by
  have nodup : (b :: rest).Nodup := free ▸ Nodup.filter _ nodup_range
  have fewer : (s.takeBlock b).freeList = s.freeList.filter (· ≠ b) := by
    rw [freeList, freeList, filter_filter]
    refine filter_congr fun c member => ?_
    rw [bit_takeBlock data (mem_range.mp member)]
    simp [Bool.and_comm]
  rw [fewer, free, filter_cons_of_neg (by simp)]
  refine filter_eq_self.mpr fun c member => ?_
  have other : c ≠ b := by
    rintro rfl
    exact (nodup_cons.mp nodup).1 member
  simpa using other

end Alloc

end Fs

end KernelLabs.Xv6
