import KernelLabs.ChCore.Mm.Slab
import Mathlib.Data.List.Pairwise
import Mathlib.Data.List.Perm.Subperm

/-!
# The invariant of the kernel heap

The regions handed out, the slabs and the free buddy blocks share the pages of the zone.
On the level of pages they tile it, as the buddy allocator has it; within a slab they are
the slots of one size.  The invariant names the slabs as pairs of first page and order and
the free slots of each slab, and says that the headers, the links in memory and the tags of
the pages are those of this picture.  Owners may write what they like into their regions.
-/

set_option autoImplicit false

namespace KernelLabs.ChCore

open Lib Function List Option

/-! ## Sizes and orders -/

theorem orderLoop_eq : ∀ (fuel tmp order : Nat), tmp < 2 ^ (fuel + 1) →
    orderLoop fuel tmp order = order + Nat.log2 tmp := by
  intro fuel
  induction fuel with
  | zero =>
    intro tmp order small
    rw [orderLoop, Nat.log2_def, if_neg (by omega), Nat.add_zero]
  | succ fuel ih =>
    intro tmp order small
    rw [orderLoop, Nat.log2_def]
    by_cases more : 1 < tmp
    · rw [if_pos more, if_pos (by omega), ih (tmp / 2) (order + 1) (by omega)]
      omega
    · rw [if_neg more, if_neg (by omega), Nat.add_zero]

theorem le_two_pow_sizeToOrder {size : Nat} (small : size < 2 ^ 65) :
    size ≤ 2 ^ sizeToOrder size := by
  simp only [sizeToOrder, orderLoop_eq 64 size 0 small, Nat.zero_add]
  split
  · exact Nat.le_of_lt Nat.lt_log2_self
  · omega

theorem sizeToOrder_le {size order : Nat} (bound : size ≤ 2 ^ order) (small : size < 2 ^ 65) :
    sizeToOrder size ≤ order := by
  simp only [sizeToOrder, orderLoop_eq 64 size 0 small, Nat.zero_add]
  split
  next above =>
    exact (Nat.pow_lt_pow_iff_right (by decide)).mp (Nat.lt_of_lt_of_le above bound)
  next =>
    by_cases zero : size = 0
    · simp [zero]
    · apply (Nat.pow_le_pow_iff_right (by decide : 1 < 2)).mp
      exact (Nat.log2_self_le zero).trans bound

/-! ## Regions -/

/-- What an owner got: a slot of a slab or a block of pages, with the size asked for. -/
inductive Region where
  | slot (addr order size : Nat)
  | pages (page order size : Nat) (byGetPages : Bool)
  deriving DecidableEq

abbrev Interval := Nat × Nat

def Apart (a b : Interval) : Prop := a.1 + a.2 ≤ b.1 ∨ b.1 + b.2 ≤ a.1

def Inside (a b : Interval) : Prop := b.1 ≤ a.1 ∧ a.1 + a.2 ≤ b.1 + b.2

def blockBytes (startAddr : Nat) (b : Nat × Nat) : Interval :=
  (startAddr + b.1 * buddyPageSize, 2 ^ b.2 * buddyPageSize)

namespace Region

def bytes (startAddr : Nat) : Region → Interval
  | .slot addr order _ => (addr, 2 ^ order)
  | .pages page order _ _ => blockBytes startAddr (page, order)

def size : Region → Nat
  | .slot _ _ size => size
  | .pages _ _ size _ => size

def addr (startAddr : Nat) (r : Region) : Nat := (r.bytes startAddr).1

def isSlot : Region → Bool
  | .slot _ _ _ => true
  | .pages _ _ _ _ => false

/-- `kmalloc` or `kzalloc` returned it, so that `kfree` takes it back. -/
def byKmalloc : Region → Bool
  | .slot _ _ _ => true
  | .pages _ _ _ byGetPages => !byGetPages

def block : Region → Option (Nat × Nat)
  | .slot _ _ _ => none
  | .pages page order _ _ => some (page, order)

end Region

theorem Apart.symm {a b : Interval} (apart : Apart a b) : Apart b a := Or.symm apart

theorem Apart.mono {a b c d : Interval} (apart : Apart c d) (first : Inside a c)
    (second : Inside b d) : Apart a b := by
  simp only [Apart, Inside] at *
  omega

theorem blockBytes_apart (startAddr : Nat) {b c : Nat × Nat}
    (disjoint : ∀ x, ¬ (inBlock b x ∧ inBlock c x)) :
    Apart (blockBytes startAddr b) (blockBytes startAddr c) := by
  have sizeB := Nat.two_pow_pos b.2
  have sizeC := Nat.two_pow_pos c.2
  have ordered : b.1 + 2 ^ b.2 ≤ c.1 ∨ c.1 + 2 ^ c.2 ≤ b.1 := by
    have atB := disjoint b.1
    have atC := disjoint c.1
    simp only [inBlock] at atB atC
    omega
  have scaled := ordered.imp (Nat.mul_le_mul_right buddyPageSize)
    (Nat.mul_le_mul_right buddyPageSize)
  simp only [Apart, blockBytes, Nat.add_mul] at *
  omega

/-! ## Slots -/

def slabPageOrder : Nat := sizeToOrder (slabInitSize / buddyPageSize)

theorem slabPageOrder_eq : slabPageOrder = 9 := by decide

theorem slot_large {order : Nat} (large : slabMinOrder ≤ order) : 32 ≤ 2 ^ order :=
  Nat.pow_le_pow_right (n := 2) (by decide) large

theorem slot_small {order : Nat} (small : order ≤ slabMaxOrder) : 2 * 2 ^ order ≤ slabInitSize := by
  have bound : 2 ^ order ≤ 2 ^ slabMaxOrder := Nat.pow_le_pow_right (by decide) small
  have room : 2 * 2 ^ slabMaxOrder ≤ slabInitSize := by decide
  omega

section Slots
variable (startAddr : Nat)

def slabBase (g : Nat × Nat) : Nat := startAddr + g.1 * buddyPageSize

/-- A slot of a slab; the first one holds the header. -/
def IsSlot (g : Nat × Nat) (addr : Nat) : Prop :=
  ∃ j, 0 < j ∧ (j + 1) * 2 ^ g.2 ≤ slabInitSize ∧ addr = slabBase startAddr g + j * 2 ^ g.2

variable {startAddr} {g : Nat × Nat} {a b : Nat}

theorem IsSlot.inside (slot : IsSlot startAddr g a) :
    slabBase startAddr g + 2 ^ g.2 ≤ a ∧ a + 2 ^ g.2 ≤ slabBase startAddr g + slabInitSize := by
  obtain ⟨j, positive, bound, rfl⟩ := slot
  have first : 1 * 2 ^ g.2 ≤ j * 2 ^ g.2 := Nat.mul_le_mul_right _ positive
  rw [Nat.add_mul] at bound
  omega

theorem IsSlot.inside_slab (slot : IsSlot startAddr g a) :
    Inside (a, 2 ^ g.2) (slabBase startAddr g, slabInitSize) :=
  ⟨(Nat.le_add_right _ _).trans slot.inside.1, slot.inside.2⟩

theorem IsSlot.apart (slotA : IsSlot startAddr g a) (slotB : IsSlot startAddr g b)
    (other : a ≠ b) : Apart (a, 2 ^ g.2) (b, 2 ^ g.2) := by
  obtain ⟨j, -, -, rfl⟩ := slotA
  obtain ⟨k, -, -, rfl⟩ := slotB
  have ordered : j < k ∨ k < j := Nat.lt_or_gt_of_ne fun same => other (by rw [same])
  have scaled := ordered.imp (Nat.mul_le_mul_right (2 ^ g.2)) (Nat.mul_le_mul_right (2 ^ g.2))
  simp only [Apart, Nat.succ_mul] at *
  omega

theorem blockBytes_slab (g : Nat × Nat) :
    blockBytes startAddr (g.1, slabPageOrder) = (slabBase startAddr g, slabInitSize) := by
  have size : 2 ^ 9 * buddyPageSize = slabInitSize := by decide
  rw [blockBytes, slabPageOrder_eq, size, slabBase]

end Slots

/-! ## Slabs in memory -/

section Memory
variable {startAddr : Nat} {mem mem' slabs : Nat → Nat} {gs : List (Nat × Nat)}
  {free : Nat → List Nat}

def slabCells (startAddr : Nat) (free : Nat → List Nat) (g : Nat × Nat) : List Nat :=
  slabBase startAddr g :: nextSlabAt (slabBase startAddr g) ::
    orderAt (slabBase startAddr g) :: free g.1

structure SlabMem (startAddr : Nat) (mem slabs : Nat → Nat) (gs : List (Nat × Nat))
    (free : Nat → List Nat) : Prop where
  order : ∀ g ∈ gs, mem (orderAt (slabBase startAddr g)) = g.2
  list : ∀ g ∈ gs, Linked mem (mem (slabBase startAddr g)) (free g.1)
  chain : ∀ o, Linked (fun a => mem (nextSlabAt a)) (slabs o)
    ((gs.filter fun g => g.2 = o).map (slabBase startAddr))

variable {g : Nat × Nat}

section
variable (inMem : SlabMem startAddr mem slabs gs free)
include inMem

/-- The free slots may change, the other words of the headers may not. -/
theorem SlabMem.relist {free' : Nat → List Nat}
    (order : ∀ g ∈ gs, mem' (orderAt (slabBase startAddr g)) = mem (orderAt (slabBase startAddr g)))
    (next : ∀ g ∈ gs,
      mem' (nextSlabAt (slabBase startAddr g)) = mem (nextSlabAt (slabBase startAddr g)))
    (list : ∀ g ∈ gs, Linked mem' (mem' (slabBase startAddr g)) (free' g.1)) :
    SlabMem startAddr mem' slabs gs free' := by
  refine ⟨fun g member => ?_, list, fun o => ?_⟩
  · rw [order g member]
    exact inMem.order g member
  · apply (inMem.chain o).congr
    intro a listed
    obtain ⟨g, filtered, rfl⟩ := List.mem_map.mp listed
    exact next g (mem_of_mem_filter filtered)

theorem SlabMem.list_congr (member : g ∈ gs)
    (same : ∀ a ∈ slabCells startAddr free g, mem' a = mem a) :
    Linked mem' (mem' (slabBase startAddr g)) (free g.1) := by
  rw [same _ (by simp [slabCells])]
  apply (inMem.list g member).congr
  intro a listed
  exact same a (by simp [slabCells, listed])

theorem SlabMem.congr (same : ∀ g ∈ gs, ∀ a ∈ slabCells startAddr free g, mem' a = mem a) :
    SlabMem startAddr mem' slabs gs free :=
  inMem.relist (fun g member => same g member _ (by simp [slabCells]))
    (fun g member => same g member _ (by simp [slabCells]))
    fun g member => inMem.list_congr member (same g member)

end

theorem slabCells_cases {a : Nat} (order : slabMinOrder ≤ g.2)
    (cell : a ∈ slabCells startAddr free g) :
    (slabBase startAddr g ≤ a ∧ a < slabBase startAddr g + 2 ^ g.2) ∨ a ∈ free g.1 := by
  have large := slot_large order
  simp only [slabCells, mem_cons, nextSlabAt, orderAt] at cell
  rcases cell with rfl | rfl | rfl | listed
  · left; omega
  · left; omega
  · left; omega
  · right; exact listed

theorem linkSlots_spec {objSize : Nat} (positive : 0 < objSize) : ∀ (n slot : Nat)
    (mem : Nat → Nat), slot ≠ 0 → Linked (linkSlots objSize n slot mem) slot
      ((range (n + 1)).map fun j => slot + j * objSize) ∧
    ∀ w, (∀ j, j ≤ n → w ≠ slot + j * objSize) → linkSlots objSize n slot mem w = mem w := by
  intro n
  induction n with
  | zero =>
    intro slot mem nonnull
    constructor
    · have last : linkSlots objSize 0 slot mem slot = 0 := update_self slot 0 mem
      simpa [Linked, last] using nonnull
    · intro w outside
      have other : w ≠ slot := by simpa using outside 0 (le_refl 0)
      exact update_of_ne other 0 mem
  | succ n ih =>
    intro slot mem nonnull
    obtain ⟨linked, rest⟩ := ih (slot + objSize) (update mem slot (slot + objSize)) (by omega)
    have shift : ∀ j, slot + objSize + j * objSize = slot + (j + 1) * objSize := by
      intro j
      rw [Nat.add_mul]
      omega
    constructor
    · have first : linkSlots objSize (n + 1) slot mem slot = slot + objSize := by
        rw [linkSlots, rest slot, update_self]
        intro j _
        omega
      rw [range_succ_eq_map, map_cons, List.map_map]
      refine ⟨by simp, by simpa using nonnull, ?_⟩
      have start : slot + 0 * objSize = slot := by omega
      rw [start, first]
      simpa only [shift, Function.comp_def, Nat.succ_eq_add_one, linkSlots] using linked
    · intro w outside
      rw [linkSlots, rest w]
      · have other : w ≠ slot := by simpa using outside 0 (Nat.zero_le _)
        exact update_of_ne other _ mem
      · intro j bound
        rw [shift]
        exact outside (j + 1) (by omega)

theorem tagPages_eq (h : Heap) (page n i : Nat) : tagPages h (pageToVirt h page) n i =
      if page ≤ i ∧ i < page + n then pageToVirt h page else h.slabOf i := by
  have index : ∀ j, pageIdx h (pageToVirt h page + j * buddyPageSize) = page + j := by
    intro j
    rw [pageIdx, pageToVirt, Nat.add_assoc, ← Nat.add_mul, Nat.add_sub_cancel_left]
    exact Nat.mul_div_cancel _ (by decide)
  induction n with
  | zero => rw [if_neg (by omega), tagPages]
  | succ n ih =>
    rw [tagPages, index]
    by_cases last : i = page + n
    · rw [last, update_self, if_pos (by omega)]
    · rw [update_of_ne last, ih]
      by_cases inside : page ≤ i ∧ i < page + n
      · rw [if_pos inside, if_pos (by omega)]
      · rw [if_neg inside, if_neg (by omega)]

/-- The walk finds a slab with a free slot, or there is none in the chain. -/
theorem slabWithFree_spec (mem : Nat → Nat) : ∀ (fuel slab : Nat) (chain : List Nat),
    chain.length < fuel → Linked (fun a => mem (nextSlabAt a)) slab chain →
    (∃ a ∈ chain, slabWithFree mem fuel slab = some a ∧ mem a ≠ 0) ∨
      (slabWithFree mem fuel slab = none ∧ ∀ a ∈ chain, mem a = 0) := by
  intro fuel
  induction fuel with
  | zero => intro slab chain short _; omega
  | succ fuel ih =>
    intro slab chain short linked
    rw [slabWithFree]
    cases chain with
    | nil =>
      have null : slab = 0 := linked
      right
      exact ⟨if_pos null, by simp⟩
    | cons a rest =>
      obtain ⟨rfl, nonnull, tail⟩ := linked
      rw [if_neg nonnull]
      by_cases full : mem slab = 0
      · rw [if_pos full]
        rw [length_cons] at short
        rcases ih _ rest (by omega) tail with ⟨b, member, found⟩ | ⟨nothing, all⟩
        · left
          exact ⟨b, mem_cons_of_mem _ member, found⟩
        · right
          exact ⟨nothing, forall_mem_cons.mpr ⟨full, all⟩⟩
      · left
        rw [if_neg full]
        exact ⟨slab, mem_cons_self, rfl, full⟩

end Memory

/-! ## The invariant -/

structure HeapSys where
  heap : Heap
  handed : List Region

def usedBlocks (gs : List (Nat × Nat)) (handed : List Region) : List (Nat × Nat) :=
  (gs.map fun g => (g.1, slabPageOrder)) ++ handed.filterMap Region.block

structure PagesInv (zone : GlobalMem) (gs : List (Nat × Nat)) (handed : List Region) :
    Prop where
  pages : MemInv zone.pageNum zone (usedBlocks gs handed)
  marked : ∀ r ∈ handed, ∀ b, r.block = some b →
    (zone.pages b.1).order = b.2 ∧ b.2 < buddyMaxOrder

structure SlabInv (h : Heap) (gs : List (Nat × Nat)) (free : Nat → List Nat) : Prop where
  start : 0 < h.startAddr
  orders : ∀ g ∈ gs, slabMinOrder ≤ g.2 ∧ g.2 ≤ slabMaxOrder
  slots : ∀ g ∈ gs, (free g.1).Nodup ∧ ∀ a ∈ free g.1, IsSlot h.startAddr g a
  inMem : SlabMem h.startAddr h.mem h.slabs gs free
  tagged : ∀ g ∈ gs, ∀ i, inBlock (g.1, slabPageOrder) i → h.slabOf i = slabBase h.startAddr g
  untagged : ∀ i, i < h.zone.pageNum → (∀ g ∈ gs, ¬ inBlock (g.1, slabPageOrder) i) →
    h.slabOf i = 0

structure HandedInv (startAddr : Nat) (gs : List (Nat × Nat)) (free : Nat → List Nat)
    (handed : List Region) : Prop where
  owned : ∀ a o size, Region.slot a o size ∈ handed →
    ∃ g ∈ gs, g.2 = o ∧ IsSlot startAddr g a ∧ a ∉ free g.1
  apart : handed.Pairwise fun r q => Apart (r.bytes startAddr) (q.bytes startAddr)
  large : ∀ r ∈ handed, r.size ≤ (r.bytes startAddr).2

variable {r : Region} {page : Nat}

theorem HandedInv.tail {startAddr : Nat} {gs : List (Nat × Nat)} {free : Nat → List Nat}
    {handed : List Region} (inv : HandedInv startAddr gs free (r :: handed)) :
    HandedInv startAddr gs free handed where
  owned a o size member := inv.owned a o size (mem_cons_of_mem r member)
  apart := (pairwise_cons.mp inv.apart).2
  large q member := inv.large q (mem_cons_of_mem r member)

structure HeapInv (gs : List (Nat × Nat)) (free : Nat → List Nat) (s : HeapSys) : Prop where
  zone : PagesInv s.heap.zone gs s.handed
  slabs : SlabInv s.heap gs free
  regions : HandedInv s.heap.startAddr gs free s.handed

section Consequences
variable {gs : List (Nat × Nat)} {free : Nat → List Nat} {handed : List Region} {zone : GlobalMem}
  {startAddr : Nat} {g b : Nat × Nat} {h : Heap}

theorem mem_usedBlocks_slab (member : g ∈ gs) : (g.1, slabPageOrder) ∈ usedBlocks gs handed :=
  mem_append_left _ (List.mem_map.mpr ⟨g, member, rfl⟩)

theorem mem_usedBlocks_pages (member : r ∈ handed) (block : r.block = some b) :
    b ∈ usedBlocks gs handed :=
  mem_append_right _ (mem_filterMap.mpr ⟨r, member, block⟩)

variable {k : Nat × Nat}

section
variable (inv : PagesInv zone gs handed)
include inv

theorem PagesInv.used_apart :
    (usedBlocks gs handed).Pairwise fun b c => ∀ x, ¬ (inBlock b x ∧ inBlock c x) :=
  (pairwise_append.mp inv.pages.tiles.apart).2.1

theorem PagesInv.slabs_disjoint (first : g ∈ gs) (second : k ∈ gs) (other : g ≠ k) :
    ∀ x, ¬ (inBlock (g.1, slabPageOrder) x ∧ inBlock (k.1, slabPageOrder) x) := by
  have pairs := (pairwise_append.mp inv.used_apart).1
  rw [pairwise_map] at pairs
  have symmetric : Std.Symm fun b c : Nat × Nat => ∀ x,
      ¬ (inBlock (b.1, slabPageOrder) x ∧ inBlock (c.1, slabPageOrder) x) :=
    ⟨fun b c disjoint x both => disjoint x ⟨both.2, both.1⟩⟩
  exact pairs.forall first second other

theorem PagesInv.slab_pages_disjoint (member : g ∈ gs) (given : r ∈ handed)
    (block : r.block = some b) : ∀ x, ¬ (inBlock (g.1, slabPageOrder) x ∧ inBlock b x) := by
  have pairs := (pairwise_append.mp inv.used_apart).2.2
  exact pairs _ (List.mem_map.mpr ⟨g, member, rfl⟩) b (mem_filterMap.mpr ⟨r, given, block⟩)

theorem PagesInv.slabs_apart (startAddr : Nat) (first : g ∈ gs) (second : k ∈ gs) (other : g ≠ k) :
    Apart (slabBase startAddr g, slabInitSize) (slabBase startAddr k, slabInitSize) := by
  have blocks := blockBytes_apart startAddr (inv.slabs_disjoint first second other)
  rwa [blockBytes_slab, blockBytes_slab] at blocks

end

theorem HandedInv.home (inv : HandedInv startAddr gs free handed) (member : r ∈ handed) :
    ∃ b ∈ usedBlocks gs handed, Inside (r.bytes startAddr) (blockBytes startAddr b) := by
  cases r with
  | slot a o size =>
    obtain ⟨g, slab, rfl, slot, -⟩ := inv.owned a o size member
    refine ⟨_, mem_usedBlocks_slab slab, ?_⟩
    rw [blockBytes_slab]
    exact slot.inside_slab
  | pages page order size byGetPages =>
    exact ⟨_, mem_usedBlocks_pages member rfl, Nat.le_refl _, Nat.le_refl _⟩

/-- A region overlaps neither the first slot of a slab, which holds the header, nor a slot
that is free. -/
theorem HandedInv.apart_slab (inv : HandedInv startAddr gs free handed)
    (pages : PagesInv zone gs handed) (slabs : SlabInv h gs free) (start : h.startAddr = startAddr)
    (member : r ∈ handed) (slab : g ∈ gs) :
    Apart (r.bytes startAddr) (slabBase startAddr g, 2 ^ g.2) ∧
      ∀ a ∈ free g.1, Apart (r.bytes startAddr) (a, 2 ^ g.2) := by
  subst start
  have small := slot_small (slabs.orders g slab).2
  have header : Inside (slabBase h.startAddr g, 2 ^ g.2)
      (slabBase h.startAddr g, slabInitSize) := ⟨Nat.le_refl _, by omega⟩
  have slot : ∀ a ∈ free g.1, Inside (a, 2 ^ g.2) (slabBase h.startAddr g, slabInitSize) := by
    intro a listed
    exact ((slabs.slots g slab).2 a listed).inside_slab
  -- it is enough that the region lies outside the slab, or is another slot of it
  have outside : ∀ I : Interval, Inside (r.bytes h.startAddr) I →
      Apart I (slabBase h.startAddr g, slabInitSize) →
      Apart (r.bytes h.startAddr) (slabBase h.startAddr g, 2 ^ g.2) ∧
        ∀ a ∈ free g.1, Apart (r.bytes h.startAddr) (a, 2 ^ g.2) := by
    intro I within apart
    exact ⟨apart.mono within header, fun a listed => apart.mono within (slot a listed)⟩
  cases r with
  | pages page order size byGetPages =>
    apply outside _ ⟨Nat.le_refl _, Nat.le_refl _⟩
    rw [← blockBytes_slab]
    exact (blockBytes_apart h.startAddr (pages.slab_pages_disjoint slab member rfl)).symm
  | slot a o size =>
    obtain ⟨k, other, rfl, slotK, unlisted⟩ := inv.owned a o size member
    by_cases same : k = g
    · subst same
      have inside := slotK.inside
      constructor
      · simp only [Apart, Region.bytes]
        omega
      · intro b listed
        apply slotK.apart ((slabs.slots k slab).2 b listed)
        intro equal
        exact unlisted (equal ▸ listed)
    · exact outside _ slotK.inside_slab (pages.slabs_apart h.startAddr other slab same)

theorem PagesInv.page_ne (inv : PagesInv zone gs handed) (first : g ∈ gs) (second : k ∈ gs)
    (other : k ≠ g) : k.1 ≠ g.1 := by
  intro same
  apply inv.slabs_disjoint second first other g.1
  rw [same]
  exact ⟨inBlock_start _, inBlock_start _⟩

variable {a : Nat}

theorem SlabInv.cell_inside (inv : SlabInv h gs free) (slab : k ∈ gs)
    (cell : a ∈ slabCells h.startAddr free k) :
    slabBase h.startAddr k ≤ a ∧ a < slabBase h.startAddr k + slabInitSize := by
  have small := slot_small (inv.orders k slab).2
  rcases slabCells_cases (inv.orders k slab).1 cell with header | listed
  · omega
  · have slot := ((inv.slots k slab).2 a listed).inside
    have positive := Nat.two_pow_pos k.2
    omega

theorem SlabInv.cell_outside (inv : SlabInv h gs free) (pages : PagesInv zone gs handed)
    (first : g ∈ gs) (second : k ∈ gs) (other : k ≠ g) (cell : a ∈ slabCells h.startAddr free k) :
    a < slabBase h.startAddr g ∨ slabBase h.startAddr g + slabInitSize ≤ a := by
  have blocks := pages.slabs_apart h.startAddr second first other
  have inside := inv.cell_inside second cell
  simp only [Apart] at blocks
  omega

end Consequences

section SlabSteps
variable {gs : List (Nat × Nat)} {free : Nat → List Nat} {s : HeapSys} {g : Nat × Nat}
  {handed : List Region} {a : Nat} {h : Heap}

theorem SlabInv.relist {zone : GlobalMem} (inv : SlabInv h gs free)
    (pages : PagesInv zone gs handed) (slab : g ∈ gs) {mem' : Nat → Nat} {l : List Nat}
    (nodup : l.Nodup) (slots : ∀ a ∈ l, IsSlot h.startAddr g a)
    (within : ∀ w, w ≠ slabBase h.startAddr g → ¬ IsSlot h.startAddr g w → mem' w = h.mem w)
    (linked : Linked mem' (mem' (slabBase h.startAddr g)) l) :
    SlabInv { h with mem := mem' } gs (update free g.1 l) := by
  refine ⟨inv.start, inv.orders, ?_, ?_, inv.tagged, inv.untagged⟩
  · intro k member
    by_cases same : k = g
    · rw [same, update_self]
      exact ⟨nodup, slots⟩
    · rw [update_of_ne (pages.page_ne slab member same)]
      exact inv.slots k member
  have large := slot_large (inv.orders g slab).1
  have size : 0 < slabInitSize := by decide
  have header : ∀ w, slabBase h.startAddr g < w → w < slabBase h.startAddr g + 24 →
      mem' w = h.mem w := by
    intro w above below
    exact within w above.ne' fun slot => by have := slot.inside; omega
  have others : ∀ k ∈ gs, k ≠ g → ∀ a ∈ slabCells h.startAddr free k, mem' a = h.mem a := by
    intro k member other a cell
    have outside := inv.cell_outside pages slab member other cell
    exact within a (by omega) fun slot => by have := slot.inside; omega
  refine inv.inMem.relist ?_ ?_ ?_ <;> intro k member <;> by_cases same : k = g
  · exact same ▸ header _ (by simp [orderAt]) (by simp [orderAt])
  · exact others k member same _ (by simp [slabCells])
  · exact same ▸ header _ (by simp [nextSlabAt]) (by simp [nextSlabAt])
  · exact others k member same _ (by simp [slabCells])
  · rw [same, update_self]
    exact linked
  · rw [update_of_ne (pages.page_ne slab member same)]
    exact inv.inMem.list_congr member (others k member same)

theorem SlabInv.free_above (inv : SlabInv h gs free) (slab : g ∈ gs) (listed : a ∈ free g.1) :
    slabBase h.startAddr g + slabHeaderSize ≤ a ∧
      a < slabBase h.startAddr g + slabInitSize := by
  have inside := ((inv.slots g slab).2 a listed).inside
  have large := slot_large (inv.orders g slab).1
  simp only [slabHeaderSize]
  omega

theorem HeapInv.takeSlot (inv : HeapInv gs free s) (slab : g ∈ gs)
    (nonempty : s.heap.mem (slabBase s.heap.startAddr g) ≠ 0) {size : Nat} (fits : size ≤ 2 ^ g.2) :
    ∃ free', HeapInv gs free'
      ⟨(takeSlot s.heap (slabBase s.heap.startAddr g)).1,
        .slot (takeSlot s.heap (slabBase s.heap.startAddr g)).2 g.2 size :: s.handed⟩ := by
  obtain ⟨zone, slabs, regions⟩ := inv
  obtain ⟨rest, list, tail⟩ := (slabs.inMem.list g slab).cons_of_ne nonempty
  generalize first : s.heap.mem (slabBase s.heap.startAddr g) = a at *
  have listed : a ∈ free g.1 := by rw [list]; exact mem_cons_self
  have tailListed : ∀ b ∈ rest, b ∈ free g.1 := by
    intro b member
    rw [list]
    exact mem_cons_of_mem a member
  obtain ⟨nodup, areSlots⟩ := slabs.slots g slab
  rw [list] at nodup
  obtain ⟨gone, nodup⟩ := nodup_cons.mp nodup
  have taken : ChCore.takeSlot s.heap (slabBase s.heap.startAddr g) =
      (s.heap.store (slabBase s.heap.startAddr g) (s.heap.mem a), a) := by
    rw [ChCore.takeSlot, first]
  rw [taken]
  refine ⟨update free g.1 rest, ⟨zone.pages, ?_⟩, ?_, ?_, ?_, ?_⟩
  · exact forall_mem_cons.mpr ⟨fun b block => (by cases block), zone.marked⟩
  · apply slabs.relist zone slab nodup (fun b member => areSlots b (tailListed b member))
    · intro w other _
      exact update_of_ne other _ _
    · rw [update_self]
      apply tail.congr
      intro b member
      have above := slabs.free_above slab (tailListed b member)
      exact update_of_ne (by simp only [slabHeaderSize] at above; omega) _ _
  · intro b o size' member
    rcases mem_cons.mp member with new | old
    · cases new
      exact ⟨g, slab, rfl, areSlots a listed, by rwa [update_self]⟩
    obtain ⟨k, memberK, order, slot, unlisted⟩ := regions.owned b o size' old
    refine ⟨k, memberK, order, slot, ?_⟩
    by_cases same : k = g
    · rw [same, update_self]
      rw [same] at unlisted
      exact fun inRest => unlisted (tailListed b inRest)
    · rwa [update_of_ne (zone.page_ne slab memberK same)]
  · refine pairwise_cons.mpr ⟨?_, regions.apart⟩
    intro r member
    exact ((regions.apart_slab zone slabs rfl member slab).2 a listed).symm
  · exact forall_mem_cons.mpr ⟨fits, regions.large⟩

theorem HeapInv.perm (inv : HeapInv gs free s) (perm : s.handed.Perm handed) :
    HeapInv gs free ⟨s.heap, handed⟩ := by
  obtain ⟨zone, slabs, regions⟩ := inv
  have member : ∀ r, r ∈ handed → r ∈ s.handed := fun r => perm.mem_iff.mpr
  refine ⟨⟨?_, ?_⟩, slabs, ?_, ?_, ?_⟩
  · apply zone.pages.retile
    apply zone.pages.tiles.perm
    exact ((perm.filterMap Region.block).append_left _).append_left _
  · intro r given
    exact zone.marked r (member r given)
  · intro a o size given
    exact regions.owned a o size (member _ given)
  · exact (perm.pairwise_iff fun apart => apart.symm).mp regions.apart
  · intro r given
    exact regions.large r (member r given)

theorem HeapInv.slot_page (inv : HeapInv gs free s) (slab : g ∈ gs)
    (slot : IsSlot s.heap.startAddr g a) : virtToPage s.heap a = some (pageIdx s.heap a) ∧
      s.heap.slabOf (pageIdx s.heap a) = slabBase s.heap.startAddr g := by
  have inside := slot.inside
  have positive := Nat.two_pow_pos g.2
  have page : inBlock (g.1, slabPageOrder) (pageIdx s.heap a) := by
    rw [slabPageOrder_eq]
    simp only [inBlock, pageIdx, slabBase, buddyPageSize, slabInitSize] at *
    omega
  have below := (inv.zone.pages.tiles.cover (pageIdx s.heap a)).mpr
    ⟨_, mem_append_right _ (mem_usedBlocks_slab slab), page⟩
  refine ⟨?_, inv.slabs.tagged g slab _ page⟩
  rw [virtToPage, if_neg]
  simp only [pageIdx, slabBase, buddyPageSize] at *
  omega

theorem HeapInv.freeInSlab {o size : Nat} (inv : HeapInv gs free ⟨h, .slot a o size :: handed⟩) :
    ∃ h' free', kfree h a = some h' ∧ HeapInv gs free' ⟨h', handed⟩ := by
  obtain ⟨g, slab, rfl, slot, unlisted⟩ := inv.regions.owned a o size mem_cons_self
  obtain ⟨onPage, tag⟩ := inv.slot_page slab slot
  obtain ⟨zone, slabs, regions⟩ := inv
  simp only at onPage tag zone slabs regions slot
  have start := slabs.start
  have above := slot.inside
  have large := slot_large (slabs.orders g slab).1
  have base : 0 < slabBase h.startAddr g := by rw [slabBase]; omega
  have freed : kfree h a = some ((h.store a (h.mem (slabBase h.startAddr g))).store
      (slabBase h.startAddr g) a) := by
    rw [kfree, onPage, bind_some, tag, if_pos base.ne', ChCore.freeInSlab, onPage, map_some, tag]
  refine ⟨_, update free g.1 (a :: free g.1), freed, ⟨zone.pages, ?_⟩, ?_, ?_, ?_, ?_⟩
  · intro r member
    exact zone.marked r (mem_cons_of_mem _ member)
  · obtain ⟨nodup, areSlots⟩ := slabs.slots g slab
    apply slabs.relist zone slab (nodup_cons.mpr ⟨unlisted, nodup⟩)
      (forall_mem_cons.mpr ⟨slot, areSlots⟩)
    · intro w other notSlot
      have apart : w ≠ a := fun same => notSlot (same ▸ slot)
      rw [Heap.store_mem, update_of_ne other, update_of_ne apart]
    rw [Heap.store_mem, update_self]
    refine ⟨rfl, by omega, ?_⟩
    rw [update_of_ne (by omega), update_self]
    apply (slabs.inMem.list g slab).congr
    intro b member
    have behind := slabs.free_above slab member
    have other : b ≠ a := fun same => unlisted (same ▸ member)
    simp only [slabHeaderSize] at behind
    rw [update_of_ne (by omega), update_of_ne other]
  · intro b o' size' member
    obtain ⟨k, memberK, order, slotB, unlistedB⟩ :=
      regions.owned b o' size' (mem_cons_of_mem _ member)
    refine ⟨k, memberK, order, slotB, ?_⟩
    by_cases same : k = g
    · -- another region of the same slab has another address
      have other := (pairwise_cons.mp regions.apart).1 _ member
      rw [same] at unlistedB
      rw [same, update_self, mem_cons, not_or]
      refine ⟨?_, unlistedB⟩
      rintro rfl
      simp only [Apart, Region.bytes] at other
      have := Nat.two_pow_pos o'
      omega
    · rwa [update_of_ne (zone.page_ne slab memberK same)]
  · exact regions.tail.apart
  · exact regions.tail.large

end SlabSteps

/-! ## Pages from the buddy allocator -/

variable {z' : GlobalMem}

section PageSteps
variable {gs : List (Nat × Nat)} {free : Nat → List Nat} {h : Heap} {handed : List Region}
  {byGetPages : Bool} {zone : GlobalMem} {order : Nat}

theorem SlabInv.with_zone (inv : SlabInv h gs free) (size : zone.pageNum = h.zone.pageNum) :
    SlabInv { h with zone := zone } gs free := by
  refine ⟨inv.start, inv.orders, inv.slots, inv.inMem, inv.tagged, ?_⟩
  intro i below
  exact inv.untagged i (lt_of_lt_of_eq below size)

theorem HandedInv.apart_new {startAddr : Nat} (inv : HandedInv startAddr gs free handed)
    {b : Nat × Nat} {n : Nat} (pages : MemInv n zone (b :: usedBlocks gs handed))
    (member : r ∈ handed) : Apart (blockBytes startAddr b) (r.bytes startAddr) := by
  obtain ⟨c, used, inside⟩ := inv.home member
  have pairs := (pairwise_append.mp pages.tiles.apart).2.1
  have disjoint := (pairwise_cons.mp pairs).1 c used
  exact (blockBytes_apart startAddr disjoint).mono ⟨Nat.le_refl _, Nat.le_refl _⟩ inside

theorem HeapInv.getPages (inv : HeapInv gs free ⟨h, handed⟩)
    (result : buddyGetPages h.zone order = some (z', page)) (below : order < buddyMaxOrder)
    {size : Nat} (fits : size ≤ 2 ^ order * buddyPageSize) (byGetPages : Bool) :
    HeapInv gs free ⟨{ h with zone := z' }, .pages page order size byGetPages :: handed⟩ := by
  obtain ⟨zone, slabs, regions⟩ := inv
  have got := buddyGetPages_spec zone.pages result
  refine ⟨⟨?_, ?_⟩, slabs.with_zone got.pageNum, ?_, ?_, ?_⟩
  · have tiles : Tiles h.zone.pageNum
        (freeBlocks z' ++ usedBlocks gs (.pages page order size byGetPages :: handed)) :=
      got.inv.tiles.perm (perm_middle.symm.append_left _)
    rw [← got.pageNum] at tiles
    exact got.inv.retile tiles
  · refine forall_mem_cons.mpr ⟨fun b block => ?_, fun r old b block => ?_⟩
    · cases block
      exact ⟨got.marked, below⟩
    · have unchanged := got.untouched b.1 (.inr ⟨b, mem_usedBlocks_pages old block, rfl⟩)
      simp only [unchanged]
      exact zone.marked r old b block
  · intro a o size' member
    rcases mem_cons.mp member with new | old
    · cases new
    · exact regions.owned a o size' old
  · refine pairwise_cons.mpr ⟨?_, regions.apart⟩
    intro r member
    exact regions.apart_new got.inv member
  · exact forall_mem_cons.mpr ⟨fits, regions.large⟩

section
variable {size : Nat} (inv : HeapInv gs free ⟨h, .pages page order size byGetPages :: handed⟩)
include inv

theorem HeapInv.block_page : virtToPage h (pageToVirt h page) = some page ∧ h.slabOf page = 0 := by
  have first : inBlock (page, order) page := inBlock_start (page, order)
  have below := (inv.zone.pages.tiles.cover page).mpr
    ⟨_, mem_append_right _ (mem_usedBlocks_pages mem_cons_self rfl), first⟩
  constructor
  · have index : pageIdx h (pageToVirt h page) = page := by
      rw [pageIdx, pageToVirt, Nat.add_sub_cancel_left]
      exact Nat.mul_div_cancel _ (by decide)
    rw [virtToPage, if_neg, index]
    simp only [pageToVirt, buddyPageSize] at *
    omega
  · apply inv.slabs.untagged page below
    intro g slab tagged
    exact inv.zone.slab_pages_disjoint slab mem_cons_self rfl page ⟨tagged, first⟩

theorem HeapInv.freePages :
    ∃ h', ChCore.freePages h (pageToVirt h page) = some h' ∧
      kfree h (pageToVirt h page) = some h' ∧ HeapInv gs free ⟨h', handed⟩ := by
  obtain ⟨onPage, untagged⟩ := inv.block_page
  have freed : ChCore.freePages h (pageToVirt h page) =
      some { h with zone := buddyFreePages h.zone page } := by
    rw [ChCore.freePages, onPage, map_some]
  refine ⟨_, freed, ?_, ?_⟩
  · rw [kfree, onPage, bind_some, if_neg (by simp [untagged]), freed]
  obtain ⟨zone, slabs, regions⟩ := inv
  obtain ⟨marked, small⟩ := zone.marked _ mem_cons_self (page, order) rfl
  have front : MemInv h.zone.pageNum h.zone ((page, order) :: usedBlocks gs handed) := by
    apply zone.pages.retile
    exact zone.pages.tiles.perm (perm_middle.append_left _)
  obtain ⟨pages, untouched⟩ := buddyFreePages_spec front marked small
  have pageNum := buddyFreePages_pageNum h.zone page
  refine ⟨⟨?_, ?_⟩, slabs.with_zone pageNum, regions.tail⟩
  · rw [pageNum]
    exact pages
  · intro r member b block
    have unchanged := untouched b.1 (.inr ⟨b, mem_usedBlocks_pages member block, rfl⟩)
    simp only [unchanged]
    exact zone.marked r (mem_cons_of_mem _ member) b block

end

end PageSteps

/-! ## New slabs -/

def slotList (addr order : Nat) : List Nat :=
  (range (slabInitSize / 2 ^ order - 1)).map fun j => addr + 2 ^ order + j * 2 ^ order

def slabImage (mem : Nat → Nat) (addr order : Nat) : Nat → Nat :=
  linkSlots (2 ^ order) (slabInitSize / 2 ^ order - 1 - 1) (addr + 2 ^ order)
    (update (update (update mem addr (addr + 2 ^ order))
      (nextSlabAt addr) 0) (orderAt addr) order)

theorem initSlabCache_eq (h : Heap) (order : Nat) :
    initSlabCache h order slabInitSize = (buddyGetPages h.zone slabPageOrder).map fun r =>
      ({ h with
          zone := r.1
          slabOf := tagPages h (pageToVirt h r.2) (2 ^ slabPageOrder)
          mem := slabImage h.mem (pageToVirt h r.2) order }, pageToVirt h r.2) := by
  rw [initSlabCache, allocSlabMemory, Option.map_map]
  rfl

section NewSlabs
variable {order : Nat}

theorem slab_has_slots (small : order ≤ slabMaxOrder) : 2 ≤ slabInitSize / 2 ^ order := by
  rw [Nat.le_div_iff_mul_le (Nat.two_pow_pos order)]
  exact slot_small small

variable {startAddr : Nat}

theorem isSlot_of_mem_slotList {a : Nat} (small : order ≤ slabMaxOrder)
    (member : a ∈ slotList (slabBase startAddr (page, order)) order) :
    IsSlot startAddr (page, order) a := by
  obtain ⟨j, inRange, rfl⟩ := List.mem_map.mp member
  have count := slab_has_slots small
  have below := mem_range.mp inRange
  refine ⟨j + 1, Nat.succ_pos j, ?_, ?_⟩
  · calc (j + 1 + 1) * 2 ^ order ≤ slabInitSize / 2 ^ order * 2 ^ order :=
        Nat.mul_le_mul_right _ (by omega)
      _ ≤ slabInitSize := Nat.div_mul_le_self _ _
  · have next : (j + 1) * 2 ^ order = j * 2 ^ order + 2 ^ order := Nat.succ_mul j (2 ^ order)
    simp only
    omega

theorem slotList_nodup (addr order : Nat) : (slotList addr order).Nodup := by
  apply Nodup.map _ nodup_range
  intro i j same
  have scaled : i * 2 ^ order = j * 2 ^ order := by
    simp only at same
    omega
  exact Nat.eq_of_mul_eq_mul_right (Nat.two_pow_pos order) scaled

structure NewSlab (mem mem' : Nat → Nat) (addr order : Nat) : Prop where
  first : mem' addr = addr + 2 ^ order
  next : mem' (nextSlabAt addr) = 0
  header : mem' (orderAt addr) = order
  list : Linked mem' (addr + 2 ^ order) (slotList addr order)
  outside : ∀ w, w < addr ∨ addr + slabInitSize ≤ w → mem' w = mem w

theorem slabImage_newSlab (mem : Nat → Nat) (addr : Nat) (large : slabMinOrder ≤ order)
    (small : order ≤ slabMaxOrder) : NewSlab mem (slabImage mem addr order) addr order := by
  have size := slot_large large
  have count := slab_has_slots small
  have last : slabInitSize / 2 ^ order - 1 - 1 + 1 = slabInitSize / 2 ^ order - 1 := by omega
  have whole : slabInitSize / 2 ^ order * 2 ^ order ≤ slabInitSize := Nat.div_mul_le_self _ _
  obtain ⟨linked, elsewhere⟩ := linkSlots_spec (Nat.two_pow_pos order)
    (slabInitSize / 2 ^ order - 1 - 1) (addr + 2 ^ order)
    (update (update (update mem addr (addr + 2 ^ order))
      (nextSlabAt addr) 0) (orderAt addr) order) (by omega)
  rw [last] at linked
  -- a word before the first slot or behind the last one is not a link
  have apart : ∀ w, w < addr + 2 ^ order ∨ addr + slabInitSize ≤ w →
      ∀ j, j ≤ slabInitSize / 2 ^ order - 1 - 1 → w ≠ addr + 2 ^ order + j * 2 ^ order := by
    intro w outside j bound
    have scaled : (j + 2) * 2 ^ order ≤ slabInitSize / 2 ^ order * 2 ^ order :=
      Nat.mul_le_mul_right _ (by omega)
    rw [Nat.add_mul] at scaled
    omega
  refine ⟨?_, ?_, ?_, linked, ?_⟩
  · rw [slabImage, elsewhere addr (apart addr (.inl (by omega))),
      update_of_ne (by simp [orderAt]), update_of_ne (by simp [nextSlabAt]),
      update_self]
  · rw [slabImage, elsewhere _ (apart _ (.inl (by simp only [nextSlabAt]; omega))),
      update_of_ne (by simp [orderAt, nextSlabAt]), update_self]
  · rw [slabImage, elsewhere _ (apart _ (.inl (by simp only [orderAt]; omega))), update_self]
  · intro w outside
    have room := slot_small small
    rw [slabImage, elsewhere w (apart w (by omega)), update_of_ne (by simp only [orderAt]; omega),
      update_of_ne (by simp only [nextSlabAt]; omega),
      update_of_ne (by omega)]

variable {gs : List (Nat × Nat)} {free : Nat → List Nat} {h : Heap} {handed : List Region}

theorem SlabMem.push {mem mem' slabs : Nat → Nat} (inMem : SlabMem startAddr mem slabs gs free)
    (new : NewSlab mem mem' (slabBase startAddr (page, order)) order) (nonnull : 0 < startAddr)
    (large : slabMinOrder ≤ order) (small : order ≤ slabMaxOrder) (pageNe : ∀ k ∈ gs, k.1 ≠ page)
    (apart : ∀ k ∈ gs, ∀ a ∈ slabCells startAddr free k,
      a < slabBase startAddr (page, order) ∨
        slabBase startAddr (page, order) + slabInitSize ≤ a) :
    SlabMem startAddr
      (update mem' (nextSlabAt (slabBase startAddr (page, order))) (slabs order))
      (update slabs order (slabBase startAddr (page, order))) ((page, order) :: gs)
      (update free page (slotList (slabBase startAddr (page, order)) order)) := by
  generalize base : slabBase startAddr (page, order) = addr at *
  have size := slot_large large
  have nonzero : addr ≠ 0 := by rw [← base, slabBase]; omega
  have old : SlabMem startAddr (update mem' (nextSlabAt addr) (slabs order)) slabs gs
      free := by
    apply inMem.congr
    intro k member a cell
    have outside := apart k member a cell
    have room : 24 ≤ slabInitSize := by decide
    rw [update_of_ne (by simp only [nextSlabAt]; omega)]
    exact new.outside a outside
  constructor
  · refine forall_mem_cons.mpr ⟨?_, old.order⟩
    rw [base, update_of_ne (by simp [orderAt, nextSlabAt])]
    exact new.header
  · intro k member
    rcases mem_cons.mp member with rfl | member
    · rw [base, update_of_ne (by simp [nextSlabAt]), update_self, new.first]
      apply new.list.congr
      intro a listed
      rw [← base] at listed
      have slot := (isSlot_of_mem_slotList small listed).inside
      rw [base] at slot
      exact update_of_ne (by simp only [nextSlabAt] at *; omega) _ _
    · rw [update_of_ne (pageNe k member)]
      exact old.list k member
  · intro o
    by_cases same : order = o
    · subst same
      rw [filter_cons_of_pos (by simp), map_cons, base, update_self]
      have next : update mem' (nextSlabAt addr) (slabs order) (nextSlabAt addr) =
          slabs order := update_self _ _ _
      exact ⟨rfl, nonzero, by simpa only [next] using old.chain order⟩
    · rw [filter_cons_of_neg (by simpa using same), update_of_ne (Ne.symm same)]
      exact old.chain o

/-- The heap after `init_slab_cache` and the new slab's place in the chain. -/
def withNewSlab (h : Heap) (zone : GlobalMem) (page order : Nat) : Heap :=
  { zone := zone
    startAddr := h.startAddr
    slabOf := tagPages h (pageToVirt h page) (2 ^ slabPageOrder)
    mem := update (slabImage h.mem (pageToVirt h page) order)
      (nextSlabAt (pageToVirt h page)) (h.slabs order)
    slabs := update h.slabs order (pageToVirt h page) }

theorem HeapInv.newSlab (inv : HeapInv gs free ⟨h, handed⟩) (large : slabMinOrder ≤ order)
    (small : order ≤ slabMaxOrder) (result : buddyGetPages h.zone slabPageOrder = some (z', page)) :
    HeapInv ((page, order) :: gs)
      (update free page (slotList (pageToVirt h page) order))
      ⟨withNewSlab h z' page order, handed⟩ := by
  obtain ⟨zone, slabs, regions⟩ := inv
  simp only at zone slabs regions
  have got := buddyGetPages_spec zone.pages result
  have pairs := (pairwise_append.mp got.inv.tiles.apart).2.1
  have disjoint := (pairwise_cons.mp pairs).1
  have pageNe : ∀ k ∈ gs, k.1 ≠ page := by
    intro k member same
    apply disjoint _ (mem_usedBlocks_slab member) page
    rw [← same]
    exact ⟨inBlock_start _, inBlock_start _⟩
  refine ⟨⟨?_, ?_⟩, ⟨slabs.start, ?_, ?_, ?_, ?_, ?_⟩, ?_, regions.apart, regions.large⟩
  · change MemInv z'.pageNum z' ((page, slabPageOrder) :: usedBlocks gs handed)
    rw [got.pageNum]
    exact got.inv
  · intro r member b block
    have unchanged := got.untouched b.1 (.inr ⟨b, mem_usedBlocks_pages member block, rfl⟩)
    simp only [withNewSlab, unchanged]
    exact zone.marked r member b block
  · exact forall_mem_cons.mpr ⟨⟨large, small⟩, slabs.orders⟩
  · intro k member
    rcases mem_cons.mp member with rfl | member
    · rw [update_self]
      exact ⟨slotList_nodup _ _, fun a listed => isSlot_of_mem_slotList small listed⟩
    · rw [update_of_ne (pageNe k member)]
      exact slabs.slots k member
  · apply slabs.inMem.push (slabImage_newSlab h.mem _ large small) slabs.start large small pageNe
    intro k member a cell
    have blocks := blockBytes_apart h.startAddr (disjoint _ (mem_usedBlocks_slab member))
    rw [blockBytes_slab (page, order), blockBytes_slab k] at blocks
    have inside := slabs.cell_inside member cell
    simp only [Apart] at blocks ⊢
    omega
  · intro k member i tagged
    change tagPages h (pageToVirt h page) (2 ^ slabPageOrder) i = _
    rw [tagPages_eq]
    rcases mem_cons.mp member with rfl | member
    · have here : page ≤ i ∧ i < page + 2 ^ slabPageOrder := tagged
      rw [if_pos here]
      rfl
    · have away : ¬ (page ≤ i ∧ i < page + 2 ^ slabPageOrder) :=
        fun inside => disjoint _ (mem_usedBlocks_slab member) i ⟨inside, tagged⟩
      rw [if_neg away]
      exact slabs.tagged k member i tagged
  · intro i below outside
    change tagPages h (pageToVirt h page) (2 ^ slabPageOrder) i = _
    obtain ⟨new, old⟩ := forall_mem_cons.mp outside
    have away : ¬ (page ≤ i ∧ i < page + 2 ^ slabPageOrder) := new
    rw [tagPages_eq, if_neg away]
    exact slabs.untagged i (lt_of_lt_of_eq below got.pageNum) old
  · intro a o size member
    obtain ⟨k, slab, same, slot, unlisted⟩ := regions.owned a o size member
    refine ⟨k, mem_cons_of_mem _ slab, same, slot, ?_⟩
    rwa [update_of_ne (pageNe k slab)]

/-- No chain is longer than the zone has pages. -/
theorem PagesInv.chain_length {zone : GlobalMem} (inv : PagesInv zone gs handed)
    (startAddr o : Nat) :
    ((gs.filter fun g => g.2 = o).map (slabBase startAddr)).length < zone.pageNum + 1 := by
  have nodup : (gs.map Prod.fst).Nodup := by
    have pairs := (pairwise_append.mp inv.used_apart).1
    rw [pairwise_map] at pairs
    rw [Nodup, pairwise_map]
    apply pairs.imp
    intro b c disjoint same
    apply disjoint b.1
    exact ⟨inBlock_start _, by rw [same]; exact inBlock_start _⟩
  have inZone : gs.map Prod.fst ⊆ range zone.pageNum := by
    intro page listed
    obtain ⟨g, member, rfl⟩ := List.mem_map.mp listed
    have used : (g.1, slabPageOrder) ∈ freeBlocks zone ++ usedBlocks gs handed :=
      mem_append_right _ (mem_usedBlocks_slab member)
    exact mem_range.mpr (inv.pages.tiles.start_lt (g.1, slabPageOrder) used)
  have count := (nodup.subperm inZone).length_le
  have filtered := length_filter_le (fun g : Nat × Nat => decide (g.2 = o)) gs
  rw [length_map, length_range] at count
  rw [length_map]
  omega

theorem HeapInv.allocInSlabNolock (large : slabMinOrder ≤ order) (small : order ≤ slabMaxOrder)
    {size : Nat} (fits : size ≤ 2 ^ order) : ∀ (depth : Nat) {gs : List (Nat × Nat)}
    {free : Nat → List Nat} {h h' : Heap} {p : Nat}, HeapInv gs free ⟨h, handed⟩ →
    allocInSlabNolock depth h (h.slabs order) order = some (h', p) → h'.startAddr = h.startAddr ∧
      ∃ gs' free', HeapInv gs' free' ⟨h', .slot p order size :: handed⟩ := by
  intro depth
  induction depth with
  | zero => intro gs free h h' p _ result; cases result
  | succ depth ih =>
    intro gs free h h' p inv result
    rw [ChCore.allocInSlabNolock] at result
    rcases slabWithFree_spec h.mem (h.zone.pageNum + 1) (h.slabs order) _
      (inv.zone.chain_length h.startAddr order) (inv.slabs.inMem.chain order) with
      ⟨a, inChain, found, nonempty⟩ | ⟨nothing, -⟩
    · rw [found] at result
      obtain ⟨g, filtered, rfl⟩ := List.mem_map.mp inChain
      obtain ⟨slab, same⟩ := mem_filter.mp filtered
      have order' : g.2 = order := by simpa using same
      subst order'
      obtain ⟨free', taken⟩ := inv.takeSlot slab nonempty fits
      cases result
      exact ⟨rfl, gs, free', taken⟩
    · rw [nothing, initSlabCache_eq] at result
      rcases got : buddyGetPages h.zone slabPageOrder with _ | ⟨z', page⟩
      · rw [got] at result
        cases result
      have next := inv.newSlab large small got
      rw [got] at result
      apply ih next
      rw [← result]
      simp only [map_some, bind_some, withNewSlab, update_self, Heap.store]

/-- It fails only when every slab of the order is full and the buddy allocator has no block
for a new one. -/
theorem HeapInv.allocInSlab_none (inv : HeapInv gs free ⟨h, handed⟩)
    (large : slabMinOrder ≤ order) (small : order ≤ slabMaxOrder)
    (failed : ChCore.allocInSlabNolock 2 h (h.slabs order) order = none) :
    buddyGetPages h.zone slabPageOrder = none ∧
      ∀ chain, Linked (fun a => h.mem (nextSlabAt a)) (h.slabs order) chain →
        ∀ header ∈ chain, h.mem header = 0 := by
  rw [ChCore.allocInSlabNolock] at failed
  rcases slabWithFree_spec h.mem (h.zone.pageNum + 1) (h.slabs order) _
    (inv.zone.chain_length h.startAddr order) (inv.slabs.inMem.chain order) with
    ⟨a, -, found, -⟩ | ⟨nothing, full⟩
  · rw [found] at failed
    cases failed
  constructor
  · rw [nothing, initSlabCache_eq] at failed
    cases got : buddyGetPages h.zone slabPageOrder with
    | none => rfl
    | some found =>
      -- the new slab has a free slot, so the second round would have returned it
      obtain ⟨z', page⟩ := found
      have new := slabImage_newSlab h.mem (pageToVirt h page) large small
      have base : 0 < pageToVirt h page := Nat.add_pos_left inv.slabs.start _
      have head : slabImage h.mem (pageToVirt h page) order (pageToVirt h page) ≠ 0 := by
        rw [new.first]
        exact (Nat.add_pos_left base _).ne'
      have other : pageToVirt h page ≠ nextSlabAt (pageToVirt h page) := by
        simp [nextSlabAt]
      rw [got] at failed
      simp [ChCore.allocInSlabNolock, slabWithFree, base.ne', Heap.store,
        update_of_ne other, head] at failed
  · intro chain linked
    rw [linked.unique (inv.slabs.inMem.chain order)]
    exact full

theorem HeapInv.initSlab (inv : HeapInv gs free ⟨h, handed⟩) {h' : Heap}
    (unset : ∀ o, h.slabs o = 0) (started : ChCore.initSlab h = some h') :
    ∃ gs' free', HeapInv gs' free' ⟨h', handed⟩ := by
  have loop : ∀ (orders : List Nat) (gs : List (Nat × Nat)) (free : Nat → List Nat) (h : Heap),
      orders.Nodup → (∀ o ∈ orders, slabMinOrder ≤ o ∧ o ≤ slabMaxOrder ∧ h.slabs o = 0) →
      HeapInv gs free ⟨h, handed⟩ →
      orders.foldlM (fun h order => (initSlabCache h order slabInitSize).map fun r =>
        { r.1 with slabs := update r.1.slabs order r.2 }) h = some h' →
      ∃ gs' free', HeapInv gs' free' ⟨h', handed⟩ := by
    intro orders
    induction orders with
    | nil =>
      intro gs free h _ _ inv run
      cases run
      exact ⟨gs, free, inv⟩
    | cons order rest ih =>
      intro gs free h nodup each inv run
      obtain ⟨fresh, nodup⟩ := nodup_cons.mp nodup
      obtain ⟨large, small, null⟩ := each order mem_cons_self
      rw [foldlM_cons, initSlabCache_eq] at run
      rcases got : buddyGetPages h.zone slabPageOrder with _ | ⟨z', page⟩
      · rw [got] at run
        cases run
      have next := inv.newSlab large small got
      -- `next_slab` is null already, as the chain was empty
      have image := (slabImage_newSlab h.mem (pageToVirt h page) large small).next
      have same : update (slabImage h.mem (pageToVirt h page) order)
          (nextSlabAt (pageToVirt h page)) (h.slabs order) =
          slabImage h.mem (pageToVirt h page) order := by
        rw [null, ← image, update_eq_self]
      rw [withNewSlab, same] at next
      rw [got] at run
      refine ih _ _ _ nodup ?_ next run
      intro o member
      obtain ⟨large', small', null'⟩ := each o (mem_cons_of_mem order member)
      refine ⟨large', small', ?_⟩
      have other : o ≠ order := fun same => fresh (same ▸ member)
      exact (update_of_ne other _ _).trans null'
  apply loop _ gs free h _ _ inv started
  · decide
  · intro o member
    have bounds : slabMinOrder ≤ o ∧ o ≤ slabMaxOrder := by
      revert o
      decide
    exact ⟨bounds.1, bounds.2, unset o⟩

end NewSlabs

end KernelLabs.ChCore
