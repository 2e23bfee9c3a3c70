import KernelLabs.ChCore.Mm.SlabInv

/-!
# Runs of the kernel heap

Any calls of `kmalloc`, `kzalloc`, `kfree`, `get_pages` and `free_pages` after `init_buddy`
and `init_slab`, with writes of the owners into their regions in between.  A call that runs
out of memory changes nothing.
-/

set_option autoImplicit false

namespace KernelLabs.ChCore

open Lib Function List Option

def maxRequest : Nat := 2 ^ (buddyMaxOrder - 1) * buddyPageSize

inductive HeapOp where
  | kmalloc (size : Nat)
  | kzalloc (size : Nat)
  | kfree (r : Region)
  | getPages (order : Nat)
  | freePages (r : Region)
  | write (addr value : Nat)

def kmallocRegion (h : Heap) (ptr size : Nat) : Region :=
  if size ≤ orderToSize slabMaxOrder then .slot ptr (slabOrder size) size
  else .pages (pageIdx h ptr) (kmallocOrder size) size false

def pagesRegion (h : Heap) (ptr order : Nat) : Region :=
  .pages (pageIdx h ptr) order (2 ^ order * buddyPageSize) true

def handOut (s : HeapSys) (region : Heap → Nat → Region) : Option (Heap × Nat) → HeapSys
  | none => s
  | some r => { heap := r.1, handed := region s.heap r.2 :: s.handed }

def takeBack (s : HeapSys) (r : Region) : Option Heap → HeapSys
  | none => s
  | some heap => { heap := heap, handed := s.handed.erase r }

def heapStep (s : HeapSys) : HeapOp → HeapSys
  | .kmalloc size => handOut s (fun h ptr => kmallocRegion h ptr size) (kmalloc s.heap size)
  | .kzalloc size => handOut s (fun h ptr => kmallocRegion h ptr size) (kzalloc s.heap size)
  | .kfree r => takeBack s r (kfree s.heap (r.addr s.heap.startAddr))
  | .getPages order => handOut s (fun h ptr => pagesRegion h ptr order) (getPages s.heap order)
  | .freePages r => takeBack s r (freePages s.heap (r.addr s.heap.startAddr))
  | .write addr value => { s with heap := s.heap.store addr value }

/-- Requests within the limits, frees by the allocator that made the region, and writes of
an owner to the aligned words of a region. -/
def heapCall (s : HeapSys) : HeapOp → Prop
  | .kmalloc size => 0 < size ∧ size ≤ maxRequest
  | .kzalloc size => 0 < size ∧ size ≤ maxRequest
  | .kfree r => r ∈ s.handed ∧ r.byKmalloc = true
  | .getPages order => order < buddyMaxOrder
  | .freePages r => r ∈ s.handed ∧ r.byKmalloc = false
  | .write addr _ => (addr - s.heap.startAddr) % 8 = 0 ∧
      ∃ r ∈ s.handed, Inside (addr, 8) (r.bytes s.heap.startAddr)

/-! ## One call -/

variable {size : Nat}

section Calls
variable {gs : List (Nat × Nat)} {free : Nat → List Nat} {s : HeapSys} {h : Heap}
  {handed : List Region}

theorem slabOrder_bounds (small : size ≤ orderToSize slabMaxOrder) :
    slabMinOrder ≤ slabOrder size ∧ slabOrder size ≤ slabMaxOrder ∧ size ≤ 2 ^ slabOrder size := by
  have bound : size < 2 ^ 65 := by
    have limit : orderToSize slabMaxOrder < 2 ^ 65 := by decide
    omega
  refine ⟨Nat.le_max_left _ _, ?_, ?_⟩
  · exact Nat.max_le.mpr ⟨by decide, sizeToOrder_le small bound⟩
  · exact (le_two_pow_sizeToOrder bound).trans
      (Nat.pow_le_pow_right (by decide) (Nat.le_max_right _ _))

theorem roundUpPage_lt (size : Nat) : roundUpPage size / buddyPageSize < 2 ^ 65 := by
  simp only [roundUpPage, buddyPageSize]
  omega

theorem le_kmallocOrder (fits : size + (buddyPageSize - 1) < 2 ^ 64) :
    size ≤ 2 ^ kmallocOrder size * buddyPageSize := by
  rw [kmallocOrder]
  split
  next onePage => simpa using onePage
  next =>
    have enough := le_two_pow_sizeToOrder (roundUpPage_lt size)
    rw [sizeToPageOrder]
    simp only [roundUpPage, buddyPageSize] at *
    omega

theorem fits_of_le_maxRequest (limit : size ≤ maxRequest) :
    size + (buddyPageSize - 1) < 2 ^ 64 := by
  simp only [maxRequest, buddyPageSize, buddyMaxOrder] at *
  omega

theorem HeapInv.owners_write (inv : HeapInv gs free s) {mem' : Nat → Nat}
    (within : ∀ w, mem' w ≠ s.heap.mem w →
      ∃ r ∈ s.handed, Inside (w, 1) (r.bytes s.heap.startAddr)) :
    HeapInv gs free ⟨{ s.heap with mem := mem' }, s.handed⟩ := by
  obtain ⟨zone, slabs, regions⟩ := inv
  refine ⟨zone, ⟨slabs.start, slabs.orders, slabs.slots, ?_, slabs.tagged, slabs.untagged⟩, regions⟩
  apply slabs.inMem.congr
  intro g slab a cell
  by_contra changed
  obtain ⟨r, member, inside⟩ := within a changed
  obtain ⟨header, slots⟩ := regions.apart_slab zone slabs rfl member slab
  simp only [Inside] at inside
  rcases slabCells_cases (slabs.orders g slab).1 cell with inHeader | listed
  · simp only [Apart] at header
    omega
  · have apart := slots a listed
    have positive := Nat.two_pow_pos g.2
    simp only [Apart] at apart
    omega

theorem pageIdx_pageToVirt (h : Heap) (page : Nat) : pageIdx h (pageToVirt h page) = page := by
  rw [pageIdx, pageToVirt, Nat.add_sub_cancel_left]
  exact Nat.mul_div_cancel _ (by decide)

variable {h' : Heap} {ptr : Nat}

theorem getPages_some {order : Nat} (result : ChCore.getPages h order = some (h', ptr)) :
    ∃ zone page, buddyGetPages h.zone order = some (zone, page) ∧
      h' = { h with zone := zone } ∧ ptr = pageToVirt h page := by
  obtain ⟨found, got, same⟩ := map_eq_some_iff.mp result
  cases same
  exact ⟨found.1, found.2, got, rfl, rfl⟩

theorem HeapInv.kmalloc (inv : HeapInv gs free ⟨h, handed⟩)
    (fits : size + (buddyPageSize - 1) < 2 ^ 64)
    (result : ChCore.kmalloc h size = some (h', ptr)) :
    h'.startAddr = h.startAddr ∧ (kmallocRegion h ptr size).addr h.startAddr = ptr ∧
      ∃ gs' free', HeapInv gs' free' ⟨h', kmallocRegion h ptr size :: handed⟩ := by
  rw [ChCore.kmalloc] at result
  rw [kmallocRegion]
  by_cases small : size ≤ orderToSize slabMaxOrder
  · rw [if_pos small, allocInSlab, if_neg (Nat.not_lt.mpr small)] at result
    obtain ⟨lower, upper, enough⟩ := slabOrder_bounds small
    obtain ⟨start, next⟩ := HeapInv.allocInSlabNolock lower upper enough 2 inv result
    rw [if_pos small]
    exact ⟨start, rfl, next⟩
  · rw [if_neg small] at result
    obtain ⟨zone, page, got, rfl, rfl⟩ := getPages_some result
    have below : kmallocOrder size < buddyMaxOrder := by
      by_contra large
      rw [buddyGetPages, if_pos (Nat.le_of_not_lt large)] at got
      cases got
    rw [if_neg small, pageIdx_pageToVirt]
    exact ⟨rfl, rfl, gs, free, inv.getPages got below (le_kmallocOrder fits) false⟩

theorem kmallocRegion_size (h : Heap) (ptr size : Nat) : (kmallocRegion h ptr size).size = size := by
  rw [kmallocRegion]
  split <;> rfl

theorem memsetZero_within {mem : Nat → Nat} {w : Nat}
    (changed : memsetZero mem ptr size w ≠ mem w) : ptr ≤ w ∧ w < ptr + size := by
  by_contra outside
  apply changed
  rw [memsetZero, if_neg]
  intro inside
  exact outside ⟨inside.1, inside.2.1⟩

theorem HeapInv.kzalloc (inv : HeapInv gs free ⟨h, handed⟩)
    (fits : size + (buddyPageSize - 1) < 2 ^ 64)
    (result : ChCore.kzalloc h size = some (h', ptr)) :
    ∃ gs' free', HeapInv gs' free' ⟨h', kmallocRegion h ptr size :: handed⟩ := by
  obtain ⟨found, got, same⟩ := map_eq_some_iff.mp result
  obtain ⟨start, address, gs', free', next⟩ := inv.kmalloc fits got
  cases same
  refine ⟨gs', free', next.owners_write ?_⟩
  intro w changed
  have inside := memsetZero_within changed
  have large := next.regions.large _ mem_cons_self
  rw [kmallocRegion_size] at large
  refine ⟨_, mem_cons_self, ?_⟩
  rw [Region.addr] at address
  simp only [start, Inside] at large ⊢
  omega

theorem addr_pages (h : Heap) (page order size : Nat) (byGetPages : Bool) :
    (Region.pages page order size byGetPages).addr h.startAddr = pageToVirt h page := rfl

theorem heapStep_inv (op : HeapOp) (inv : HeapInv gs free s) (call : heapCall s op) :
    ∃ gs' free', HeapInv gs' free' (heapStep s op) := by
  cases op with
  | kmalloc size =>
    rw [heapStep]
    cases result : ChCore.kmalloc s.heap size with
    | none => exact ⟨gs, free, inv⟩
    | some found => exact (inv.kmalloc (fits_of_le_maxRequest call.2) result).2.2
  | kzalloc size =>
    rw [heapStep]
    cases result : ChCore.kzalloc s.heap size with
    | none => exact ⟨gs, free, inv⟩
    | some found => exact inv.kzalloc (fits_of_le_maxRequest call.2) result
  | kfree r =>
    have front := inv.perm (perm_cons_erase call.1)
    rw [heapStep]
    cases r with
    | slot a o size =>
      obtain ⟨h', free', freed, next⟩ := front.freeInSlab
      exact ⟨gs, free', by simpa only [takeBack, Region.addr, Region.bytes, freed] using next⟩
    | pages page order size byGetPages =>
      obtain ⟨h', -, freed, next⟩ := front.freePages
      exact ⟨gs, free, by simpa only [takeBack, addr_pages, freed] using next⟩
  | getPages order =>
    rw [heapStep]
    cases result : ChCore.getPages s.heap order with
    | none => exact ⟨gs, free, inv⟩
    | some found =>
      obtain ⟨h', ptr⟩ := found
      obtain ⟨zone, page, got, rfl, rfl⟩ := getPages_some result
      refine ⟨gs, free, ?_⟩
      rw [handOut, pagesRegion, pageIdx_pageToVirt]
      exact inv.getPages got call (Nat.le_refl _) true
  | freePages r =>
    have front := inv.perm (perm_cons_erase call.1)
    rw [heapStep]
    cases r with
    | slot a o size => cases call.2
    | pages page order size byGetPages =>
      obtain ⟨h', freed, -, next⟩ := front.freePages
      exact ⟨gs, free, by simpa only [takeBack, addr_pages, freed] using next⟩
  | write addr value =>
    obtain ⟨-, r, member, inside⟩ := call
    refine ⟨gs, free, inv.owners_write ?_⟩
    intro w changed
    have here : w = addr := by
      by_contra other
      exact changed (update_of_ne other _ _)
    rw [here]
    exact ⟨r, member, inside.1, by have := inside.2; simp only at this ⊢; omega⟩

end Calls

/-! ## Whole runs -/

def Unserved (h : Heap) (size : Nat) : Prop :=
  if size ≤ orderToSize slabMaxOrder then
    buddyGetPages h.zone slabPageOrder = none ∧
      ∀ chain, Linked (fun a => h.mem (nextSlabAt a)) (h.slabs (slabOrder size)) chain →
        ∀ header ∈ chain, h.mem header = 0
  else buddyGetPages h.zone (kmallocOrder size) = none

/-- The length of the block at `ptr`, by the slab header of its page or else the page's order. -/
def blockLength (h : Heap) (ptr : Nat) : Nat :=
  let page := pageIdx h ptr
  if h.slabOf page ≠ 0 then 2 ^ h.mem (orderAt (h.slabOf page))
  else 2 ^ (h.zone.pages page).order * buddyPageSize

/-- The block `kmalloc` returns is large enough, in every state the calls keep. -/
def KmallocLarge (size : Nat) : Prop :=
  ∀ (gs : List (Nat × Nat)) (free : Nat → List Nat) (s : HeapSys) (h' : Heap) (ptr : Nat),
    HeapInv gs free s → kmalloc s.heap size = some (h', ptr) → size ≤ blockLength h' ptr

structure HeapExact (s : HeapSys) : Prop where
  apart : s.handed.Pairwise fun r q =>
    Apart (r.bytes s.heap.startAddr) (q.bytes s.heap.startAddr)
  large : ∀ r ∈ s.handed, r.size ≤ (r.bytes s.heap.startAddr).2
  slabs : ∀ o, slabMinOrder ≤ o → o ≤ slabMaxOrder →
    ∃ chain, Linked (fun a => s.heap.mem (nextSlabAt a)) (s.heap.slabs o) chain ∧
      ∀ header ∈ chain, ∃ free, Linked s.heap.mem (s.heap.mem header) free ∧
        ∀ r ∈ s.handed, Apart (r.bytes s.heap.startAddr) (header, slabHeaderSize) ∧
          ∀ slot ∈ free, Apart (r.bytes s.heap.startAddr) (slot, 2 ^ o)
  buddy : ∀ r ∈ s.handed, ∀ b ∈ freeBlocks s.heap.zone,
    Apart (r.bytes s.heap.startAddr) (blockBytes s.heap.startAddr b)
  tags : ∀ i, i < s.heap.zone.pageNum → (s.heap.slabOf i ≠ 0 ↔
    ∃ o chain header, slabMinOrder ≤ o ∧ o ≤ slabMaxOrder ∧
      Linked (fun a => s.heap.mem (nextSlabAt a)) (s.heap.slabs o) chain ∧ header ∈ chain ∧
      Inside (blockBytes s.heap.startAddr (i, 0)) (header, slabInitSize))
  route : ∀ r ∈ s.handed, ∃ page,
    virtToPage s.heap (r.addr s.heap.startAddr) = some page ∧
      (s.heap.slabOf page ≠ 0 ↔ r.isSlot = true)
  /-- A request fails only if the buddy allocator has no block for it, and no slab of its
  order a free slot. -/
  served : ∀ size, kmalloc s.heap size = none → Unserved s.heap size

section Exact
variable {gs : List (Nat × Nat)} {free : Nat → List Nat} {s : HeapSys}

theorem page_inside_slab (startAddr i : Nat) (g : Nat × Nat) :
    Inside (blockBytes startAddr (i, 0)) (slabBase startAddr g, slabInitSize) ↔
      inBlock (g.1, slabPageOrder) i := by
  rw [slabPageOrder_eq]
  simp only [Inside, blockBytes, slabBase, inBlock, buddyPageSize, slabInitSize]
  omega

section
variable (inv : HeapInv gs free s)
include inv

theorem HeapInv.tags (i : Nat) (below : i < s.heap.zone.pageNum) :
    s.heap.slabOf i ≠ 0 ↔ ∃ o chain header, slabMinOrder ≤ o ∧ o ≤ slabMaxOrder ∧
      Linked (fun a => s.heap.mem (nextSlabAt a)) (s.heap.slabs o) chain ∧ header ∈ chain ∧
      Inside (blockBytes s.heap.startAddr (i, 0)) (header, slabInitSize) := by
  constructor
  · intro tagged
    by_contra none
    apply tagged
    apply inv.slabs.untagged i below
    intro g slab inside
    obtain ⟨lower, upper⟩ := inv.slabs.orders g slab
    apply none
    exact ⟨g.2, _, slabBase s.heap.startAddr g, lower, upper, inv.slabs.inMem.chain g.2,
      List.mem_map.mpr ⟨g, mem_filter.mpr ⟨slab, by simp⟩, rfl⟩,
      (page_inside_slab _ i g).mpr inside⟩
  · intro found
    obtain ⟨o, chain, header, -, -, linked, member, inside⟩ := found
    rw [linked.unique (inv.slabs.inMem.chain o)] at member
    obtain ⟨g, filtered, rfl⟩ := List.mem_map.mp member
    have slab := mem_of_mem_filter filtered
    rw [inv.slabs.tagged g slab i ((page_inside_slab _ i g).mp inside)]
    exact (Nat.add_pos_left inv.slabs.start _).ne'

theorem HeapInv.route {r : Region} (member : r ∈ s.handed) :
    ∃ page, virtToPage s.heap (r.addr s.heap.startAddr) = some page ∧
      (s.heap.slabOf page ≠ 0 ↔ r.isSlot = true) := by
  cases r with
  | slot a o size =>
    obtain ⟨g, slab, -, slot, -⟩ := inv.regions.owned a o size member
    obtain ⟨onPage, tag⟩ := inv.slot_page slab slot
    refine ⟨_, onPage, ?_⟩
    rw [tag]
    exact iff_of_true (Nat.add_pos_left inv.slabs.start _).ne' rfl
  | pages page order size byGetPages =>
    obtain ⟨onPage, untagged⟩ := (inv.perm (perm_cons_erase member)).block_page
    exact ⟨page, onPage, iff_of_false (by simp [untagged]) Bool.false_ne_true⟩

/-- The metadata of a region that was handed out tells its length. -/
theorem HeapInv.blockLength_eq {r : Region} (member : r ∈ s.handed) :
    blockLength s.heap (r.addr s.heap.startAddr) = (r.bytes s.heap.startAddr).2 := by
  cases r with
  | slot a o size =>
    obtain ⟨g, slab, rfl, slot, -⟩ := inv.regions.owned a o size member
    have tag := (inv.slot_page slab slot).2
    have nonnull : slabBase s.heap.startAddr g ≠ 0 := (Nat.add_pos_left inv.slabs.start _).ne'
    simp only [blockLength, Region.addr, Region.bytes, tag, if_pos nonnull,
      inv.slabs.inMem.order g slab]
  | pages page order size byGetPages =>
    have untagged := (inv.perm (perm_cons_erase member)).block_page.2
    have marked := (inv.zone.marked _ member _ rfl).1
    rw [addr_pages, blockLength, pageIdx_pageToVirt, untagged, if_neg (by decide), marked]
    rfl

theorem HeapInv.served (failed : ChCore.kmalloc s.heap size = none) : Unserved s.heap size := by
  rw [ChCore.kmalloc] at failed
  rw [Unserved]
  by_cases small : size ≤ orderToSize slabMaxOrder
  · rw [if_pos small, allocInSlab, if_neg (Nat.not_lt.mpr small)] at failed
    obtain ⟨lower, upper, -⟩ := slabOrder_bounds small
    rw [if_pos small]
    exact inv.allocInSlab_none lower upper failed
  · rw [if_neg small] at failed
    rw [if_neg small]
    exact map_eq_none_iff.mp failed

theorem HeapInv.exact : HeapExact s := by
  refine ⟨inv.regions.apart, inv.regions.large, ?_, ?_, inv.tags, fun r => inv.route,
    fun size => inv.served⟩
  · intro o lower upper
    refine ⟨_, inv.slabs.inMem.chain o, ?_⟩
    intro header member
    obtain ⟨g, filtered, rfl⟩ := List.mem_map.mp member
    obtain ⟨slab, same⟩ := mem_filter.mp filtered
    have order : g.2 = o := by simpa using same
    refine ⟨free g.1, inv.slabs.inMem.list g slab, ?_⟩
    intro r given
    obtain ⟨first, slots⟩ := inv.regions.apart_slab inv.zone inv.slabs rfl given slab
    rw [order] at first slots
    refine ⟨first.mono ⟨Nat.le_refl _, Nat.le_refl _⟩ ⟨Nat.le_refl _, ?_⟩, slots⟩
    have large : 2 ^ slabMinOrder ≤ 2 ^ o := Nat.pow_le_pow_right (by decide) lower
    simp only [slabMinOrder, slabHeaderSize] at *
    omega
  · intro r given b block
    obtain ⟨c, used, inside⟩ := inv.regions.home given
    have pairs := (pairwise_append.mp inv.zone.pages.tiles.apart).2.2 b block c used
    exact ((blockBytes_apart s.heap.startAddr pairs).symm).mono inside
      ⟨Nat.le_refl _, Nat.le_refl _⟩

end

end Exact

def bootHeap (pageNum startAddr : Nat) (beyond : Nat → Page) (slabBeyond mem : Nat → Nat) :
    Heap :=
  { zone := initBuddy pageNum beyond
    startAddr := startAddr
    slabOf := fun i => if i < pageNum then 0 else slabBeyond i
    mem := mem
    slabs := fun _ => 0 }

theorem bootHeap_inv (pageNum : Nat) {startAddr : Nat} (beyond : Nat → Page) (slabBeyond mem : Nat → Nat)
    (unmarked : ∀ i, pageNum ≤ i → (beyond i).buddy = false) (nonnull : 0 < startAddr) :
    HeapInv [] (fun _ => []) ⟨bootHeap pageNum startAddr beyond slabBeyond mem, []⟩ := by
  have size := initBuddy_pageNum pageNum beyond
  refine ⟨⟨?_, by simp⟩, ⟨nonnull, by simp, by simp, ⟨by simp, by simp, fun o => rfl⟩, by simp,
    ?_⟩, by simp, List.Pairwise.nil, by simp⟩
  · simp only [bootHeap]
    rw [size]
    exact initBuddy_spec pageNum beyond unmarked
  · intro i below _
    simp only [bootHeap] at below ⊢
    rw [size] at below
    exact if_pos below

/-- `ROUND_UP` of a size within a page of `2 ^ 64` is 0, so one page is taken. -/
theorem kmallocOrder_wrapped (size64 : size < 2 ^ 64)
    (wraps : 2 ^ 64 ≤ size + (buddyPageSize - 1)) : kmallocOrder size = 0 := by
  have none : roundUpPage size / buddyPageSize = 0 := by
    simp only [roundUpPage, buddyPageSize] at *
    omega
  rw [kmallocOrder, sizeToPageOrder, none]
  split <;> rfl

def onePageHeap : Heap := bootHeap 1 4096 (fun _ => ⟨0, false, false⟩) (fun _ => 0) fun _ => 0

theorem getPages_onePageHeap :
    (getPages onePageHeap 0).map (fun r => (r.2, blockLength r.1 r.2)) = some (4096, 4096) := by
  decide +kernel

theorem kmalloc_largest_size : (kmalloc onePageHeap (2 ^ 64 - 1)).map
    (fun r => (r.2, blockLength r.1 r.2)) = some (4096, 4096) := by
  decide +kernel

theorem kmalloc_large_iff {size : Nat} (size64 : size < 2 ^ 64) :
    KmallocLarge size ↔ size + (buddyPageSize - 1) < 2 ^ 64 := by
  constructor
  · intro large
    by_contra wraps
    have order := kmallocOrder_wrapped size64 (Nat.le_of_not_lt wraps)
    have notSlab : ¬ size ≤ orderToSize slabMaxOrder := by
      simp only [orderToSize, slabMaxOrder, buddyPageSize] at *
      omega
    obtain ⟨r, got, length⟩ := map_eq_some_iff.mp getPages_onePageHeap
    have block := large [] _ ⟨onePageHeap, []⟩ r.1 r.2
      (bootHeap_inv 1 _ _ _ (fun _ _ => rfl) (by decide))
      (by rw [kmalloc, if_neg notSlab, order, got])
    rw [(Prod.mk.inj length).2] at block
    simp only [buddyPageSize] at *
    omega
  · intro fits gs free s h' ptr inv result
    obtain ⟨start, address, gs', free', next⟩ := inv.kmalloc fits result
    have length := next.blockLength_eq mem_cons_self
    have large := next.regions.large _ mem_cons_self
    simp only [start, address] at length
    simpa only [start, kmallocRegion_size, ← length] using large

theorem kmalloc_large_one_page : KmallocLarge 4096 :=
  (kmalloc_large_iff (by decide)).mpr (by decide)

/-- The heap after `init_buddy`, `init_slab` and any calls. -/
theorem heap_exact_of_calls (pageNum startAddr : Nat) (beyond : Nat → Page)
    (slabBeyond mem : Nat → Nat) (unmarked : ∀ i, pageNum ≤ i → (beyond i).buddy = false)
    (nonnull : 0 < startAddr) (h : Heap)
    (started : initSlab (bootHeap pageNum startAddr beyond slabBeyond mem) = some h)
    (ops : List HeapOp) (calls : RunMeets heapStep heapCall ⟨h, []⟩ ops) :
    HeapExact (ops.foldl heapStep ⟨h, []⟩) := by
  have boot := bootHeap_inv pageNum beyond slabBeyond mem unmarked nonnull
  have start := boot.initSlab (fun _ => rfl) started
  obtain ⟨gs, free, inv⟩ := run_invariant heapStep heapCall (fun s => ∃ gs free, HeapInv gs free s)
    (fun s op before call => by
      obtain ⟨gs, free, inv⟩ := before
      exact heapStep_inv op inv call)
    ops _ start calls
  exact inv.exact

/-! ## Zones that are large enough -/

section Enough

variable {z : GlobalMem}

def topOrder : Nat := buddyMaxOrder - 1

theorem MemInv.top_free {n : Nat} (inv : MemInv n z []) {q : Nat} (fits : q * 2 ^ topOrder ≤ n) :
    q ≤ (z.listOf topOrder).length := by
  have listed : (range q).map (fun i => i * 2 ^ topOrder) ⊆ z.listOf topOrder := by
    intro x member
    obtain ⟨i, inRange, rfl⟩ := List.mem_map.mp member
    have room : (i + 1) * 2 ^ topOrder ≤ q * 2 ^ topOrder :=
      Nat.mul_le_mul_right _ (mem_range.mp inRange)
    rw [Nat.add_mul] at room
    -- nothing is in use, so the pages lie in one free block
    have aligned : ∀ b ∈ freeBlocks z, 2 ^ b.2 ∣ b.1 := fun b free =>
      inv.tiles.aligned b (mem_append_left _ free)
    obtain ⟨b, free, large, contains⟩ := exists_tile aligned
      (fun i k low free buddy => inv.coalesced k low i ((mem_freeBlocks i k).mp free).2
        ((mem_freeBlocks _ k).mp buddy).2)
      topOrder (i * 2 ^ topOrder) (Nat.le_refl _) (Nat.dvd_mul_left _ _) fun x inside => by
        obtain ⟨b, member, inB⟩ := (inv.tiles.cover x).mp (by have := inside.2; simp only at this; omega)
        exact ⟨b, by simpa using member, inB⟩
    have order : b.2 = topOrder := by
      have below := ((mem_freeBlocks b.1 b.2).mp free).1
      simp only [topOrder, buddyMaxOrder] at *
      omega
    rw [eq_of_inBlock (aligned b free) (Nat.dvd_mul_left _ _) contains order] at free
    exact ((mem_freeBlocks _ _).mp free).2
  have nodup : ((range q).map fun i => i * 2 ^ topOrder).Nodup :=
    Nodup.map (fun i j => Nat.eq_of_mul_eq_mul_right (Nat.two_pow_pos topOrder)) nodup_range
  have count := (nodup.subperm listed).length_le
  rwa [length_map, length_range] at count

theorem split_length (page low k : Nat) : ∀ (high size : Nat) (z : GlobalMem),
    (z.listOf k).length ≤ ((split page low high size z).listOf k).length := by
  intro high
  induction high with
  | zero => intro size z; exact Nat.le_refl _
  | succ high ih =>
    intro size z
    rw [split]
    split
    · apply Nat.le_trans _ (ih _ _)
      by_cases same : k = high
      · simp [putFree, GlobalMem.listOf, same]
      · simp [putFree, GlobalMem.listOf, update_of_ne same]
    · exact Nat.le_refl _

/-- With a block of the largest order every request is served, and takes at most one such
block. -/
theorem buddyGetPages_of_top (order : Nat) (below : order < buddyMaxOrder)
    (top : z.listOf topOrder ≠ []) : ∃ found, buddyGetPages z order = some found ∧
      (z.listOf topOrder).length ≤ (found.1.listOf topOrder).length + 1 := by
  have loop : ∀ fuel current, current + fuel = buddyMaxOrder → current ≤ topOrder →
      ∃ found, allocPageLoop z order fuel current = some found ∧
        (z.listOf topOrder).length ≤ (found.1.listOf topOrder).length + 1 := by
    intro fuel
    induction fuel with
    | zero =>
      intro current sum bound
      simp only [topOrder, buddyMaxOrder] at *
      omega
    | succ fuel ih =>
      intro current sum bound
      rw [allocPageLoop]
      cases list : z.listOf current with
      | nil =>
        have lower : current ≠ topOrder := by
          rintro rfl
          exact top list
        exact ih (current + 1) (by omega) (by omega)
      | cons page rest =>
        refine ⟨_, rfl, ?_⟩
        have taken : ((takeFree z page current).listOf topOrder).length =
            ((z.listOf topOrder).erase page).length := rfl
        have erased := length_erase (l := z.listOf topOrder) (a := page)
        have spread := split_length page order topOrder current (2 ^ current)
          (takeFree z page current)
        change (z.listOf topOrder).length ≤ ((split page order current (2 ^ current)
          (takeFree z page current)).listOf topOrder).length + 1
        split at erased <;> omega
  rw [buddyGetPages, if_neg (by omega), allocPage]
  apply loop
  · omega
  · simp only [topOrder]
    omega

/-- Seven blocks of the largest order are enough for `init_slab`. -/
theorem initSlab_of_top {h : Heap} (room : 7 ≤ (h.zone.listOf topOrder).length) :
    ∃ h', initSlab h = some h' := by
  have loop : ∀ (orders : List Nat) (h : Heap), orders.length ≤ (h.zone.listOf topOrder).length →
      ∃ h', orders.foldlM (fun h order => (initSlabCache h order slabInitSize).map fun r =>
        { r.1 with slabs := update r.1.slabs order r.2 }) h = some h' := by
    intro orders
    induction orders with
    | nil => intro h _; exact ⟨h, rfl⟩
    | cons order rest ih =>
      intro h room
      rw [length_cons] at room
      have nonempty : h.zone.listOf topOrder ≠ [] := by
        intro empty
        rw [empty] at room
        simp at room
      obtain ⟨found, got, fewer⟩ := buddyGetPages_of_top slabPageOrder (by decide) nonempty
      rw [foldlM_cons, initSlabCache_eq, got]
      apply ih
      simp only
      omega
  exact loop _ h room

theorem initSlab_bootHeap (pageNum startAddr : Nat) (beyond : Nat → Page)
    (slabBeyond mem : Nat → Nat) (unmarked : ∀ i, pageNum ≤ i → (beyond i).buddy = false)
    (room : 7 * 2 ^ topOrder ≤ pageNum) :
    ∃ h, initSlab (bootHeap pageNum startAddr beyond slabBeyond mem) = some h :=
  initSlab_of_top ((initBuddy_spec pageNum beyond unmarked).top_free room)

end Enough

/-- A zone of 256 MB with any contents: a slot, a cleared slot and some pages. -/
theorem heap_exact_large_zone : ∃ h,
    initSlab (bootHeap (2 ^ 16) 0x80000000 (fun _ => ⟨0, false, false⟩) (fun _ => 7) id) = some h ∧
    HeapExact ([HeapOp.kmalloc 100, .kzalloc 2048, .getPages 3, .kmalloc 8192].foldl heapStep
      ⟨h, []⟩) := by
  obtain ⟨h, started⟩ := initSlab_bootHeap (2 ^ 16) 0x80000000
    (fun _ => ⟨0, false, false⟩) (fun _ => 7) id (fun _ _ => rfl) (by decide)
  refine ⟨h, started, ?_⟩
  apply heap_exact_of_calls (2 ^ 16) 0x80000000 _ _ _ (fun _ _ => rfl) (by decide) h started
  refine ⟨?_, ?_, ?_, ?_, trivial⟩
  · exact ⟨by decide, by decide⟩
  · exact ⟨by decide, by decide⟩
  · exact (by decide : 3 < buddyMaxOrder)
  · exact ⟨by decide, by decide⟩

/-! ## Metadata behind the array that looks like a free page -/

theorem takeFree_putFree {z : GlobalMem} {i : Nat} (k : Nat)
    (blank : z.pages i = ⟨0, false, false⟩) (unlisted : ∀ j, i ∉ z.listOf j) :
    takeFree (putFree z i k) i k = z := by
  have pages : (takeFree (putFree z i k) i k).pages = z.pages := by
    simp only [takeFree, putFree, setPage, update_self, update_idem, blank]
    exact update_eq_self_iff.mpr blank.symm
  have lists : (takeFree (putFree z i k) i k).freeLists = z.freeLists := by
    funext j
    by_cases same : j = k
    · subst same
      simp [takeFree, putFree, GlobalMem.listOf]
    · have erased := erase_of_not_mem (unlisted j)
      simp only [GlobalMem.listOf] at erased
      simp [takeFree, putFree, GlobalMem.listOf, same, erased]
  rw [takeFree] at pages lists ⊢
  exact congrArg₂ (GlobalMem.mk z.pageNum) pages lists

/-- `buddy_free_pages` from the block `(page, order)` on, all of whose pages are free. -/
def freeBlock (z : GlobalMem) (page order : Nat) : GlobalMem :=
  let merged := mergeLoop (buddyMaxOrder - order) z page order
  putFree merged.1 merged.2.1 merged.2.2

theorem foldl_free_block (k : Nat) : ∀ (a : Nat) (z : GlobalMem), k < buddyMaxOrder → 2 ^ k ∣ a →
    (∀ i, inBlock (a, k) i → z.pages i = ⟨0, false, false⟩ ∧ ∀ j, i ∉ z.listOf j) →
    (range' a (2 ^ k)).foldl buddyFreePages z = freeBlock z a k := by
  induction k with
  | zero =>
    intro a z _ _ fresh
    have blank := (fresh a (inBlock_start (a, 0))).1
    have same : setPage z a { z.pages a with head := false } = z := by
      rw [setPage, blank, ← blank, update_eq_self]
    change buddyFreePages z a = _
    rw [buddyFreePages, same, blank]
    rfl
  | succ k ih =>
    intro a z below whole fresh
    have half : 2 ^ k ∣ a := (pow_dvd_pow 2 (Nat.le_succ k)).trans whole
    have fuel : buddyMaxOrder - k = buddyMaxOrder - (k + 1) + 1 := by omega
    have high := xor_two_pow_of_low whole
    have positive := Nat.two_pow_pos k
    have lower : k < buddyMaxOrder - 1 := by omega
    obtain ⟨blank, unlisted⟩ := fresh a (inBlock_start (a, k + 1))
    -- the lower half stays apart, as its buddy is still in use
    have first : (range' a (2 ^ k)).foldl buddyFreePages z = putFree z a k := by
      rw [ih a z (by omega) half fun i low => fresh i ((inBlock_halves a k i).mpr (.inl low))]
      have blank' := (fresh (a + 2 ^ k) ((inBlock_halves a k _).mpr (.inr (inBlock_start _)))).1
      have unmarked : checkBuddy (z.pages (a + 2 ^ k)) k = false := by rw [blank']; rfl
      rw [freeBlock, fuel, mergeLoop, if_pos lower, high]
      simp only [unmarked, Bool.false_eq_true, if_false]
    rw [pow_succ, Nat.mul_two, ← range'_append_1, foldl_append, first]
    rw [ih (a + 2 ^ k) (putFree z a k) (by omega) (Nat.dvd_add half (Nat.dvd_refl _)) ?_]
    · have back : (a + 2 ^ k) ^^^ 2 ^ k = a := by
        rw [← high, Nat.xor_assoc, Nat.xor_self, Nat.xor_zero]
      have merged : Nat.ldiff (a + 2 ^ k) (2 ^ k) = a := by
        rcases low_or_high (Nat.dvd_add half (Nat.dvd_refl (2 ^ k))) with
          ⟨-, up, -⟩ | ⟨low, start, -, -, down⟩ <;> omega
      have marked : checkBuddy ((putFree z a k).pages a) k = true := by
        simp [checkBuddy, putFree, setPage]
      rw [freeBlock, fuel, mergeLoop, if_pos lower, back]
      simp only [marked, if_true, merged, takeFree_putFree k blank unlisted]
      rfl
    · intro i inHigh
      obtain ⟨blank', unlisted'⟩ := fresh i ((inBlock_halves a k i).mpr (.inr inHigh))
      have other : i ≠ a := by
        have := inHigh.1
        simp only at this
        omega
      refine ⟨by simpa [putFree, setPage, update_of_ne other] using blank', fun j listed => ?_⟩
      have old := unlisted' j
      by_cases same : j = k
      · subst same
        simp_all [putFree, GlobalMem.listOf]
      · simp_all [putFree, GlobalMem.listOf]

/-- 8193 pages; the words behind the metadata look like a free page, with a `slab` field. -/
def strayHeap : Heap :=
  bootHeap 8193 4096 (fun i => ⟨0, false, i == 8193⟩) (fun _ => 1) fun _ => 0

theorem strayHeap_eq : strayHeap = { strayHeap with
    zone := buddyFreePages (putFree (zeroedMem 8193 fun i => ⟨0, false, i == 8193⟩) 0 13) 8192 } := by
  simp only [strayHeap, bootHeap]
  rw [initBuddy, range_succ, foldl_append, range_eq_range', show 8192 = 2 ^ 13 from rfl,
    foldl_free_block 13 0 _ (by decide) (Nat.dvd_zero _) ?_]
  · rfl
  · intro i inside
    have below := inside.2
    simp only at below
    exact ⟨if_pos (by omega), fun j => by simp [zeroedMem, GlobalMem.listOf]⟩

/-- The last page is merged with the one behind it; `kmalloc` hands that one out too and
`kfree` would take it for a slot. -/
theorem heap_not_exact_stray_page : ∃ h, initSlab strayHeap = some h ∧
    RunMeets heapStep heapCall ⟨h, []⟩ [.kmalloc 4096, .kmalloc 4096] ∧
    ¬ HeapExact ([HeapOp.kmalloc 4096, .kmalloc 4096].foldl heapStep ⟨h, []⟩) := by
  have run : (initSlab strayHeap).map (fun h =>
      let s := [HeapOp.kmalloc 4096, .kmalloc 4096].foldl heapStep ⟨h, []⟩
      (s.handed.head?, virtToPage s.heap (4096 + 8193 * 4096), s.heap.slabOf 8193,
        s.heap.startAddr)) =
      some (some (.pages 8193 0 4096 false), some 8193, 1, 4096) := by
    rw [strayHeap_eq]
    decide +kernel
  obtain ⟨h, started, facts⟩ := map_eq_some_iff.mp run
  refine ⟨h, started, by simp [RunMeets, heapCall, maxRequest, buddyMaxOrder, buddyPageSize], ?_⟩
  intro exact
  simp only [Prod.mk.injEq] at facts
  obtain ⟨first, onPage, tag, start⟩ := facts
  obtain ⟨page, found, routed⟩ := exact.route _ (mem_of_mem_head? first)
  rw [start] at found
  cases onPage.symm.trans found
  rw [tag] at routed
  exact Bool.false_ne_true (routed.mp (by decide))

end KernelLabs.ChCore
