import KernelLabs.Lib.LinkedList
import KernelLabs.ChCore.Common.Bitops
import KernelLabs.ChCore.Mm.Buddy

/-!
# The kernel heap

Model of `kernel/mm/slab.c` and `kernel/mm/kmalloc.c` over the buddy allocator.  The memory
the zone manages is read and written in 64-bit words, named by their address; slab headers
and the links between free slots stand in it, next to whatever the owners of the handed-out
regions write.  `page->slab` is kept in `slabOf` beside the other page metadata.  A null
pointer is address 0, and `none` is an allocation that runs out of memory or a `BUG_ON`.
-/

set_option autoImplicit false

namespace KernelLabs.ChCore

open Lib Function

def buddyPageSize : Nat := 4096

def slabInitSize : Nat := 2 * 1024 * 1024

def slabMinOrder : Nat := 5

def slabMaxOrder : Nat := 11

/-- `while (tmp > 1) { tmp >>= 1; order += 1; }` on a 64-bit number. -/
def orderLoop : Nat → Nat → Nat → Nat
  | 0, _, order => order
  | fuel + 1, tmp, order => if 1 < tmp then orderLoop fuel (tmp / 2) (order + 1) else order

def sizeToOrder (size : Nat) : Nat :=
  let order := orderLoop 64 size 0
  if 2 ^ order < size then order + 1 else order

def orderToSize (order : Nat) : Nat := 2 ^ order

structure Heap where
  zone : GlobalMem
  startAddr : Nat
  slabOf : Nat → Nat
  mem : Nat → Nat
  slabs : Nat → Nat

def pageToVirt (h : Heap) (page : Nat) : Nat := h.startAddr + page * buddyPageSize

def pageIdx (h : Heap) (addr : Nat) : Nat := (addr - h.startAddr) / buddyPageSize

/-- `virt_to_page`; outside the zone it is a bug. -/
def virtToPage (h : Heap) (addr : Nat) : Option Nat :=
  if addr < h.startAddr ∨ h.startAddr + h.zone.pageNum * buddyPageSize < addr then none
  else some (pageIdx h addr)

def Heap.store (h : Heap) (addr value : Nat) : Heap :=
  { h with mem := update h.mem addr value }

@[simp]
theorem Heap.store_mem (h : Heap) (addr value : Nat) :
    (h.store addr value).mem = update h.mem addr value := rfl

/-- `free_list_head`, `next_slab` and `order` of a slab header. -/
def nextSlabAt (slab : Nat) : Nat := slab + 8
def orderAt (slab : Nat) : Nat := slab + 16
def slabHeaderSize : Nat := 24

/-- The loop that sets `page->slab` of the pages of a new slab. -/
def tagPages (h : Heap) (addr : Nat) : Nat → Nat → Nat
  | 0 => h.slabOf
  | i + 1 =>
    update (tagPages h addr i) (pageIdx h (addr + i * buddyPageSize)) addr

def allocSlabMemory (h : Heap) (size : Nat) : Option (Heap × Nat) :=
  let order := sizeToOrder (size / buddyPageSize)
  (buddyGetPages h.zone order).map fun r =>
    let addr := pageToVirt h r.2
    ({ h with zone := r.1, slabOf := tagPages h addr (orderToSize order) }, addr)

/-- The loop of `init_slab_cache` that links the slots, with the null link of the last one. -/
def linkSlots (objSize : Nat) : Nat → Nat → (Nat → Nat) → Nat → Nat
  | 0, slot, mem => update mem slot 0
  | i + 1, slot, mem =>
    linkSlots objSize i (slot + objSize) (update mem slot (slot + objSize))

def initSlabCache (h : Heap) (order size : Nat) : Option (Heap × Nat) :=
  (allocSlabMemory h size).map fun r =>
    let addr := r.2
    let objSize := orderToSize order
    -- the first slot is used as metadata
    let cnt := size / objSize - 1
    let h := ((r.1.store addr (addr + objSize)).store (nextSlabAt addr) 0).store
      (orderAt addr) order
    ({ h with mem := linkSlots objSize (cnt - 1) (addr + objSize) h.mem }, addr)

/-- The walk along `next_slab` to the first slab with a free slot. -/
def slabWithFree (mem : Nat → Nat) : Nat → Nat → Option Nat
  | 0, _ => none
  | fuel + 1, slab =>
    if slab = 0 then none
    else if mem slab = 0 then slabWithFree mem fuel (mem (nextSlabAt slab))
    else some slab

def takeSlot (h : Heap) (slab : Nat) : Heap × Nat :=
  (h.store slab (h.mem (h.mem slab)), h.mem slab)

/-- `_alloc_in_slab_nolock`; `depth` bounds the recursion after a new slab was made.  A zone
of `pageNum` pages has at most that many slabs to walk along. -/
def allocInSlabNolock : Nat → Heap → Nat → Nat → Option (Heap × Nat)
  | 0, _, _, _ => none
  | depth + 1, h, slabHeader, order =>
    match slabWithFree h.mem (h.zone.pageNum + 1) slabHeader with
    | some slab => some (takeSlot h slab)
    | none =>
      (initSlabCache h order slabInitSize).bind fun r =>
        let h := r.1.store (nextSlabAt r.2) slabHeader
        allocInSlabNolock depth { h with slabs := update h.slabs order r.2 } r.2
          order

def slabOrder (size : Nat) : Nat := max slabMinOrder (sizeToOrder size)

def allocInSlab (h : Heap) (size : Nat) : Option (Heap × Nat) :=
  if orderToSize slabMaxOrder < size then none
  else allocInSlabNolock 2 h (h.slabs (slabOrder size)) (slabOrder size)

def freeInSlab (h : Heap) (addr : Nat) : Option Heap :=
  (virtToPage h addr).map fun page =>
    let slab := h.slabOf page
    (h.store addr (h.mem slab)).store slab addr

def initSlab (h : Heap) : Option Heap :=
  ((List.range (slabMaxOrder + 1)).drop slabMinOrder).foldlM (fun h order =>
    (initSlabCache h order slabInitSize).map fun r =>
      { r.1 with slabs := update r.1.slabs order r.2 }) h

def roundUpPage (x : Nat) : Nat :=
  (x + (buddyPageSize - 1)) % 2 ^ 64 / buddyPageSize * buddyPageSize

def sizeToPageOrder (size : Nat) : Nat :=
  sizeToOrder (roundUpPage size / buddyPageSize)

def kmallocOrder (size : Nat) : Nat :=
  if size ≤ buddyPageSize then 0 else sizeToPageOrder size

def getPages (h : Heap) (order : Nat) : Option (Heap × Nat) :=
  (buddyGetPages h.zone order).map fun r => ({ h with zone := r.1 }, pageToVirt h r.2)

def kmalloc (h : Heap) (size : Nat) : Option (Heap × Nat) :=
  if size ≤ orderToSize slabMaxOrder then allocInSlab h size
  else getPages h (kmallocOrder size)

/-- `memset(ptr, 0, size)`: whole words become 0, the last one loses its low bytes. -/
def memsetZero (mem : Nat → Nat) (ptr size : Nat) : Nat → Nat := fun addr =>
  if ptr ≤ addr ∧ addr < ptr + size ∧ (addr - ptr) % 8 = 0 then
    let bytes := min 8 (ptr + size - addr)
    if bytes = 8 then 0 else mem addr / 2 ^ (8 * bytes) * 2 ^ (8 * bytes)
  else mem addr

def kzalloc (h : Heap) (size : Nat) : Option (Heap × Nat) :=
  (kmalloc h size).map fun r => ({ r.1 with mem := memsetZero r.1.mem r.2 size }, r.2)

def freePages (h : Heap) (addr : Nat) : Option Heap :=
  (virtToPage h addr).map fun page => { h with zone := buddyFreePages h.zone page }

def kfree (h : Heap) (ptr : Nat) : Option Heap :=
  (virtToPage h ptr).bind fun page =>
    if h.slabOf page ≠ 0 then freeInSlab h ptr else freePages h ptr

end KernelLabs.ChCore
