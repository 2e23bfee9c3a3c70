import KernelLabs.Lib.RadixTree
import Mathlib.Algebra.Group.Nat.Defs

/-!
# Page tables (aarch64, four levels)

Model of `kernel/arch/aarch64/mm/page_table.c`.  Physical memory is seen by frame: the
entry `i` of the table page in frame `f` is `mem f i`, and a pointer to a table page is
the frame it points to (`phys_to_virt` is a bijection).  The pointer that is NULL
belongs to the frame at physical address `2 ^ 40`.  `get_pages(0)` takes the next frame
of a list of free ones.  A `BUG_ON` that fires is `none`.
-/

set_option autoImplicit false

namespace KernelLabs.ChCore

open Lib

/-- `pte_t` in its `l3_page` layout.  `is_table` and `is_page` are the same bit, and
`next_table_addr` of the `table` layout is the same field as `pfn`. -/
structure Pte where
  isValid : Bool
  isTable : Bool
  attrIndex : BitVec 3
  ns : Bool
  ap : BitVec 2
  sh : BitVec 2
  af : Bool
  nG : Bool
  pfn : BitVec 36
  reserved : BitVec 3
  dbm : Bool
  contiguous : Bool
  pxn : Bool
  uxn : Bool
  softReserved : BitVec 4
  pbha : BitVec 4
  ignored : Bool
  deriving DecidableEq, Repr

def invalidPte : Pte :=
  { isValid := false, isTable := false, attrIndex := 0, ns := false, ap := 0, sh := 0, af := false,
    nG := false, pfn := 0, reserved := 0, dbm := false, contiguous := false, pxn := false,
    uxn := false, softReserved := 0, pbha := 0, ignored := false }

def vmrWrite : Nat := 1

def vmrExec : Nat := 2

def vmrDevice : Nat := 3

/-- `set_pte_flags` for a user entry; the flags are tested bit by bit. -/
def setPteFlags (entry : Pte) (flags : Nat) : Pte :=
  { entry with
    ap := if flags.testBit vmrWrite then 1 else 3
    uxn := !flags.testBit vmrExec
    pxn := true
    af := true
    sh := 3
    attrIndex := if flags.testBit vmrDevice then 0 else 4 }

abbrev PtMem := Nat → Nat → Pte

structure PtState where
  mem : PtMem
  free : List Nat

def pageSize : Nat := 4096

def ptpEntries : Nat := 512

/-- The frame whose `phys_to_virt` address is 0. -/
def nullFrame : Nat := 2 ^ 28

def levelShift : Nat → Nat
  | 0 => 39
  | 1 => 30
  | 2 => 21
  | _ => 12

def ptIndex (level va : Nat) : Nat := va / 2 ^ levelShift level % ptpEntries

/-- What `get_next_ptp` returns: `-ENOMAPPING`, or `NORMAL_PTP` or `BLOCK_PTP` with the
frame the entry points to. -/
inductive NextPtp where
  | noMapping
  | normal (next : Nat)
  | block (next : Nat)
  deriving DecidableEq, Repr

def getNextPtp (mem : PtMem) (cur level va : Nat) : NextPtp :=
  if cur = nullFrame then .noMapping
  else
    let entry := mem cur (ptIndex level va)
    if entry.isValid = false then .noMapping
    else if entry.isTable then .normal entry.pfn.toNat
    else .block entry.pfn.toNat

def tablePte (frame : Nat) : Pte :=
  { invalidPte with isValid := true, isTable := true, pfn := BitVec.ofNat 36 frame }

def getNextPtpAlloc (s : PtState) (cur level va : Nat) : Option (PtState × NextPtp) :=
  if cur ≠ nullFrame ∧ (s.mem cur (ptIndex level va)).isValid = false then
    match s.free with
    | [] => none
    | new :: free =>
      let mem := setEntry (fillTable s.mem new invalidPte) cur (ptIndex level va) (tablePte new)
      some ({ mem := mem, free := free }, getNextPtp mem cur level va)
  else some (s, getNextPtp s.mem cur level va)

structure Translation where
  pa : Nat
  frame : Nat
  index : Nat
  entry : Pte
  deriving DecidableEq, Repr

def translation (mem : PtMem) (ptp level va next : Nat) : Translation :=
  { pa := next * pageSize + va % 2 ^ levelShift level
    frame := ptp
    index := ptIndex level va
    entry := mem ptp (ptIndex level va) }

/-- `query_in_pgtbl`; `none` is `-ENOMAPPING`.  A block entry is not looked for on level
0, and on level 3 every valid entry is a page. -/
def queryInPgtbl (mem : PtMem) (pgtbl va : Nat) : Option Translation :=
  match getNextPtp mem pgtbl 0 va with
  | .noMapping => none
  | .normal l1 | .block l1 =>
    match getNextPtp mem l1 1 va with
    | .noMapping => none
    | .block next => some (translation mem l1 1 va next)
    | .normal l2 =>
      match getNextPtp mem l2 2 va with
      | .noMapping => none
      | .block next => some (translation mem l2 2 va next)
      | .normal l3 =>
        match getNextPtp mem l3 3 va with
        | .noMapping => none
        | .normal next | .block next => some (translation mem l3 3 va next)

def pagePte (pa flags : Nat) : Pte :=
  setPteFlags { invalidPte with
    isValid := true, isTable := true, pfn := BitVec.ofNat 36 (pa / pageSize) } flags

def addU64 (x y : Nat) : Nat := (x + y) % 2 ^ 64

structure Cursor where
  mem : PtMem
  va : Nat
  pa : Nat
  left : Nat

def mapEntries (l3 flags : Nat) : Nat → Nat → Cursor → Cursor
  | 0, _, c => c
  | fuel + 1, i, c =>
    let c' : Cursor :=
      { mem := setEntry c.mem l3 i (pagePte c.pa flags)
        va := addU64 c.va pageSize
        pa := addU64 c.pa pageSize
        left := c.left - 1 }
    if c'.left = 0 then c' else mapEntries l3 flags fuel (i + 1) c'

def ensureTables (s : PtState) (pgtbl va : Nat) : Option (PtState × Nat) :=
  match getNextPtpAlloc s pgtbl 0 va with
  | some (s, .normal l1) =>
    match getNextPtpAlloc s l1 1 va with
    | some (s, .normal l2) =>
      match getNextPtpAlloc s l2 2 va with
      | some (s, .normal l3) => some (s, l3)
      | _ => none
    | _ => none
  | _ => none

def mapLoop (pgtbl flags : Nat) : Nat → PtState → Nat → Nat → Nat → Option PtState
  | 0, s, _, _, left => if left = 0 then some s else none
  | fuel + 1, s, va, pa, left =>
    if left = 0 then some s
    else
      match ensureTables s pgtbl va with
      | none => none
      | some (s, l3) =>
        let c := mapEntries l3 flags (ptpEntries - ptIndex 3 va) (ptIndex 3 va)
          { mem := s.mem, va := va, pa := pa, left := left }
        mapLoop pgtbl flags fuel { s with mem := c.mem } c.va c.pa c.left

def pageCount (len : Nat) : Nat := len / pageSize + if len % pageSize > 0 then 1 else 0

def mapRangeInPgtbl (s : PtState) (pgtbl va pa len flags : Nat) : Option PtState :=
  if pgtbl = nullFrame then none
  else mapLoop pgtbl flags (pageCount len) s va pa (pageCount len)

/-! ## Unmapping and protecting -/

/-- The `for` loop over the entries of one table, with `change` done to each entry. -/
def changeEntries (change : Pte → Pte) (l3 : Nat) : Nat → Nat → PtMem → Nat → Nat →
    PtMem × Nat × Nat
  | 0, _, mem, va, left => (mem, va, left)
  | fuel + 1, i, mem, va, left =>
    let mem := setEntry mem l3 i (change (mem l3 i))
    if left - 1 = 0 then (mem, addU64 va pageSize, 0)
    else changeEntries change l3 fuel (i + 1) mem (addU64 va pageSize) (left - 1)

def perEntryPages : Nat → Nat
  | 0 => 2 ^ 27
  | 1 => 2 ^ 18
  | _ => 2 ^ 9

/-- The `while` loop of `unmap_range_in_pgtbl` and `mprotect_in_pgtbl`.  Where a table is missing it
moves on by a whole entry of that level.  `total_page_cnt` is signed in the source; it stops at 0
here. -/
def changeLoop (change : Pte → Pte) (pgtbl : Nat) : Nat → PtMem → Nat → Nat → PtMem
  | 0, mem, _, _ => mem
  | fuel + 1, mem, va, left =>
    let skip (level : Nat) : PtMem :=
      changeLoop change pgtbl fuel mem (addU64 va (perEntryPages level * pageSize))
        (left - perEntryPages level)
    if left = 0 then mem
    else
      match getNextPtp mem pgtbl 0 va with
      | .noMapping => skip 0
      | .normal l1 | .block l1 =>
        match getNextPtp mem l1 1 va with
        | .noMapping => skip 1
        | .normal l2 | .block l2 =>
          match getNextPtp mem l2 2 va with
          | .noMapping => skip 2
          | .normal l3 | .block l3 =>
            let (mem, va, left) :=
              changeEntries change l3 (ptpEntries - ptIndex 3 va) (ptIndex 3 va) mem va left
            changeLoop change pgtbl fuel mem va left

def changeRange (change : Pte → Pte) (mem : PtMem) (pgtbl va len : Nat) : PtMem :=
  if pgtbl = nullFrame then mem
  else changeLoop change pgtbl (pageCount len) mem va (pageCount len)

def clearPte (_ : Pte) : Pte := invalidPte

def protectPte (flags : Nat) (entry : Pte) : Pte :=
  if entry.isValid then setPteFlags entry flags else entry

def unmapRangeInPgtbl (mem : PtMem) (pgtbl va len : Nat) : PtMem :=
  changeRange clearPte mem pgtbl va len

def mprotectInPgtbl (mem : PtMem) (pgtbl va len flags : Nat) : PtMem :=
  changeRange (protectPte flags) mem pgtbl va len

end KernelLabs.ChCore
