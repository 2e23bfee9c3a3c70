import Mathlib.Data.List.Basic
import Mathlib.Data.Nat.Basic

/-!
# File contents in tmpfs

Model of `tfs_file_write`, `tfs_file_read`, `tfs_truncate` and `tfs_allocate`
(`user/tmpfs/util.c`) on a regular inode.  The radix tree is the map from page numbers to
pages that it implements, and a page is the function from its offsets to its bytes.  `mem`
is what `aligned_alloc` or `malloc` returns for the page that gets a number: `none` for
NULL, otherwise a page with any contents; the nodes of the radix tree themselves are always
allocated.  Offsets and sizes are below `2 ^ 63`, so no sum of them overflows.  A `BUG_ON`
that fires is `none`.
-/

set_option autoImplicit false

namespace KernelLabs.ChCore

open Function

abbrev FilePage := Nat → UInt8

abbrev FileData := Nat → Option FilePage

def tfsPageSize : Nat := 0x1000

/-- The fields of `struct inode` that the contents of a regular file depend on. -/
structure Inode where
  size : Nat
  data : FileData

def newReg : Inode := { size := 0, data := fun _ => none }

def copyToPage (page : FilePage) (off : Nat) (bytes : List UInt8) : FilePage :=
  fun i => if off ≤ i ∧ i < off + bytes.length then bytes.getD (i - off) 0 else page i

def zeroOut (page : FilePage) (off n : Nat) : FilePage :=
  fun i => if off ≤ i ∧ i < off + n then 0 else page i

structure Written where
  data : FileData
  curOff : Nat
  complete : Bool

/-- The loop of `tfs_file_write`.  Every round writes a byte. -/
def writeLoop (mem : FileData) : Nat → FileData → Nat → List UInt8 → Written
  | 0, data, curOff, bytes => ⟨data, curOff, bytes.isEmpty⟩
  | fuel + 1, data, curOff, bytes =>
    if bytes.isEmpty then ⟨data, curOff, true⟩
    else
      match (data (curOff / tfsPageSize)).or (mem (curOff / tfsPageSize)) with
      | none => ⟨data, curOff, false⟩
      | some page =>
        let pageOff := curOff % tfsPageSize
        let toWrite := min bytes.length (tfsPageSize - pageOff)
        writeLoop mem fuel
          (update data (curOff / tfsPageSize)
            (some (copyToPage page pageOff (bytes.take toWrite))))
          (curOff + toWrite) (bytes.drop toWrite)

def zeroTail (data : FileData) (curOff : Nat) : FileData :=
  if curOff % tfsPageSize ≠ 0 then
    update data (curOff / tfsPageSize) ((data (curOff / tfsPageSize)).map fun page =>
      zeroOut page (curOff % tfsPageSize) (tfsPageSize - curOff % tfsPageSize))
  else data

def tfsFileWrite (inode : Inode) (offset : Nat) (bytes : List UInt8) (mem : FileData) :
    Option (Inode × Nat) :=
  if inode.size < offset then none
  else
    let w := writeLoop mem bytes.length inode.data offset bytes
    if w.complete = false then some ({ inode with data := w.data }, w.curOff - offset)
    else if inode.size < w.curOff then
      some ({ size := w.curOff, data := zeroTail w.data w.curOff }, w.curOff - offset)
    else some ({ inode with data := w.data }, w.curOff - offset)

/-- One round of `tfs_file_read`: zeros for a hole, the bytes of the page otherwise. -/
def readChunk (data : FileData) (curOff toRead : Nat) : List UInt8 :=
  match data (curOff / tfsPageSize) with
  | none => List.replicate toRead 0
  | some page => (List.range toRead).map fun j => page (curOff % tfsPageSize + j)

def readLoop (data : FileData) (isize : Nat) : Nat → Nat → Nat → List UInt8 × Nat
  | 0, curOff, _ => ([], curOff)
  | fuel + 1, curOff, size =>
    if 0 < size ∧ curOff ≤ isize then
      let toRead := min size (tfsPageSize - curOff % tfsPageSize)
      let rest := readLoop data isize fuel (curOff + toRead) (size - toRead)
      (readChunk data curOff toRead ++ rest.1, rest.2)
    else ([], curOff)

def tfsFileRead (inode : Inode) (offset size : Nat) : List UInt8 × Nat :=
  if inode.size ≤ offset then ([], 0)
  else
    let size := min (inode.size - offset) size
    let r := readLoop inode.data inode.size size offset size
    (r.1, r.2 - offset)

def deleteLoop (isize : Nat) : Nat → FileData → Nat → FileData
  | 0, data, _ => data
  | fuel + 1, data, curOff =>
    if curOff < isize then
      deleteLoop isize fuel (update data (curOff / tfsPageSize) none)
        (curOff + tfsPageSize)
    else data

/-- The start of a shrinking `tfs_truncate`: the end of the last page is zeroed, if the page
is there. -/
def truncatePage (inode : Inode) (size : Nat) : FileData × Nat :=
  if size % tfsPageSize ≠ 0 then
    match inode.data (size / tfsPageSize) with
    | none => (inode.data, size)
    | some page =>
      let toWrite := min (inode.size - size) (tfsPageSize - size % tfsPageSize)
      (update inode.data (size / tfsPageSize)
        (some (zeroOut page (size % tfsPageSize) toWrite)), size + toWrite)
  else (inode.data, size)

def tfsTruncate (inode : Inode) (size : Nat) : Inode :=
  if size = 0 then { size := 0, data := fun _ => none }
  else if inode.size < size then { inode with size := size }
  else if size < inode.size then
    let start := truncatePage inode size
    { size := size, data := deleteLoop inode.size inode.size start.1 start.2 }
  else inode

/-- The loop of `tfs_allocate`; `false` is `-ENOSPC`. -/
def allocateLoop (mem : FileData) (stop : Nat) : Nat → FileData → Nat → FileData × Bool
  | 0, data, _ => (data, true)
  | fuel + 1, data, curOff =>
    if curOff < stop then
      match data (curOff / tfsPageSize), mem (curOff / tfsPageSize) with
      | some _, _ => allocateLoop mem stop fuel data (curOff + tfsPageSize)
      | none, none => (data, false)
      | none, some page =>
        allocateLoop mem stop fuel
          (update data (curOff / tfsPageSize) (some (zeroOut page 0 tfsPageSize)))
          (curOff + tfsPageSize)
    else (data, true)

def enospc : Int := 28

def tfsAllocate (inode : Inode) (offset len : Nat) (keepSize : Bool) (mem : FileData) :
    Inode × Int :=
  let a := allocateLoop mem (offset + len) len inode.data offset
  if a.2 = false then ({ inode with data := a.1 }, -enospc)
  else if inode.size < offset + len ∧ keepSize = false then
    ({ size := offset + len, data := a.1 }, 0)
  else ({ inode with data := a.1 }, 0)

end KernelLabs.ChCore
