import KernelLabs.Xv6.Pages

/-!
# Mapped regions

The region table of a process in the mmap lab (`struct vma` in `proc.h`) and the parts of `sys_mmap`
and `sys_munmap` (`vm.c`) that read and change it.  Lengths are `int`s and sizes are `uint`s, so
that the sums and differences of the source wrap around as they do there.
-/

set_option autoImplicit false

namespace KernelLabs.Xv6.Mmap

def nvma : Nat := 16

structure Prot where
  read : Bool
  write : Bool
  exec : Bool
  deriving DecidableEq, Repr

/-- `struct vma`; `shared` is `flags & MAP_SHARED`, and `f` is the file in the table of files. -/
structure Vma where
  used : Bool
  addr : Nat
  sz : Nat
  npages : Nat
  prot : Prot
  shared : Bool
  f : Option Nat
  deriving DecidableEq, Repr

def unusedVma : Vma :=
  { used := false, addr := 0, sz := 0, npages := 0, prot := ⟨false, false, false⟩,
    shared := false, f := none }

/-- `PGROUNDUP(length)` of an `int`, taken as a `uint`. -/
def roundLength (length : Int) : Nat :=
  ((length + pgSize - 1) % uintRange).toNat / pgSize * pgSize

/-- The `int npages` of `sys_munmap`. -/
def munmapPages (length : Int) : Int :=
  (if 2 * roundLength length < uintRange then (roundLength length : Int)
    else roundLength length - uintRange) / pgSize

def takePages (npages : Nat) (taken : Int) : Nat := ((npages - taken) % uintRange).toNat

def Vma.covers (v : Vma) (a : Nat) : Bool := v.used && (decide (v.addr ≤ a) && decide (a < v.addr + v.sz))

def findVma (vmas : List Vma) (a : Nat) : Option Nat := vmas.findIdx? fun v => v.covers a

def freeVma (vmas : List Vma) : Option Nat := vmas.findIdx? fun v => !v.used

def newVma (sz : Nat) (length : Int) (prot : Prot) (shared : Bool) (f : Nat) : Vma :=
  { used := true, addr := sz, sz := roundLength length, npages := roundLength length / pgSize,
    prot := prot, shared := shared, f := some f }

/-- What `sys_munmap` makes of the region: it is given up when no page is left. -/
def unmapVma (v : Vma) (length : Int) : Vma :=
  if takePages v.npages (munmapPages length) = 0 then unusedVma
  else { v with npages := takePages v.npages (munmapPages length) }

theorem findIdx_some {vmas : List Vma} {p : Vma → Bool} {i : Nat} (found : vmas.findIdx? p = some i) :
    ∃ v, vmas[i]? = some v ∧ p v = true := by
  obtain ⟨within, holds, _⟩ := List.findIdx?_eq_some_iff_getElem.mp found
  exact ⟨vmas[i], List.getElem?_eq_getElem within, holds⟩

end KernelLabs.Xv6.Mmap
