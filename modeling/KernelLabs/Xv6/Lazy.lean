import KernelLabs.Lib.Runs
import KernelLabs.Xv6.Pages

/-!
# Lazy page allocation

Model of the address space of one process in the lazy-allocation lab: `usertrap` (`trap.c`),
`growproc` (`proc.c`), and `walkaddr`, `mappages`, `uvmunmap`, `uvmdealloc`, `uvmfree`, `copyin`,
`copyout` and `copyinstr` (`vm.c`).  A page table is what its leaves say, by page number; the
trampoline and the trapframe, which lie above every size and have no `PTE_U`, are left out.  Every user
page is readable, writable and executable, so that `PTE_U` alone decides whether the user may access
it.  `none` is a kernel that has panicked.
-/

set_option autoImplicit false

namespace KernelLabs.Xv6.Lazy

open Lib Function

/-- A mapped page: `PTE_U` and the bytes at its offsets. -/
structure Page where
  user : Bool
  data : Nat → UInt8

def zeroPage : Page := ⟨true, fun _ => 0⟩

abbrev PageTable := Nat → Option Page

@[ext]
structure Proc where
  sz : Nat
  pages : PageTable

def maxva : Nat := 274877906944

/-- How `kalloc` answers when a page is mapped: there is no page, no page for the page table that
`walk` has to add, or enough. -/
inductive Grant where
  | noPage
  | noTable
  | granted
  deriving DecidableEq, Repr

/-! ## Mapping and unmapping -/

/-- `mappages` of one page; `false` is -1. -/
def mappages (pages : PageTable) (va : Nat) (page : Page) (grant : Grant) :
    Option (PageTable × Bool) :=
  if (pages (va / pgSize)).isSome then none
  else if grant = .granted then some (update pages (va / pgSize) (some page), true)
  else some (pages, false)

def uvmunmap (pages : PageTable) (first npages : Nat) : PageTable := fun v =>
  if first ≤ v ∧ v < first + npages then none else pages v

def uvmdealloc (pages : PageTable) (oldsz newsz : Nat) : PageTable × Nat :=
  if oldsz ≤ newsz then (pages, oldsz)
  else if pgRoundUp newsz < pgRoundUp oldsz then
    (uvmunmap pages (pageCount newsz) ((pgRoundUp oldsz - pgRoundUp newsz) / pgSize), newsz)
  else (pages, newsz)

def hasLeaf (pages : PageTable) : Nat → Bool
  | 0 => false
  | n + 1 => hasLeaf pages n || (pages n).isSome

theorem hasLeaf_iff {pages : PageTable} {n : Nat} :
    hasLeaf pages n = true ↔ ∃ v < n, (pages v).isSome := by
  induction n with
  | zero => simp [hasLeaf]
  | succ n ih => rw [hasLeaf, Bool.or_eq_true, ih, Nat.exists_lt_succ_right]

-- a page table has too many pages to be searched by evaluation
attribute [irreducible] hasLeaf

/-- `freewalk` of a page table for `n` pages panics at a leaf. -/
def freewalk (pages : PageTable) (n : Nat) : Option Unit :=
  if hasLeaf pages n then none else some ()

def uvmfree (p : Proc) : Option Unit :=
  freewalk (if 0 < p.sz then uvmunmap p.pages 0 (pageCount p.sz) else p.pages) (maxva / pgSize)

/-- `growproc`, with `uint sz`; it returns 0. -/
def growproc (p : Proc) (n : Int) : Proc :=
  if 0 < n then { p with sz := ((p.sz + n) % uintRange).toNat }
  else if n < 0 then
    let (pages, sz) := uvmdealloc p.pages (p.sz % uintRange) ((p.sz + n) % uintRange).toNat
    ⟨sz, pages⟩
  else { p with sz := p.sz % uintRange }

/-! ## The two places that map a page late -/

def mapZero (p : Proc) (va : Nat) (grant : Grant) : Option (Proc × Bool) :=
  (mappages p.pages va zeroPage grant).map fun (pages, mapped) =>
    if mapped then ({ p with pages := pages }, true)
    else ({ p with pages := (uvmdealloc pages (va + pgSize) va).1 }, false)

/-- `usertrap` for a fault on a load or a store; the result tells whether the process is killed. -/
def usertrap (p : Proc) (addr sp : Nat) (grant : Grant) : Option (Proc × Bool) :=
  if p.sz ≤ addr ∨ addr ≤ sp then some (p, true)
  else if grant = .noPage then some (p, true)
  else (mapZero p (pgRoundDown addr) grant).map fun (p, _) => (p, false)

/-- `walkaddr`, with the page at the address that it returns. -/
def walkaddr (sp : Nat) (grant : Nat → Grant) (p : Proc) (va : Nat) : Option (Proc × Option Page) :=
  if maxva ≤ va then some (p, none)
  else
    match p.pages (va / pgSize) with
    | some page => some (p, if page.user then some page else none)
    | none =>
      if p.sz ≤ va ∨ va ≤ sp then some (p, none)
      else if grant (va / pgSize) = .noPage then some (p, none)
      else
        (mapZero p va (grant (va / pgSize))).map fun (p, mapped) =>
          (p, if mapped then some zeroPage else none)

/-! ## Accesses of the user -/

inductive Access where
  | load
  | store (byte : UInt8)
  deriving DecidableEq, Repr

def Access.perform : Access → Page → Nat → Page × UInt8
  | .load, page, offset => (page, page.data offset)
  | .store byte, page, offset => ({ page with data := update page.data offset byte }, byte)

def Proc.setPage (p : Proc) (v : Nat) (page : Page) : Proc :=
  { p with pages := update p.pages v (some page) }

def Proc.userPage (p : Proc) (v : Nat) : Option Page :=
  (p.pages v).bind fun page => if page.user then some page else none

inductive Attempt where
  | done (byte : UInt8)
  | again
  | killed
  deriving DecidableEq, Repr

def userAccess (access : Access) (p : Proc) (addr sp : Nat) (grant : Grant) :
    Option (Proc × Attempt) :=
  match p.userPage (addr / pgSize) with
  | some page =>
    let (page, byte) := access.perform page (addr % pgSize)
    some (p.setPage (addr / pgSize) page, .done byte)
  | none => (usertrap p addr sp grant).map fun (p, killed) => (p, if killed then .killed else .again)

/-! ## Copies between the kernel and the user -/

/-- How the loop of a copy ends: nothing is left to copy, `walkaddr` returns 0, or it is told to. -/
inductive CopyEnd where
  | finished
  | refused
  | stopped
  deriving DecidableEq, Repr

section Copy
variable {R : Type} (walk : Proc → Nat → Option (Proc × Option Page))
  (piece : Page → Nat → Nat → R → Page × R × Bool)

/-- The loop of `copyin`, `copyout` and `copyinstr`.  `piece` handles the bytes of one page and
tells whether the loop stops.  Every round copies a byte, so `len` rounds are enough. -/
def copyLoop : Nat → Proc → Nat → Nat → R → Option (Proc × R × CopyEnd)
  | 0, p, _, _, r => some (p, r, .finished)
  | rounds + 1, p, va, len, r =>
    if len = 0 then some (p, r, .finished)
    else
      (walk p (pgRoundDown va)).bind fun (p, found) =>
        match found with
        | none => some (p, r, .refused)
        | some page =>
          let n := min (pgSize - va % pgSize) len
          let (page, r, stop) := piece page (va % pgSize) n r
          let p := p.setPage (va / pgSize) page
          if stop then some (p, r, .stopped)
          else copyLoop rounds p (pgRoundDown va + pgSize) (len - n) r

end Copy

def Page.read (page : Page) (offset n : Nat) : List UInt8 :=
  (List.range n).map fun i => page.data (offset + i)

def Page.write (page : Page) (offset : Nat) (bytes : List UInt8) : Page :=
  { page with data := fun o =>
      if offset ≤ o then (bytes[o - offset]?).getD (page.data o) else page.data o }

def readPiece (page : Page) (offset n : Nat) (dst : List UInt8) : Page × List UInt8 × Bool :=
  (page, dst ++ page.read offset n, false)

def writePiece (page : Page) (offset n : Nat) (src : List UInt8) : Page × List UInt8 × Bool :=
  (page.write offset (src.take n), src.drop n, false)

def stringPiece (page : Page) (offset n : Nat) (dst : List UInt8) : Page × List UInt8 × Bool :=
  let bytes := page.read offset n
  if 0 ∈ bytes then (page, dst ++ bytes.takeWhile (fun byte => byte ≠ 0), true)
  else (page, dst ++ bytes, false)

/-- `copyin`: the bytes, or nothing for -1. -/
def copyin (walk : Proc → Nat → Option (Proc × Option Page)) (p : Proc) (srcva len : Nat) :
    Option (Proc × Option (List UInt8)) :=
  (copyLoop walk readPiece len p srcva len []).map fun (p, dst, last) =>
    (p, if last = .finished then some dst else none)

/-- `copyout`: whether it returns 0. -/
def copyout (walk : Proc → Nat → Option (Proc × Option Page)) (p : Proc) (dstva : Nat)
    (src : List UInt8) : Option (Proc × Bool) :=
  (copyLoop walk writePiece src.length p dstva src.length src).map fun (p, _, last) =>
    (p, decide (last = .finished))

/-- `copyinstr`: the string, or nothing for -1. -/
def copyinstr (walk : Proc → Nat → Option (Proc × Option Page)) (p : Proc) (srcva max : Nat) :
    Option (Proc × Option (List UInt8)) :=
  (copyLoop walk stringPiece max p srcva max []).map fun (p, dst, last) =>
    (p, if last = .stopped then some dst else none)

end KernelLabs.Xv6.Lazy
