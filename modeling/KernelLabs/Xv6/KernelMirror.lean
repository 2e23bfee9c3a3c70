import KernelLabs.Lib.Runs
import KernelLabs.Lib.Scatter
import KernelLabs.Xv6.Pages

/-!
# The user pages in a process's kernel page table

Model of the page-tables lab: `growproc`, `fork`, `userinit` (`proc.c`), `exec` and
`uvmcopy_user_to_kernel` with the functions of `vm.c` that they call.  A page table is what its leaves
below `PLIC` say, by page number; physical pages are page numbers too.  In the part below `PLIC` a new
kernel page table (`proc_kvminit`) maps the CLINT.  `none` is a kernel that has panicked, and every
allocation succeeds: `fresh v` is the page of RAM that `kalloc` gives for page `v`.
-/

set_option autoImplicit false

namespace KernelLabs.Xv6.Mirror

open Lib Function List Option

structure Flags where
  read : Bool
  write : Bool
  exec : Bool
  user : Bool
  deriving DecidableEq, Repr

abbrev RamPage := { page : Nat // 524288 ≤ page ∧ page < 557056 }

structure Entry where
  page : Nat
  flags : Flags
  deriving DecidableEq, Repr

/-- An entry of a user page table, whose page is from `kalloc`. -/
structure UserEntry where
  page : RamPage
  flags : Flags
  deriving DecidableEq

def UserEntry.mirror (e : UserEntry) : Entry := ⟨e.page, { e.flags with user := false }⟩

structure Proc where
  sz : Nat
  user : Nat → Option UserEntry
  kernel : Nat → Option Entry

def plic : Nat := 201326592

def userFlags : Flags := ⟨true, true, true, true⟩

def procKvminit : Nat → Option Entry := fun v =>
  if 8192 ≤ v ∧ v < 8208 then some ⟨v, ⟨true, true, false, false⟩⟩ else none

/-! ## `vm.c` -/

/-- `mappages` page by page: it panics at a page that is mapped. -/
def mappages (user : Nat → Option UserEntry) (entry : Nat → UserEntry) (pages : List Nat) :
    Option (Nat → Option UserEntry) :=
  pages.foldlM
    (fun user v => if (user v).isSome then none else some (update user v (some (entry v)))) user

/-- `uvmunmap` from page `first` on: it panics at a page that is not mapped. -/
def uvmunmap {E : Type} (table : Nat → Option E) (first npages : Nat) : Option (Nat → Option E) :=
  (range' first npages).foldlM
    (fun table v => if (table v).isSome then some (update table v none) else none) table

/-- `uvmalloc`; size 0 is a failure. -/
def uvmalloc (user : Nat → Option UserEntry) (oldsz newsz : Nat) (fresh : Nat → RamPage) :
    Option ((Nat → Option UserEntry) × Nat) :=
  if plic ≤ newsz then some (user, 0)
  else if newsz < oldsz then some (user, oldsz)
  else
    (mappages user (fun v => ⟨fresh v, userFlags⟩) (pagesFrom (pgRoundUp oldsz) newsz)).map
      fun user => (user, newsz)

def uvmdealloc (user : Nat → Option UserEntry) (oldsz newsz : Nat) :
    Option ((Nat → Option UserEntry) × Nat) :=
  if oldsz ≤ newsz then some (user, oldsz)
  else if pgRoundUp newsz < pgRoundUp oldsz then
    (uvmunmap user (pageCount newsz) ((pgRoundUp oldsz - pgRoundUp newsz) / pgSize)).map
      fun user => (user, newsz)
  else some (user, newsz)

/-- `proc_mappages` of `PGSIZE` bytes: from an address that is not rounded they end in the next page,
which gets an entry too. -/
def procMappages (kernel : Nat → Option Entry) (va : Nat) (e : Entry) : Nat → Option Entry :=
  let first := va / pgSize
  let kernel := update kernel first (some e)
  if (va + pgSize - 1) / pgSize = first then kernel
  else update kernel (first + 1) (some { e with page := e.page + 1 })

def uvmcopyUserToKernel (user : Nat → Option UserEntry) (kernel : Nat → Option Entry)
    (oldsz newsz : Nat) : Option (Nat → Option Entry) :=
  if pgRoundUp newsz < pgRoundUp oldsz then
    uvmunmap kernel (pageCount newsz) ((pgRoundUp oldsz - pgRoundUp newsz) / pgSize)
  else
    (pagesFrom oldsz newsz).foldlM
      (fun kernel v => (user v).map fun e =>
        procMappages kernel (v * pgSize + oldsz % pgSize) e.mirror) kernel

def uvmcopy (user : Nat → Option UserEntry) (sz : Nat) (fresh : Nat → RamPage) :
    Option (Nat → Option UserEntry) :=
  (pagesFrom 0 sz).foldlM
    (fun new v => (user v).bind fun e => mappages new (fun v => ⟨fresh v, e.flags⟩) [v]) fun _ => none

/-! ## `proc.c` and `exec.c` -/

def userinit (page : RamPage) : Option Proc :=
  (mappages (fun _ => none) (fun _ => ⟨page, userFlags⟩) [0]).bind fun user =>
    (uvmcopyUserToKernel user procKvminit 0 pgSize).map fun kernel => ⟨pgSize, user, kernel⟩

def growEnd (p : Proc) (user : Nat → Option UserEntry) (sz : Nat) : Option Proc :=
  (uvmcopyUserToKernel user p.kernel p.sz sz).map fun kernel => ⟨sz, user, kernel⟩

/-- `sz + n` of a `uint` and an `int`. -/
def addSize (sz : Nat) (n : Int) : Nat := ((sz + n) % uintRange).toNat

def growproc (p : Proc) (n : Int) (fresh : Nat → RamPage) : Option Proc :=
  if 0 < n then
    (uvmalloc p.user p.sz (addSize p.sz n) fresh).bind fun (user, sz) =>
      if sz = 0 then some p else growEnd p user sz
  else if n < 0 then
    (uvmdealloc p.user p.sz (addSize p.sz n)).bind fun (user, sz) => growEnd p user sz
  else growEnd p p.user p.sz

def forkChild (p : Proc) (fresh : Nat → RamPage) : Option Proc :=
  (uvmcopy p.user p.sz fresh).bind fun user =>
    (uvmcopyUserToKernel user procKvminit 0 p.sz).map fun kernel => ⟨p.sz, user, kernel⟩

/-- `exec` of a program of `image` pages, which get a guard page and a stack. -/
def exec (p : Proc) (image : Nat) (fresh : Nat → RamPage) : Option Proc :=
  let sz := (image + 2) * pgSize
  if plic ≤ sz then some p
  else
    (mappages (fun _ => none)
      (fun v => ⟨fresh v, if v = image then { userFlags with user := false } else userFlags⟩)
      (pagesFrom 0 sz)).bind fun user =>
        (uvmunmap p.user 0 (pageCount p.sz)).bind fun _ =>
          (uvmcopyUserToKernel user p.kernel 0 sz).map fun kernel => ⟨sz, user, kernel⟩

inductive Op where
  | userinit (pid : Nat) (page : RamPage)
  | growproc (pid : Nat) (n : Int) (fresh : Nat → RamPage)
  | fork (pid child : Nat) (fresh : Nat → RamPage)
  | exec (pid image : Nat) (fresh : Nat → RamPage)

abbrev Procs := Nat → Option Proc

def enter (procs : Procs) (pid : Nat) (made : Option Proc) : Option Procs :=
  made.map fun p => update procs pid (some p)

def runOp (procs : Procs) : Op → Option Procs
  | .userinit pid page =>
    if (procs pid).isSome then some procs else enter procs pid (userinit page)
  | .growproc pid n fresh =>
    (procs pid).elim (some procs) fun p => enter procs pid (growproc p n fresh)
  | .fork pid child fresh =>
    (procs pid).elim (some procs) fun p =>
      if (procs child).isSome then some procs else enter procs child (forkChild p fresh)
  | .exec pid image fresh => (procs pid).elim (some procs) fun p => enter procs pid (exec p image fresh)

def step (s : Option Procs) (op : Op) : Option Procs := s.bind fun procs => runOp procs op

/-! ## The mirror -/

def IsUserPage (procs : Procs) (page : Nat) : Prop :=
  ∃ i p v e, procs i = some p ∧ p.user v = some e ∧ e.page.val = page

structure Mirrors (procs : Procs) (p : Proc) : Prop where
  below : ∀ v, v < pageCount p.sz →
    (p.user v).isSome ∧ p.kernel v = (p.user v).map UserEntry.mirror
  above : ∀ v e, pageCount p.sz ≤ v → v < plic / pgSize → p.kernel v = some e →
    ¬IsUserPage procs e.page

def Mirrored : Option Procs → Prop
  | none => False
  | some procs => ∀ i p, procs i = some p → Mirrors procs p

structure Exact (p : Proc) : Prop where
  size : p.sz < plic
  mapped : ∀ v, (p.user v).isSome ↔ v < pageCount p.sz
  mirror : ∀ v, v < pageCount p.sz → p.kernel v = (p.user v).map UserEntry.mirror
  rest : ∀ v, pageCount p.sz ≤ v → p.kernel v = none ∨ p.kernel v = procKvminit v

def Inv : Option Procs → Prop
  | none => False
  | some procs => ∀ i p, procs i = some p → Exact p

/-- A process grows from a whole number of pages, and `exec` does not make it smaller. -/
def KeptBy (p : Proc) : Op → Prop
  | .growproc _ n _ => 0 < n → p.sz < addSize p.sz n → addSize p.sz n < plic → p.sz % pgSize = 0
  | .exec _ image _ => (image + 2) * pgSize < plic → pageCount p.sz ≤ image + 2
  | _ => True

def Op.pid : Op → Nat
  | .userinit pid _ | .growproc pid _ _ | .fork pid _ _ | .exec pid _ _ => pid

def Kept (s : Option Procs) (op : Op) : Prop :=
  (s.bind fun procs => procs op.pid).elim True fun p => KeptBy p op

instance decidableKeptBy (p : Proc) : ∀ op, Decidable (KeptBy p op) := by
  rintro ⟨⟩ <;> dsimp only [KeptBy] <;> infer_instance

instance decidableKept (s : Option Procs) (op : Op) : Decidable (Kept s op) := by
  unfold Kept
  cases s.bind fun procs => procs op.pid <;> dsimp only [Option.elim] <;> infer_instance

variable {newsz : Nat} {s : Option Procs}

theorem Inv.mirrored (inv : Inv s) : Mirrored s := by
  cases s with
  | none => exact inv
  | some procs =>
    intro i p found
    have exact_ := inv i p found
    refine ⟨fun v below => ⟨(exact_.mapped v).mpr below, exact_.mirror v below⟩, ?_⟩
    rintro v e above - entry ⟨j, q, w, e', -, -, same⟩
    -- what is left there is the CLINT, and no RAM
    have clint : procKvminit v = some e := by
      rcases exact_.rest v above with missing | rest
      · rw [missing] at entry
        cases entry
      · rw [← rest, entry]
    unfold procKvminit at clint
    obtain ⟨range, clint⟩ := ite_none_right_eq_some.mp clint
    cases clint
    have ram := e'.page.property
    simp only at same
    omega

/-! ## The loops -/

theorem mappages_eq (user : Nat → Option UserEntry) (entry : Nat → UserEntry) {pages : List Nat}
    (distinct : pages.Nodup) (free : ∀ v ∈ pages, user v = none) :
    mappages user entry pages = some fun v => if v ∈ pages then some (entry v) else user v := by
  refine foldlM_update _ (fun v => some (entry v)) (fun _ e => e = none) (fun user v missing => ?_)
    distinct free
  simp [missing]

variable {oldsz sz : Nat} {E : Type}

theorem uvmunmap_eq (table : Nat → Option E) (first npages : Nat)
    (mapped : ∀ v, first ≤ v → v < first + npages → (table v).isSome) :
    uvmunmap table first npages =
      some fun v => if first ≤ v ∧ v < first + npages then none else table v := by
  rw [uvmunmap, foldlM_update _ (fun _ => none) (fun _ e => e.isSome) (fun table v here => if_pos here)
    nodup_range']
  · simp only [mem_range'_1]
  · intro v member
    obtain ⟨low, high⟩ := mem_range'_1.mp member
    exact mapped v low high

theorem uvmunmap_shrink (table : Nat → Option E) (fewer : pgRoundUp newsz < pgRoundUp oldsz)
    (mapped : ∀ v, v < pageCount oldsz → (table v).isSome) :
    uvmunmap table (pageCount newsz) ((pgRoundUp oldsz - pgRoundUp newsz) / pgSize) =
      some fun v => if pageCount newsz ≤ v ∧ v < pageCount oldsz then none else table v := by
  have count : pageCount newsz + (pgRoundUp oldsz - pgRoundUp newsz) / pgSize = pageCount oldsz := by
    simp only [pgRoundUp_eq, pgSize] at fewer ⊢
    omega
  rw [uvmunmap_eq, count]
  intro v _ below
  rw [count] at below
  exact mapped v below

variable {user : Nat → Option UserEntry}

theorem procMappages_aligned (kernel : Nat → Option Entry) (v : Nat) (e : Entry) :
    procMappages kernel (v * pgSize) e = update kernel v (some e) := by
  have first : v * pgSize / pgSize = v := Nat.mul_div_cancel v (by decide)
  have last : (v * pgSize + pgSize - 1) / pgSize = v := by
    simp only [pgSize]
    omega
  rw [procMappages, first, last, if_pos rfl]

theorem copyLoop_eq (kernel : Nat → Option Entry) (grows : oldsz ≤ newsz)
    (aligned : oldsz % pgSize = 0)
    (mapped : ∀ v ∈ pagesFrom oldsz newsz, (user v).isSome) :
    uvmcopyUserToKernel user kernel oldsz newsz =
      some fun v => if v ∈ pagesFrom oldsz newsz then (user v).map UserEntry.mirror else kernel v := by
  have more : ¬pgRoundUp newsz < pgRoundUp oldsz := by
    have mono := pageCount_mono grows
    simp only [pgRoundUp_eq, pgSize]
    omega
  rw [uvmcopyUserToKernel, if_neg more]
  refine foldlM_update _ (fun v => (user v).map UserEntry.mirror) (fun v _ => (user v).isSome)
    (fun kernel v here => ?_) (pagesFrom_nodup oldsz newsz) mapped
  obtain ⟨e, entry⟩ := isSome_iff_exists.mp here
  simp [entry, aligned, procMappages_aligned]

theorem uvmcopy_eq (mapped : ∀ v, v < pageCount sz → (user v).isSome) (fresh : Nat → RamPage) :
    uvmcopy user sz fresh =
      some fun v => if v < pageCount sz then (user v).map fun e => ⟨fresh v, e.flags⟩ else none := by
  rw [uvmcopy, foldlM_update _ (fun v => (user v).map fun e => ⟨fresh v, e.flags⟩)
    (fun v e => e = none ∧ (user v).isSome) (fun new v here => ?_) (pagesFrom_nodup 0 sz)]
  · simp only [mem_pagesFrom_zero]
  · exact fun v member => ⟨rfl, mapped v (mem_pagesFrom_zero.mp member)⟩
  · obtain ⟨missing, present⟩ := here
    obtain ⟨e, entry⟩ := isSome_iff_exists.mp present
    simp [entry, mappages, missing]

/-! ## What each operation keeps -/

theorem exact_of_copy (user : Nat → Option UserEntry) (kernel : Nat → Option Entry)
    (size : sz < plic) (mapped : ∀ v, (user v).isSome ↔ v < pageCount sz)
    (rest : ∀ v, pageCount sz ≤ v → kernel v = none ∨ kernel v = procKvminit v) :
    ∃ kernel', uvmcopyUserToKernel user kernel 0 sz = some kernel' ∧ Exact ⟨sz, user, kernel'⟩ := by
  refine ⟨_, copyLoop_eq kernel (Nat.zero_le sz) rfl fun v member =>
    (mapped v).mpr (mem_pagesFrom_zero.mp member), size, mapped, fun v below => ?_, fun v above => ?_⟩
  · simp only [mem_pagesFrom_zero, if_pos below]
  · simp only [mem_pagesFrom_zero, if_neg (Nat.not_lt.mpr above)]
    exact rest v above

theorem userinit_exact (page : RamPage) : ∃ p, userinit page = some p ∧ Exact p := by
  have map := mappages_eq (fun _ => none) (fun _ => ⟨page, userFlags⟩) (nodup_singleton 0)
    fun _ _ => rfl
  have count : pageCount pgSize = 1 := by decide
  have mapped : ∀ v, ((if v ∈ [0] then some ⟨page, userFlags⟩ else none) : Option UserEntry).isSome ↔
      v < pageCount pgSize := by
    intro v
    by_cases zero : v = 0 <;> simp [zero, count]
  obtain ⟨kernel, copied, exact_⟩ := exact_of_copy _ procKvminit (by decide) mapped fun v _ => .inr rfl
  exact ⟨_, by rw [userinit, map, bind_some, copied]; rfl, exact_⟩

variable {p : Proc}

section
variable (exact_ : Exact p)
include exact_

variable (fresh : Nat → RamPage)

theorem forkChild_exact : ∃ child, forkChild p fresh = some child ∧ Exact child := by
  have copy := uvmcopy_eq (fun v below => (exact_.mapped v).mpr below) fresh
  have mapped : ∀ v, ((if v < pageCount p.sz then (p.user v).map fun e => ⟨fresh v, e.flags⟩
      else none) : Option UserEntry).isSome ↔ v < pageCount p.sz := by
    intro v
    by_cases below : v < pageCount p.sz
    · simp [below, (exact_.mapped v).mpr below]
    · simp [below]
  obtain ⟨kernel, copied, made⟩ := exact_of_copy _ procKvminit exact_.size mapped fun v _ => .inr rfl
  exact ⟨_, by rw [forkChild, copy, bind_some, copied]; rfl, made⟩

/-- The pages of the old image are overwritten if the new one is not smaller. -/
theorem exec_exact {image : Nat}
    (larger : (image + 2) * pgSize < plic → pageCount p.sz ≤ image + 2) :
    ∃ p', exec p image fresh = some p' ∧ Exact p' := by
  unfold exec
  by_cases tooLarge : plic ≤ (image + 2) * pgSize
  · exact ⟨p, if_pos tooLarge, exact_⟩
  have small : (image + 2) * pgSize < plic := Nat.lt_of_not_le tooLarge
  have count : pageCount ((image + 2) * pgSize) = image + 2 := by
    rw [pageCount, pgRoundUp]
    simp only [pgSize]
    omega
  have map := mappages_eq (fun _ => none)
    (fun v => ⟨fresh v, if v = image then { userFlags with user := false } else userFlags⟩)
    (pagesFrom_nodup 0 ((image + 2) * pgSize)) fun _ _ => rfl
  have freed := uvmunmap_eq p.user 0 (pageCount p.sz) fun v _ below =>
    (exact_.mapped v).mpr (by omega)
  have mapped : ∀ v, ((if v ∈ pagesFrom 0 ((image + 2) * pgSize) then some ⟨fresh v, if v = image then
      { userFlags with user := false } else userFlags⟩ else none) : Option UserEntry).isSome ↔
      v < pageCount ((image + 2) * pgSize) := by
    intro v
    by_cases below : v < pageCount ((image + 2) * pgSize) <;> simp [mem_pagesFrom_zero, below]
  have rest : ∀ v, pageCount ((image + 2) * pgSize) ≤ v →
      p.kernel v = none ∨ p.kernel v = procKvminit v := by
    intro v above
    rw [count] at above
    exact exact_.rest v (Nat.le_trans (larger small) above)
  obtain ⟨kernel, copied, made⟩ := exact_of_copy _ p.kernel small mapped rest
  refine ⟨_, ?_, made⟩
  simp only [if_neg tooLarge]
  rw [map, bind_some, freed, bind_some, copied]
  rfl

theorem growEnd_shrinks (shrinks : newsz ≤ p.sz)
    (same : ∀ v, v < pageCount newsz → user v = p.user v)
    (mapped : ∀ v, (user v).isSome ↔ v < pageCount newsz) :
    ∃ p', growEnd p user newsz = some p' ∧ Exact p' := by
  have mono := pageCount_mono shrinks
  have small := Nat.lt_of_le_of_lt shrinks exact_.size
  by_cases fewer : pgRoundUp newsz < pgRoundUp p.sz
  · have kernel : ∀ v, v < pageCount p.sz → (p.kernel v).isSome := by
      intro v below
      rw [exact_.mirror v below, isSome_map]
      exact (exact_.mapped v).mpr below
    have freed := uvmunmap_shrink p.kernel fewer kernel
    refine ⟨⟨newsz, user, _⟩, by rw [growEnd, uvmcopyUserToKernel, if_pos fewer, freed]; rfl,
      small, mapped, fun v below => ?_, fun v above => ?_⟩
    · have kept : ¬(pageCount newsz ≤ v ∧ v < pageCount p.sz) :=
        fun range => absurd below (Nat.not_lt.mpr range.1)
      simp only [if_neg kept, same v below]
      exact exact_.mirror v (Nat.lt_of_lt_of_le below mono)
    · by_cases old : v < pageCount p.sz
      · exact .inl (if_pos ⟨above, old⟩)
      · have kept : ¬(pageCount newsz ≤ v ∧ v < pageCount p.sz) := fun range => old range.2
        simp only [if_neg kept]
        exact exact_.rest v (Nat.le_of_not_lt old)
  · -- no page goes, and the loop has nothing to do
    have count : pageCount newsz = pageCount p.sz := by
      simp only [pgRoundUp_eq, pgSize] at fewer
      omega
    have none_ : pagesFrom p.sz newsz = [] := by
      simp [pagesFrom, Nat.sub_eq_zero_of_le shrinks, pageCount, pgRoundUp, pgSize]
    refine ⟨⟨newsz, user, p.kernel⟩, ?_, small, mapped, fun v below => ?_, fun v above => ?_⟩
    · rw [growEnd, uvmcopyUserToKernel, if_neg fewer, none_]
      rfl
    · simp only [same v below]
      exact exact_.mirror v (count ▸ below)
    · exact exact_.rest v (count ▸ above)

theorem growEnd_grows (size : newsz < plic) (grows : p.sz ≤ newsz)
    (whole : p.sz < newsz → p.sz % pgSize = 0)
    (same : ∀ v, v < pageCount p.sz → user v = p.user v)
    (mapped : ∀ v, (user v).isSome ↔ v < pageCount newsz) :
    ∃ p', growEnd p user newsz = some p' ∧ Exact p' := by
  rcases Nat.eq_or_lt_of_le grows with equal | more
  · exact growEnd_shrinks exact_ (Nat.le_of_eq equal.symm) (fun v below => same v (by rwa [equal]))
      mapped
  have aligned := whole more
  have loop : ∀ v, v ∈ pagesFrom p.sz newsz ↔ pageCount p.sz ≤ v ∧ v < pageCount newsz := by
    intro v
    have start : p.sz / pgSize = pageCount p.sz := by
      simp only [pageCount, pgRoundUp, pgSize] at aligned ⊢
      omega
    rw [mem_pagesFrom_aligned aligned, start]
  have copied := copyLoop_eq p.kernel grows aligned fun v member =>
    (mapped v).mpr ((loop v).mp member).2
  refine ⟨_, by rw [growEnd, copied]; rfl, size, mapped, fun v below => ?_, fun v above => ?_⟩
  · by_cases new : pageCount p.sz ≤ v
    · simp only [loop, if_pos (And.intro new below)]
    · have old := Nat.lt_of_not_le new
      simp only [loop, if_neg (fun range : _ ∧ _ => new range.1), same v old]
      exact exact_.mirror v old
  · simp only [loop, if_neg (fun range : _ ∧ _ => absurd range.2 (Nat.not_lt.mpr above))]
    exact exact_.rest v (Nat.le_trans (pageCount_mono grows) above)

theorem growproc_unchanged : ∃ p', growEnd p p.user p.sz = some p' ∧ Exact p' :=
  growEnd_shrinks exact_ (Nat.le_refl _) (fun _ _ => rfl) exact_.mapped

theorem uvmalloc_exact
    (whole : p.sz < newsz → newsz < plic → p.sz % pgSize = 0) :
    ∃ user sz, uvmalloc p.user p.sz newsz fresh = some (user, sz) ∧
      (sz = 0 ∨ ∃ p', growEnd p user sz = some p' ∧ Exact p') := by
  unfold uvmalloc
  by_cases high : plic ≤ newsz
  · exact ⟨p.user, 0, if_pos high, .inl rfl⟩
  rw [if_neg high]
  by_cases less : newsz < p.sz
  · exact ⟨p.user, p.sz, if_pos less, .inr (growproc_unchanged exact_)⟩
  rw [if_neg less]
  have mono := pageCount_mono (Nat.le_of_not_lt less)
  have pages : ∀ v, v ∈ pagesFrom (pgRoundUp p.sz) newsz ↔
      pageCount p.sz ≤ v ∧ v < pageCount newsz := fun v =>
    mem_pagesFrom_aligned (by rw [pgRoundUp_eq, Nat.mul_mod_left])
  have free : ∀ v ∈ pagesFrom (pgRoundUp p.sz) newsz, p.user v = none := by
    intro v member
    by_contra mapped
    have below := (exact_.mapped v).mp (isSome_iff_ne_none.mpr mapped)
    have above := ((pages v).mp member).1
    omega
  rw [mappages_eq p.user (fun v => ⟨fresh v, userFlags⟩) (pagesFrom_nodup _ _) free]
  refine ⟨_, newsz, rfl, .inr (growEnd_grows exact_ (Nat.lt_of_not_le high)
    (Nat.le_of_not_lt less) (fun more => whole more (Nat.lt_of_not_le high)) (fun v below => ?_)
    fun v => ?_)⟩
  · have out : v ∉ pagesFrom (pgRoundUp p.sz) newsz := fun member => by
      have above := ((pages v).mp member).1
      omega
    exact if_neg out
  simp only [pages]
  split
  · rename_i range
    simp [range.2]
  · rw [exact_.mapped v]
    omega

theorem uvmdealloc_exact (newsz : Nat) :
    ∃ user sz, uvmdealloc p.user p.sz newsz = some (user, sz) ∧
      ∃ p', growEnd p user sz = some p' ∧ Exact p' := by
  unfold uvmdealloc
  by_cases more : p.sz ≤ newsz
  · exact ⟨p.user, p.sz, if_pos more, growproc_unchanged exact_⟩
  rw [if_neg more]
  have less : newsz ≤ p.sz := Nat.le_of_not_le more
  have mono := pageCount_mono less
  by_cases fewer : pgRoundUp newsz < pgRoundUp p.sz
  · rw [if_pos fewer, uvmunmap_shrink p.user fewer fun v below => (exact_.mapped v).mpr below]
    refine ⟨_, newsz, rfl, growEnd_shrinks exact_ less (fun v below => ?_) fun v => ?_⟩
    · exact if_neg fun range => absurd below (Nat.not_lt.mpr range.1)
    · split
      · rename_i range
        exact iff_of_false (by simp) (Nat.not_lt.mpr range.1)
      · rw [exact_.mapped v]
        omega
  · have count : pageCount newsz = pageCount p.sz := by
      simp only [pgRoundUp_eq, pgSize] at fewer
      omega
    refine ⟨p.user, newsz, if_neg fewer, growEnd_shrinks exact_ less (fun _ _ => rfl) fun v => ?_⟩
    rw [exact_.mapped v, count]

theorem growproc_exact {n : Int}
    (whole : 0 < n → p.sz < addSize p.sz n → addSize p.sz n < plic → p.sz % pgSize = 0) :
    ∃ p', growproc p n fresh = some p' ∧ Exact p' := by
  unfold growproc
  by_cases grows : 0 < n
  · obtain ⟨user, sz, alloc, ended⟩ := uvmalloc_exact exact_ fresh (whole grows)
    rw [if_pos grows, alloc, bind_some]
    by_cases zero : sz = 0
    · exact ⟨p, if_pos zero, exact_⟩
    · simp only [if_neg zero]
      exact ended.resolve_left zero
  · rw [if_neg grows]
    by_cases shrinks : n < 0
    · obtain ⟨user, sz, dealloc, ended⟩ := uvmdealloc_exact exact_ (addSize p.sz n)
      rw [if_pos shrinks, dealloc, bind_some]
      exact ended
    · rw [if_neg shrinks]
      exact growproc_unchanged exact_

end

/-! ## Every run -/

theorem enter_inv {procs : Procs} (inv : Inv (some procs)) {made : Option Proc}
    (exact_ : ∃ p, made = some p ∧ Exact p) (pid : Nat) : Inv (enter procs pid made) := by
  obtain ⟨p, rfl, good⟩ := exact_
  intro i q found
  by_cases here : i = pid
  · subst here
    have same : some p = some q := by simpa [enter] using found
    cases same
    exact good
  · exact inv i q (by simpa [enter, here] using found)

theorem step_inv {op : Op} (inv : Inv s) (kept : Kept s op) : Inv (step s op) := by
  cases s with
  | none => exact inv
  | some procs =>
    cases op with
    | userinit pid page =>
      simp only [step, bind_some, runOp]
      split
      · exact inv
      · exact enter_inv inv (userinit_exact page) pid
    | growproc pid n fresh =>
      simp only [step, bind_some, runOp]
      cases found : procs pid with
      | none => exact inv
      | some p =>
        have met : KeptBy p (.growproc pid n fresh) := by simpa [Kept, Op.pid, found] using kept
        exact enter_inv inv (growproc_exact (inv pid p found) fresh met) pid
    | fork pid child fresh =>
      simp only [step, bind_some, runOp]
      cases found : procs pid with
      | none => exact inv
      | some p =>
        simp only [elim_some]
        split
        · exact inv
        · exact enter_inv inv (forkChild_exact (inv pid p found) fresh) child
    | exec pid image fresh =>
      simp only [step, bind_some, runOp]
      cases found : procs pid with
      | none => exact inv
      | some p =>
        have met : KeptBy p (.exec pid image fresh) := by simpa [Kept, Op.pid, found] using kept
        exact enter_inv inv (exec_exact (inv pid p found) fresh met) pid

/-- In every run that meets the condition, the kernel page tables mirror the user page tables after
each operation. -/
theorem run_mirrored (ops : List Op) (kept : RunMeets step Kept (some fun _ => none) ops) :
    ∀ pre, pre <+: ops → Mirrored (pre.foldl step (some fun _ => none)) := by
  rintro pre ⟨rest, rfl⟩
  have start : Inv (some fun _ => none) := fun i p found => by cases found
  exact (run_invariant step Kept Inv (fun s op inv met => step_inv inv met) pre _ start
    kept.append.1).mirrored

def ramFrom (first : Nat) (v : Nat) : RamPage :=
  if range : first + v < 557056 ∧ 524288 ≤ first then ⟨first + v, by omega⟩ else ⟨524288, by decide⟩

def initRun : List Op :=
  [.userinit 1 (ramFrom 530000 0), .exec 1 3 (ramFrom 530001), .growproc 1 2048 (ramFrom 530100),
    .growproc 1 (-2048) (ramFrom 530100), .growproc 1 5000 (ramFrom 530200),
    .fork 1 2 (ramFrom 530300)]

theorem initRun_mirrored : RunMeets step Kept (some fun _ => none) initRun ∧
      ∀ pre, pre <+: initRun → Mirrored (pre.foldl step (some fun _ => none)) := by
  have kept : RunMeets step Kept (some fun _ => none) initRun := by decide +kernel
  exact ⟨kept, run_mirrored initRun kept⟩

def growRun : List Op :=
  [.userinit 1 (ramFrom 530000 0), .growproc 1 2048 (ramFrom 530100),
    .growproc 1 4096 (ramFrom 530200)]

def execRun : List Op :=
  [.userinit 1 (ramFrom 530000 0), .exec 1 6 (ramFrom 530001), .exec 1 1 (ramFrom 530100),
    .fork 1 2 (ramFrom 530004)]

/-- The last page is mapped to the page of RAM behind the one before it; a page of the child is in
the kernel page table of its parent, above the size. -/
theorem growRun_execRun :
    (((growRun.foldl step (some fun _ => none)).bind fun procs => procs 1).map fun p =>
        (p.sz, (p.user 2).map fun e => e.page.val, (p.kernel 2).map Entry.page)) =
          some (10240, some 530202, some 530102) ∧
      (((execRun.foldl step (some fun _ => none)).bind fun procs => procs 1).map fun p =>
        (p.sz, (p.kernel 3).map Entry.page)) = some (12288, some 530004) ∧
      (((execRun.foldl step (some fun _ => none)).bind fun procs => procs 2).map fun child =>
        (child.user 0).map fun e => e.page.val) = some (some 530004) := by
  decide +kernel

end KernelLabs.Xv6.Mirror
