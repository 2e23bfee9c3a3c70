import Mathlib.Data.Set.Card
import KernelLabs.Lib.Runs
import KernelLabs.Xv6.Mmap

/-!
# Regions and page faults in the mmap lab

Model of `sys_mmap`, `sys_munmap` and `mmap_pgfault_handler` (`vm.c`) of one process, with the pages
that its page table maps.  A page that is read from a file is given by the file and the offset of
`readi`.  Lengths are not negative.  Left out: what `filewrite` does to the file.
-/

set_option autoImplicit false

namespace KernelLabs.Xv6.Mmap

open Lib Function List Option

/-- The trapframe and the trampoline are mapped from here on, up to `MAXVA`. -/
def trapframe : Nat := 274877898752

/-- A page belongs to a region of the file `f` that starts at `start`, or it was unmapped, or it was
never in a region. -/
inductive Status where
  | other
  | unmapped
  | mapped (f start : Nat)
  deriving DecidableEq, Repr

/-- `valid` are the pages with a valid PTE, and `table` tells which page tables of the last level
exist. -/
structure Space where
  vmas : List Vma
  sz : Nat
  valid : Nat → Bool
  table : Nat → Bool
  status : Nat → Status

inductive Fault where
  | rejected
  | panics
  | reads (f : Option Nat) (off : Nat)
  deriving DecidableEq, Repr

def Space.vmaAt (s : Space) (a : Nat) : Option (Nat × Vma) :=
  (findVma s.vmas a).bind fun i => s.vmas[i]?.map fun v => (i, v)

/-- `memory` tells whether `kalloc` and `walk` find memory.  `mappages` panics if the page is mapped,
and `walk` panics from `MAXVA` on. -/
def mmapPgfaultHandler (s : Space) (a : Nat) (memory : Bool) : Fault :=
  match s.vmaAt a with
  | none => .rejected
  | some (_, v) =>
    if memory = false then .rejected
    else if trapframe ≤ a ∨ s.valid (a / pgSize) = true then .panics
    else .reads v.f (((pgRoundDown a : Int) - v.addr) % uintRange).toNat

inductive RegionCall where
  | mmap (length : Int) (prot : Prot) (shared : Bool) (f : Nat) (writable : Bool)
  | munmap (addr : Nat) (length : Int)
  | fault (a : Nat) (memory : Bool)
  deriving DecidableEq, Repr

def mmapRegion (s : Space) (length : Int) (prot : Prot) (shared : Bool) (f : Nat)
    (writable : Bool) : Space :=
  if writable = false ∧ prot.write = true ∧ shared = true then s
  else
    match freeVma s.vmas with
    | none => s
    | some i =>
      let v := newVma s.sz length prot shared f
      { s with
        vmas := s.vmas.set i v
        sz := s.sz + v.sz
        status := fun p =>
          if s.sz / pgSize ≤ p ∧ p < pageCount (s.sz + v.sz) then .mapped f s.sz
          else s.status p }

/-- `uvmunmap` panics at an address that is not aligned and where a page table is missing. -/
def munmapRegion (s : Space) (addr : Nat) (length : Int) : Option Space :=
  match s.vmaAt addr with
  | none => some s
  | some (i, v) =>
    let npages := (munmapPages length).toNat
    if addr % pgSize ≠ 0 ∨
        (List.range npages).any fun k => !s.table ((addr / pgSize + k) / 512) then none
    else
      some { s with
        vmas := s.vmas.set i (unmapVma v length)
        valid := fun p =>
          if addr / pgSize ≤ p ∧ p < addr / pgSize + npages then false else s.valid p
        status := fun p =>
          if addr / pgSize ≤ p ∧ p < pageCount (addr + length.toNat) then .unmapped
          else s.status p }

/-- `none` is a kernel that has panicked or a process that was killed. -/
def regionStep (s : Option Space) (c : RegionCall) : Option Space :=
  s.bind fun s =>
    match c with
    | .mmap length prot shared f writable => some (mmapRegion s length prot shared f writable)
    | .munmap addr length => munmapRegion s addr length
    | .fault a memory =>
      match mmapPgfaultHandler s a memory with
      | .reads _ _ =>
        some { s with
          valid := update s.valid (a / pgSize) true
          table := update s.table (a / pgSize / 512) true }
      | _ => none

/-- An unmapped page has no PTE and an access to it is rejected; a mapped page shows its part of the
file; the counts are right and the regions do not overlap. -/
structure RegionsExact (s : Space) : Prop where
  unmapped : ∀ a, s.status (a / pgSize) = .unmapped →
    s.valid (a / pgSize) = false ∧ ∀ memory, mmapPgfaultHandler s a memory = .rejected
  mapped : ∀ a f start, s.status (a / pgSize) = .mapped f start → s.valid (a / pgSize) = false →
    mmapPgfaultHandler s a true = .reads (some f) (pgRoundDown a - start)
  counted : ∀ v ∈ s.vmas, v.used = true →
    ∃ f, v.f = some f ∧ v.npages = Set.ncard { p | s.status p = .mapped f v.addr }
  apart : ∀ (i j : Nat) (v w : Vma), s.vmas[i]? = some v → s.vmas[j]? = some w → i ≠ j →
    ∀ a, ¬(v.covers a = true ∧ w.covers a = true)

/-- A positive `int` as the length of a region, and a range to unmap that starts at a page and lies
in one region. -/
def Asked (s : Space) : RegionCall → Prop
  | .mmap length _ _ _ _ => 0 < length ∧ length < 2147483648
  | .munmap addr length => addr % pgSize = 0 ∧ 0 ≤ length ∧ length < 2147483648 ∧
      ∃ v ∈ s.vmas, v.used = true ∧ v.addr ≤ addr ∧ addr < v.addr + v.sz ∧
        addr + length ≤ v.addr + v.sz
  | .fault _ _ => True

/-- Regions lie below the trapframe, and `munmap` takes all pages of a region or none. -/
def TakesAll (s : Space) : RegionCall → Prop
  | .mmap length _ _ _ _ => s.sz + roundLength length ≤ trapframe
  | .munmap addr length => ∀ i v, s.vmaAt addr = some (i, v) →
      munmapPages length = 0 ∨ munmapPages length = v.npages
  | .fault _ _ => True

structure Vma.Placed (v : Vma) (sz : Nat) : Prop where
  aligned : v.addr % pgSize = 0
  size : v.sz = v.npages * pgSize
  positive : 0 < v.npages
  small : v.sz < uintRange
  below : v.addr + v.sz ≤ sz
  file : v.f ≠ none

structure Space.Inv (s : Space) : Prop where
  aligned : s.sz % pgSize = 0
  below : s.sz ≤ trapframe
  placed : ∀ (i : Nat) (v : Vma), s.vmas[i]? = some v → v.used = true → v.Placed s.sz
  apart : ∀ (i j : Nat) (v w : Vma), s.vmas[i]? = some v → s.vmas[j]? = some w → i ≠ j →
    ∀ a, ¬(v.covers a = true ∧ w.covers a = true)
  mapped : ∀ p f start, s.status p = .mapped f start ↔ ∃ (i : Nat) (v : Vma),
    s.vmas[i]? = some v ∧ v.used = true ∧ v.f = some f ∧ v.addr = start ∧ v.addr / pgSize ≤ p ∧
    p < v.addr / pgSize + v.npages
  gone : ∀ p, s.status p = .unmapped → s.valid p = false ∧ p * pgSize < s.sz

section Regions
variable {s : Space} {v : Vma} {i a : Nat}

theorem vmaAt_some (found : s.vmaAt a = some (i, v)) : s.vmas[i]? = some v ∧ v.covers a = true := by
  obtain ⟨j, hit, mapped⟩ := bind_eq_some_iff.mp found
  obtain ⟨w, there, same⟩ := map_eq_some_iff.mp mapped
  cases same
  obtain ⟨_, also, covers⟩ := findIdx_some hit
  cases there.symm.trans also
  exact ⟨there, covers⟩

theorem covers_iff : v.covers a = true ↔ v.used = true ∧ v.addr ≤ a ∧ a < v.addr + v.sz := by
  simp [Vma.covers]

theorem vmaAt_of_covers (inv : s.Inv) (here : s.vmas[i]? = some v) (covers : v.covers a = true) :
    s.vmaAt a = some (i, v) := by
  rcases found : s.vmas.findIdx? fun v => v.covers a with _ | j
  · have never := findIdx?_eq_none_iff.mp found v (mem_of_getElem? here)
    rw [covers] at never
    cases never
  obtain ⟨w, there, also⟩ := findIdx_some found
  obtain rfl : i = j := by
    by_contra other
    exact inv.apart i j v w here there other a ⟨covers, also⟩
  simp [Space.vmaAt, findVma, found, here]

/-- A region covers an address exactly if it has the page of the address. -/
theorem Vma.Placed.covers (placed : v.Placed s.sz) (used : v.used = true) :
    v.covers a = true ↔ v.addr / pgSize ≤ a / pgSize ∧ a / pgSize < v.addr / pgSize + v.npages := by
  have aligned := placed.aligned
  rw [covers_iff, placed.size, and_iff_right used]
  simp only [pgSize] at *
  omega

theorem Space.Inv.status_iff (inv : s.Inv) {f start : Nat} :
    s.status (a / pgSize) = .mapped f start ↔
      ∃ i v, s.vmaAt a = some (i, v) ∧ v.f = some f ∧ v.addr = start := by
  rw [inv.mapped]
  constructor
  · rintro ⟨i, v, here, used, file, rfl, pages⟩
    have covers := ((inv.placed i v here used).covers used).mpr pages
    exact ⟨i, v, vmaAt_of_covers inv here covers, file, rfl⟩
  · rintro ⟨i, v, found, file, rfl⟩
    obtain ⟨here, covers⟩ := vmaAt_some found
    have used := (covers_iff.mp covers).1
    exact ⟨i, v, here, used, file, rfl, ((inv.placed i v here used).covers used).mp covers⟩

theorem Space.Inv.exact (inv : s.Inv) : RegionsExact s where
  apart := inv.apart
  unmapped a gone := by
    refine ⟨(inv.gone _ gone).1, fun memory => ?_⟩
    cases found : s.vmaAt a with
    | none => simp [mmapPgfaultHandler, found]
    | some region =>
      obtain ⟨i, v⟩ := region
      obtain ⟨here, covers⟩ := vmaAt_some found
      obtain ⟨f, file⟩ := ne_none_iff_exists'.mp (inv.placed i v here (covers_iff.mp covers).1).file
      have mapped := inv.status_iff.mpr ⟨i, v, found, file, rfl⟩
      rw [gone] at mapped
      cases mapped
  mapped a f start mapped invalid := by
    obtain ⟨i, v, found, file, rfl⟩ := inv.status_iff.mp mapped
    obtain ⟨here, covers⟩ := vmaAt_some found
    obtain ⟨used, above, below⟩ := covers_iff.mp covers
    have placed := inv.placed i v here used
    have low : ¬(trapframe ≤ a ∨ s.valid (a / pgSize) = true) := by
      have within := placed.below
      have top := inv.below
      simp only [invalid, Bool.false_eq_true, or_false]
      omega
    have offset : (((pgRoundDown a : Int) - v.addr) % uintRange).toNat = pgRoundDown a - v.addr := by
      have aligned := placed.aligned
      have size := placed.size
      have small := placed.small
      simp only [pgRoundDown, pgSize, uintRange] at *
      omega
    simp only [mmapPgfaultHandler, found, Bool.true_eq_false, if_false, if_neg low, file, offset]
  counted v member used := by
    obtain ⟨i, here⟩ := getElem?_of_mem member
    have placed := inv.placed i v here used
    obtain ⟨f, file⟩ := ne_none_iff_exists'.mp placed.file
    refine ⟨f, file, ?_⟩
    have pages : { p | s.status p = .mapped f v.addr } =
        Finset.Ico (v.addr / pgSize) (v.addr / pgSize + v.npages) := by
      ext p
      simp only [Set.mem_ofPred_eq, Finset.coe_Ico, Set.mem_Ico, inv.mapped]
      refine ⟨?_, fun within => ⟨i, v, here, used, file, rfl, within⟩⟩
      rintro ⟨j, w, there, usedW, _, start, within⟩
      -- two regions with one start are the same
      have first : ∀ u : Vma, u.used = true → u.Placed s.sz → u.covers u.addr = true :=
        fun u used placed => covers_iff.mpr ⟨used, Nat.le_refl _, by
          have positive := Nat.mul_pos placed.positive (show 0 < pgSize by decide)
          rw [placed.size]
          omega⟩
      have mine := first v used placed
      have theirs := first w usedW (inv.placed j w there usedW)
      rw [start] at theirs
      obtain rfl : i = j := by
        by_contra other
        exact inv.apart i j v w here there other v.addr ⟨mine, theirs⟩
      cases here.symm.trans there
      exact within
    rw [pages, Set.ncard_coe_finset, Nat.card_Ico]
    omega

/-! ## The calls -/

theorem getElem_set_cases {vmas : List Vma} {new u : Vma} {j : Nat}
    (here : (vmas.set i new)[j]? = some u) : j = i ∧ u = new ∨ j ≠ i ∧ vmas[j]? = some u := by
  rw [getElem?_set] at here
  split at here
  · rename_i same
    split at here
    · exact .inl ⟨same.symm, (Option.some.inj here).symm⟩
    · cases here
  · rename_i other
    exact .inr ⟨Ne.symm other, here⟩

variable {length : Int}

theorem roundLength_bounds (positive : 0 < length) (small : length < 2147483648) :
    ∃ n, roundLength length = n * pgSize ∧ 0 < n ∧ n * pgSize < uintRange := by
  refine ⟨_, rfl, ?_⟩
  simp only [pgSize, uintRange]
  omega

def Vma.HasPage (v : Vma) (p : Nat) : Prop :=
  v.used = true ∧ v.addr / pgSize ≤ p ∧ p < v.addr / pgSize + v.npages

theorem Space.Inv.page_below (inv : s.Inv) (here : s.vmas[i]? = some v) {p : Nat}
    (page : v.HasPage p) : v.covers (p * pgSize) = true ∧ p < s.sz / pgSize := by
  have placed := inv.placed i v here page.1
  have within := placed.below
  have start := placed.aligned
  have pages := page.2
  have number : p * pgSize / pgSize = p := Nat.mul_div_cancel p (by decide)
  refine ⟨(placed.covers page.1).mpr (by rwa [number]), ?_⟩
  rw [placed.size] at within
  simp only [pgSize] at *
  omega

/-- One entry of the table of regions changes, and with it what its pages are. -/
theorem Space.Inv.set (inv : s.Inv) {old new : Vma} {sz : Nat} {valid table : Nat → Bool}
    {status : Nat → Status} (there : s.vmas[i]? = some old) (aligned : sz % pgSize = 0)
    (below : sz ≤ trapframe) (grows : s.sz ≤ sz) (placed : new.used = true → new.Placed sz)
    (apart : ∀ (j : Nat) (w : Vma), s.vmas[j]? = some w → j ≠ i →
      ∀ a, ¬(new.covers a = true ∧ w.covers a = true))
    (mapped : ∀ p f start, status p = .mapped f start ↔
      new.HasPage p ∧ new.f = some f ∧ new.addr = start ∨
        ¬old.HasPage p ∧ s.status p = .mapped f start)
    (gone : ∀ p, status p = .unmapped → valid p = false ∧ p * pgSize < sz) :
    Space.Inv ⟨s.vmas.set i new, sz, valid, table, status⟩ where
  aligned := aligned
  below := below
  gone := gone
  placed j u here used := by
    rcases getElem_set_cases here with ⟨-, rfl⟩ | ⟨-, here⟩
    · exact placed used
    · have before := inv.placed j u here used
      exact { before with below := before.below.trans grows }
  apart j k u w here there' other a both := by
    rcases getElem_set_cases here with ⟨rfl, rfl⟩ | ⟨notI, mine⟩
    · rcases getElem_set_cases there' with ⟨rfl, -⟩ | ⟨notI, theirs⟩
      · exact other rfl
      · exact apart k w theirs notI a both
    · rcases getElem_set_cases there' with ⟨rfl, rfl⟩ | ⟨-, theirs⟩
      · exact apart j u mine notI a both.symm
      · exact inv.apart j k u w mine theirs other a both
  mapped p f start := by
    have within := (List.getElem?_eq_some_iff.mp there).1
    rw [mapped, inv.mapped]
    constructor
    · rintro (⟨page, file, start⟩ | ⟨notOld, j, u, here, used, file, start, page⟩)
      · exact ⟨i, new, getElem?_set_self within, page.1, file, start, page.2⟩
      · refine ⟨j, u, ?_, used, file, start, page⟩
        rw [getElem?_set_ne, here]
        rintro rfl
        cases there.symm.trans here
        exact notOld ⟨used, page⟩
    · rintro ⟨j, u, here, used, file, start, page⟩
      rcases getElem_set_cases here with ⟨-, rfl⟩ | ⟨notI, here⟩
      · exact .inl ⟨⟨used, page⟩, file, start⟩
      · refine .inr ⟨fun oldPage => ?_, j, u, here, used, file, start, page⟩
        exact inv.apart j i u old here there notI (p * pgSize)
          ⟨(inv.page_below here ⟨used, page⟩).1, (inv.page_below there oldPage).1⟩

theorem mmapRegion_inv (inv : s.Inv) {prot : Prot} {shared : Bool} {f : Nat} {writable : Bool}
    (asked : 0 < length ∧ length < 2147483648) (room : s.sz + roundLength length ≤ trapframe) :
    (mmapRegion s length prot shared f writable).Inv := by
  unfold mmapRegion
  split
  · exact inv
  split
  · exact inv
  rename_i i free
  obtain ⟨old, there, unused⟩ := findIdx_some free
  have notUsed : old.used = false := by simpa using unused
  obtain ⟨n, rounded, positive, small⟩ := roundLength_bounds asked.1 asked.2
  have aligned := inv.aligned
  have number : n * pgSize / pgSize = n := Nat.mul_div_cancel n (by decide)
  have pages : ∀ p, s.sz / pgSize ≤ p ∧ p < pageCount (s.sz + roundLength length) ↔
      (newVma s.sz length prot shared f).HasPage p := by
    intro p
    rw [lt_pageCount]
    simp only [Vma.HasPage, newVma, rounded, number, true_and, pgSize] at *
    omega
  refine inv.set there ?_ room (Nat.le_add_right _ _) (fun _ => ?_) (fun j w here other a both => ?_)
    (fun p g start => ?_) fun p gone => ?_
  · simp only [newVma, rounded, pgSize] at *
    omega
  · refine ⟨aligned, ?_, ?_, ?_, Nat.le_refl _, some_ne_none f⟩ <;>
      simp only [newVma, rounded, number]
    · exact positive
    · exact small
  · obtain ⟨used, _, above⟩ := covers_iff.mp both.2
    have within := (inv.placed j w here used).below
    have start : s.sz ≤ a := (covers_iff.mp both.1).2.1
    omega
  · have before : s.status p = .mapped g start → ¬(newVma s.sz length prot shared f).HasPage p := by
      intro mapped page
      obtain ⟨j, w, here, used, _, _, within⟩ := (inv.mapped p g start).mp mapped
      have low := (inv.page_below here ⟨used, within⟩).2
      exact absurd page.2.1 (Nat.not_le_of_lt low)
    have notOld : ¬old.HasPage p := fun page => by simp [Vma.HasPage, notUsed] at page
    change (if s.sz / pgSize ≤ p ∧ p < pageCount (s.sz + roundLength length) then _ else _) = _ ↔ _
    rw [and_iff_right notOld]
    by_cases page : (newVma s.sz length prot shared f).HasPage p
    · rw [if_pos ((pages p).mpr page), and_iff_right page, or_iff_left fun mapped => before mapped page]
      simp [newVma]
    · rw [if_neg (mt (pages p).mp page), or_iff_right fun new => page new.1]
  · change (if s.sz / pgSize ≤ p ∧ p < pageCount (s.sz + roundLength length) then _ else _) = _ at gone
    split at gone
    · cases gone
    · have before := inv.gone p gone
      exact ⟨before.1, Nat.lt_add_right _ before.2⟩

theorem munmapPages_eq {n : Nat} (nonneg : 0 ≤ length) (small : length < 2147483648)
    (pages : munmapPages length = n) : n = pageCount length.toNat := by
  simp only [munmapPages, roundLength, pageCount, pgRoundUp, pgSize, uintRange] at *
  omega

theorem takePages_eq {n m : Nat} (le : m ≤ n) (small : n < uintRange) : takePages n m = n - m := by
  simp only [takePages, uintRange] at *
  omega

variable {s' : Space}

theorem munmapRegion_inv (inv : s.Inv) {addr : Nat} (asked : Asked s (.munmap addr length))
    (takes : TakesAll s (.munmap addr length)) (ran : munmapRegion s addr length = some s') :
    s'.Inv := by
  obtain ⟨aligned, nonneg, small, w, member, usedW, low, high, inside⟩ := asked
  obtain ⟨j, here⟩ := getElem?_of_mem member
  have found := vmaAt_of_covers inv here (covers_iff.mpr ⟨usedW, low, high⟩)
  have placed := inv.placed j w here usedW
  obtain ⟨n, pages, part⟩ : ∃ n : Nat, munmapPages length = n ∧ (n = 0 ∨ n = w.npages) := by
    rcases takes j w found with none | all
    · exact ⟨0, none, .inl rfl⟩
    · exact ⟨w.npages, all, .inr rfl⟩
  have count := munmapPages_eq nonneg small pages
  have taken : takePages w.npages (munmapPages length) = w.npages - n := by
    have size := placed.size
    have fits := placed.small
    rw [pages]
    refine takePages_eq ?_ ?_ <;> simp only [pgSize, uintRange] at * <;> omega
  simp only [munmapRegion, found, pages, Int.toNat_natCast] at ran
  split at ran
  · cases ran
  cases ran
  have range : ∀ p, addr / pgSize ≤ p ∧ p < pageCount (addr + length.toNat) ↔
      addr / pgSize ≤ p ∧ p < addr / pgSize + n := by
    intro p
    rw [count, lt_pageCount]
    simp only [pageCount, pgRoundUp, pgSize] at *
    omega
  simp only [range]
  have positive := placed.positive
  rcases part with rfl | rfl
  · have same : unmapVma w length = w := by
      rw [unmapVma, taken, Nat.sub_zero, if_neg (Nat.ne_of_gt positive)]
    have set : s.vmas.set j w = s.vmas := by
      obtain ⟨within, rfl⟩ := List.getElem?_eq_some_iff.mp here
      exact set_getElem_self within
    have empty : ∀ p, ¬(addr / pgSize ≤ p ∧ p < addr / pgSize + 0) := fun p => by omega
    simp only [same, set, if_neg (empty _)]
    exact inv
  · have cleared : unmapVma w length = unusedVma := by rw [unmapVma, taken, Nat.sub_self, if_pos rfl]
    obtain rfl : addr = w.addr := by
      have start := placed.aligned
      rw [placed.size] at inside
      simp only [pageCount, pgRoundUp, pgSize] at *
      omega
    rw [cleared]
    refine inv.set here inv.aligned inv.below (Nat.le_refl _) (fun used => by cases used)
      (fun _ _ _ _ _ both => ?_) (fun p f start => ?_) fun p gone => ?_
    · cases both.1
    · have never : ¬unusedVma.HasPage p := fun has => Bool.noConfusion has.1
      have has : w.HasPage p ↔ w.addr / pgSize ≤ p ∧ p < w.addr / pgSize + w.npages :=
        and_iff_right usedW
      rw [or_iff_right fun page => never page.1, has]
      split <;> simp_all
    · by_cases page : w.addr / pgSize ≤ p ∧ p < w.addr / pgSize + w.npages
      · refine ⟨if_pos page, ?_⟩
        have below := (inv.page_below here ⟨usedW, page⟩).2
        simp only [pgSize] at *
        omega
      · rw [if_neg page] at gone ⊢
        exact inv.gone p gone

theorem fault_inv (inv : s.Inv) {memory : Bool} {f : Option Nat} {off : Nat} {table : Nat → Bool}
    (reads : mmapPgfaultHandler s a memory = .reads f off) :
    Space.Inv { s with valid := update s.valid (a / pgSize) true, table := table } where
  aligned := inv.aligned
  below := inv.below
  placed := inv.placed
  apart := inv.apart
  mapped := inv.mapped
  gone p gone := by
    have other : p ≠ a / pgSize := by
      rintro rfl
      rw [(inv.exact.unmapped a gone).2 memory] at reads
      cases reads
    exact ⟨(update_of_ne other _ _).trans (inv.gone p gone).1, (inv.gone p gone).2⟩

theorem regionStep_inv {c : RegionCall} (inv : s.Inv) (asked : Asked s c) (takes : TakesAll s c)
    (ran : regionStep (some s) c = some s') : s'.Inv := by
  cases c with
  | mmap length prot shared f writable =>
    cases ran
    exact mmapRegion_inv inv asked takes
  | munmap addr length => exact munmapRegion_inv inv asked takes ran
  | fault a memory =>
    simp only [regionStep, bind_some] at ran
    split at ran
    · rename_i f off reads
      cases ran
      exact fault_inv inv reads
    · cases ran

end Regions

/-- Along every run from a process whose size is a multiple of the page size and that has no regions
yet. -/
theorem regions_exact (s : Space) (aligned : s.sz % pgSize = 0) (below : s.sz ≤ trapframe)
    (unused : ∀ v ∈ s.vmas, v.used = false) (fresh : ∀ p, s.status p = .other)
    (calls : List RegionCall)
    (meets : RunMeets regionStep (fun s c => ∀ t, s = some t → Asked t c ∧ TakesAll t c) (some s)
      calls) (t : Space) (reached : calls.foldl regionStep (some s) = some t) : RegionsExact t := by
  have start : s.Inv := by
    have never : ∀ (i : Nat) (v : Vma), s.vmas[i]? = some v → v.used = true → False := by
      intro i v here used
      rw [unused v (mem_of_getElem? here)] at used
      cases used
    refine ⟨aligned, below, fun i v here used => (never i v here used).elim, ?_, ?_, ?_⟩
    · intro i j v w here _ _ a both
      exact never i v here (covers_iff.mp both.1).1
    · intro p f start
      rw [fresh]
      refine ⟨nofun, ?_⟩
      rintro ⟨i, v, here, used, _⟩
      exact (never i v here used).elim
    · intro p gone
      rw [fresh] at gone
      cases gone
  have kept := run_invariant regionStep (fun s c => ∀ t, s = some t → Asked t c ∧ TakesAll t c)
    (fun s => ∀ t, s = some t → t.Inv)
    (fun s c inv may t ran => by
      obtain ⟨before, rfl, _⟩ := bind_eq_some_iff.mp ran
      exact regionStep_inv (inv before rfl) (may before rfl).1 (may before rfl).2 ran)
    calls (some s) (fun t here => Option.some.inj here ▸ start) meets
  exact (kept t reached).exact

def bootSpace : Space :=
  { vmas := replicate nvma unusedVma, sz := pgSize, valid := fun p => p == 0,
    table := fun t => t == 0, status := fun _ => .other }

def twoPages : Vma := newVma pgSize 8192 ⟨true, true, false⟩ true 3

def mapTwoPages : RegionCall := .mmap 8192 ⟨true, true, false⟩ true 3 true

theorem regions_exact_mapTwoPages :
    ∃ t, [mapTwoPages, .fault 4096 true, .munmap 4096 8192].foldl regionStep (some bootSpace) =
      some t ∧ RegionsExact t := by
  refine ⟨_, rfl, regions_exact bootSpace (by decide) (by decide) (by decide) (fun _ => rfl)
    [mapTwoPages, .fault 4096 true, .munmap 4096 8192] ⟨?_, ?_, ?_, trivial⟩ _ rfl⟩
  · rintro t ⟨⟩
    have room : pgSize + roundLength 8192 ≤ trapframe := by decide
    exact ⟨⟨by decide, by decide⟩, room⟩
  · rintro t ⟨⟩
    exact ⟨trivial, trivial⟩
  · rintro t ⟨⟩
    refine ⟨⟨by decide, by decide, by decide, twoPages, by decide, by decide⟩, ?_⟩
    intro i v found
    cases found
    exact .inr (by decide)

/-- A page that was unmapped is read in again when it is accessed. -/
theorem unmapped_page_read_again :
    RunMeets regionStep (fun s c => ∀ t, s = some t → Asked t c) (some bootSpace)
      [mapTwoPages, .munmap 4096 4096] ∧
    ∃ t, [mapTwoPages, .munmap 4096 4096].foldl regionStep (some bootSpace) = some t ∧
      t.status 1 = .unmapped ∧ mmapPgfaultHandler t 4096 true = .reads (some 3) 0 ∧
      ¬RegionsExact t := by
  refine ⟨⟨?_, ?_, trivial⟩, _, rfl, rfl, rfl, fun exact => ?_⟩
  · rintro t ⟨⟩
    exact ⟨by decide, by decide⟩
  · rintro t ⟨⟩
    exact ⟨by decide, by decide, by decide, twoPages, by decide, by decide⟩
  · exact Fault.noConfusion ((exact.unmapped 4096 rfl).2 true)

end KernelLabs.Xv6.Mmap
