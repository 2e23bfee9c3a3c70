import KernelLabs.Xv6.Kalloc

/-!
# Addresses and page numbers

The rounding of `riscv.h` in terms of page numbers, and the pages that the loops of `vm.c` over the
addresses of a range come to.
-/

set_option autoImplicit false

namespace KernelLabs.Xv6

open List

def uintRange : Nat := 4294967296

def pgRoundDown (a : Nat) : Nat := a / pgSize * pgSize

def pageCount (sz : Nat) : Nat := pgRoundUp sz / pgSize

theorem lt_pageCount {v sz : Nat} : v < pageCount sz ↔ v * pgSize < sz := by
  simp only [pageCount, pgRoundUp, pgSize]
  omega

theorem pgRoundUp_eq (sz : Nat) : pgRoundUp sz = pageCount sz * pgSize := by
  have positive : 0 < pgSize := by decide
  rw [pageCount, pgRoundUp, Nat.mul_div_cancel _ positive]

theorem page_lt_pageCount {addr sz : Nat} (within : addr < sz) : addr / pgSize < pageCount sz := by
  rw [lt_pageCount]
  simp only [pgSize]
  omega

theorem pageCount_mono {a b : Nat} (le : a ≤ b) : pageCount a ≤ pageCount b := by
  by_contra more
  have below := lt_pageCount.mp (Nat.lt_of_not_le more)
  have above : ¬pageCount b < pageCount b := Nat.lt_irrefl _
  rw [lt_pageCount] at above
  omega

theorem pgRoundDown_page (addr : Nat) : pgRoundDown addr / pgSize = addr / pgSize := by
  simp only [pgRoundDown, pgSize]
  omega

/-- The page numbers of `i` in `for(i = start; i < stop; i += PGSIZE)`. -/
def pagesFrom (start stop : Nat) : List Nat :=
  (range (pageCount (stop - start))).map fun k => (start + k * pgSize) / pgSize

theorem mem_pagesFrom {start stop v : Nat} :
    v ∈ pagesFrom start stop ↔ start / pgSize ≤ v ∧ v * pgSize + start % pgSize < stop := by
  have page : ∀ k, (start + k * pgSize) / pgSize = start / pgSize + k := fun k =>
    Nat.add_mul_div_right start k (by decide)
  simp only [pagesFrom, mem_map, mem_range, lt_pageCount, page, Nat.lt_sub_iff_add_lt']
  constructor
  · rintro ⟨k, below, rfl⟩
    refine ⟨Nat.le_add_right _ k, ?_⟩
    simp only [pgSize] at *
    omega
  · rintro ⟨low, high⟩
    obtain ⟨k, rfl⟩ := Nat.exists_eq_add_of_le low
    refine ⟨k, ?_, rfl⟩
    simp only [pgSize] at *
    omega

theorem pagesFrom_nodup (start stop : Nat) : (pagesFrom start stop).Nodup := by
  refine Nodup.map (fun a b same => ?_) nodup_range
  simp only [pgSize] at same
  omega

/-- From an address that is rounded, the loop comes to every page. -/
theorem mem_pagesFrom_aligned {start stop v : Nat} (aligned : start % pgSize = 0) :
    v ∈ pagesFrom start stop ↔ start / pgSize ≤ v ∧ v < pageCount stop := by
  rw [mem_pagesFrom, aligned, lt_pageCount, Nat.add_zero]

theorem mem_pagesFrom_zero {v sz : Nat} : v ∈ pagesFrom 0 sz ↔ v < pageCount sz := by
  rw [mem_pagesFrom_aligned (by decide)]
  simp

end KernelLabs.Xv6
