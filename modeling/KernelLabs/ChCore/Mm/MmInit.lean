import KernelLabs.ChCore.Mm.KmallocRuns

/-!
# The page metadata

What `mm_init` of `kernel/mm/mm.c` lays out, and the entries of the metadata array that
`kernel/mm/buddy.c` reads and writes through `get_buddy_page`, `get_merge_page` and `split`.
The access lists run beside the loops of the allocator and follow their branches.
-/

set_option autoImplicit false

namespace KernelLabs.ChCore

open Lib Function List

/-! ## Accesses to the metadata -/

/-- The buddies that the merge loop checks and the pages it merges to. -/
def mergeAccesses : Nat → GlobalMem → Nat → Nat → List Nat
  | 0, _, _, _ => []
  | fuel + 1, z, page, order =>
    if order < buddyMaxOrder - 1 then
      let buddy := page ^^^ 2 ^ order
      let merged := Nat.ldiff page (2 ^ order)
      if checkBuddy (z.pages buddy) order then
        buddy :: merged :: mergeAccesses fuel (takeFree z buddy order) merged (order + 1)
      else [buddy]
    else []

def freeAccesses (z : GlobalMem) (page : Nat) : List Nat :=
  mergeAccesses buddyMaxOrder (setPage z page { z.pages page with head := false }) page
    (z.pages page).order

def splitAccesses (page low : Nat) : Nat → Nat → List Nat
  | 0, _ => []
  | high + 1, size =>
    if low < high + 1 then (page + size / 2) :: splitAccesses page low high (size / 2) else []

def allocAccesses (z : GlobalMem) (order : Nat) : Nat → Nat → List Nat
  | 0, _ => []
  | fuel + 1, current =>
    match z.listOf current with
    | [] => allocAccesses z order fuel (current + 1)
    | page :: _ => splitAccesses page order current (2 ^ current)

def buddyAccesses (s : BuddySys) : BuddyOp → List Nat
  | .getPages order => allocAccesses s.mem order (buddyMaxOrder - order) order
  | .freePages block => freeAccesses s.mem block.1

/-- The frees of `init_buddy` and the calls `ops` stay within the metadata array. -/
def AccessesInside (pageNum : Nat) (beyond : Nat → Page) (ops : List BuddyOp) : Prop :=
  RunMeets buddyFreePages (fun z page => ∀ i ∈ freeAccesses z page, i < pageNum)
      (zeroedMem pageNum beyond) (range pageNum) ∧
    RunMeets buddyStep (fun s op => ∀ i ∈ buddyAccesses s op, i < pageNum)
      (startBuddy pageNum beyond) ops

structure OrdersFit (n : Nat) (z : GlobalMem) : Prop where
  page : ∀ i, i < n → (z.pages i).order < buddyMaxOrder ∧ 2 ^ (z.pages i).order ∣ i
  listed : ∀ k, ∀ i ∈ z.listOf k, i < n ∧ k < buddyMaxOrder ∧ 2 ^ k ∣ i

section Inside
variable {n : Nat} {z : GlobalMem}

theorem OrdersFit.setPage (fit : OrdersFit n z) (i : Nat) (page : Page)
    (order : i < n → page.order < buddyMaxOrder ∧ 2 ^ page.order ∣ i) :
    OrdersFit n (setPage z i page) := by
  refine ⟨fun j below => ?_, fit.listed⟩
  by_cases same : j = i
  · subst same
    simpa [ChCore.setPage] using order below
  · simpa [ChCore.setPage, same] using fit.page j below

theorem OrdersFit.putFree (fit : OrdersFit n z) {i k : Nat} (below : i < n)
    (small : k < buddyMaxOrder) (aligned : 2 ^ k ∣ i) : OrdersFit n (putFree z i k) := by
  refine ⟨(fit.setPage i _ fun _ => ⟨small, aligned⟩).page, fun o j member => ?_⟩
  by_cases same : o = k
  · subst same
    simp only [ChCore.putFree, GlobalMem.listOf, update_self, mem_cons] at member
    rcases member with rfl | old
    · exact ⟨below, small, aligned⟩
    · exact fit.listed o j old
  · simp only [ChCore.putFree, GlobalMem.listOf, update_of_ne same] at member
    exact fit.listed o j member

theorem OrdersFit.takeFree (fit : OrdersFit n z) (i k : Nat) : OrdersFit n (takeFree z i k) :=
  ⟨(fit.setPage i _ fun _ => ⟨show 0 < buddyMaxOrder by decide, by simp⟩).page,
    fun o j member => fit.listed o j (mem_of_mem_erase member)⟩

theorem ldiff_aligned {page order : Nat} (aligned : 2 ^ order ∣ page) :
    Nat.ldiff page (2 ^ order) ≤ page ∧ 2 ^ (order + 1) ∣ Nat.ldiff page (2 ^ order) := by
  rcases low_or_high aligned with ⟨low, -, same⟩ | ⟨low, rfl, whole, -, same⟩
  · rw [same]
    exact ⟨le_refl _, low⟩
  · rw [same]
    exact ⟨Nat.le_add_right _ _, whole⟩

section Whole
variable (whole : 2 ^ (buddyMaxOrder - 1) ∣ n)
include whole

/-- The buddy lies in the same block of the largest order. -/
theorem buddy_lt {page order : Nat} (below : page < n) (small : order < buddyMaxOrder - 1) :
    page ^^^ 2 ^ order < n := by
  obtain ⟨m, rfl⟩ := whole
  rw [Nat.mul_comm, ← Nat.div_lt_iff_lt_mul (Nat.two_pow_pos _)] at below ⊢
  rw [Nat.xor_div_two_pow, Nat.div_eq_of_lt (Nat.pow_lt_pow_right (by decide) small), Nat.xor_zero]
  exact below

theorem block_inside {page order : Nat} (below : page < n) (small : order < buddyMaxOrder)
    (aligned : 2 ^ order ∣ page) : page + 2 ^ order ≤ n := by
  obtain ⟨blocks, rfl⟩ := (Nat.pow_dvd_pow 2 (Nat.le_sub_one_of_lt small)).trans whole
  obtain ⟨block, rfl⟩ := aligned
  rw [← Nat.mul_succ]
  exact Nat.mul_le_mul_left _ (Nat.lt_of_mul_lt_mul_left below)

theorem mergeLoop_inside : ∀ (fuel : Nat) (z : GlobalMem) (page order : Nat), OrdersFit n z →
    page < n → order < buddyMaxOrder → 2 ^ order ∣ page →
    (∀ i ∈ mergeAccesses fuel z page order, i < n) ∧
      OrdersFit n (mergeLoop fuel z page order).1 ∧
      (mergeLoop fuel z page order).2.1 < n ∧
      (mergeLoop fuel z page order).2.2 < buddyMaxOrder ∧
      2 ^ (mergeLoop fuel z page order).2.2 ∣ (mergeLoop fuel z page order).2.1 := by
  intro fuel
  induction fuel with
  | zero =>
    intro z page order fit below small aligned
    exact ⟨by simp [mergeAccesses], fit, below, small, aligned⟩
  | succ fuel ih =>
    intro z page order fit below small aligned
    rw [mergeAccesses, mergeLoop]
    by_cases more : order < buddyMaxOrder - 1
    · have buddy := buddy_lt whole below more
      rw [if_pos more, if_pos more]
      by_cases check : checkBuddy (z.pages (page ^^^ 2 ^ order)) order = true
      · obtain ⟨down, merged⟩ := ldiff_aligned aligned
        have inside := Nat.lt_of_le_of_lt down below
        obtain ⟨later, rest⟩ := ih _ _ (order + 1) (fit.takeFree (page ^^^ 2 ^ order) order) inside
          (by omega) merged
        simp only [if_pos check]
        refine ⟨?_, rest⟩
        simpa only [forall_mem_cons] using ⟨buddy, inside, later⟩
      · simp only [if_neg check]
        exact ⟨by simpa using buddy, fit, below, small, aligned⟩
    · rw [if_neg more, if_neg more]
      exact ⟨by simp, fit, below, small, aligned⟩

theorem buddyFreePages_inside (fit : OrdersFit n z) {page : Nat} (below : page < n) :
    (∀ i ∈ freeAccesses z page, i < n) ∧ OrdersFit n (buddyFreePages z page) := by
  obtain ⟨small, aligned⟩ := fit.page page below
  obtain ⟨inside, fit', below', small', aligned'⟩ := mergeLoop_inside whole buddyMaxOrder _ page _
    (fit.setPage page { z.pages page with head := false } fun _ => ⟨small, aligned⟩) below small
    aligned
  exact ⟨inside, fit'.putFree below' small' aligned'⟩

end Whole

theorem split_inside (page low : Nat) : ∀ (high size : Nat) (z : GlobalMem), OrdersFit n z →
    page + size ≤ n → size = 2 ^ high → high ≤ buddyMaxOrder → 2 ^ high ∣ page →
    (∀ i ∈ splitAccesses page low high size, i < n) ∧ OrdersFit n (split page low high size z) := by
  intro high
  induction high with
  | zero => intro size z fit _ _ _ _; exact ⟨by simp [splitAccesses], fit⟩
  | succ high ih =>
    intro size z fit inside pow small aligned
    rw [splitAccesses, split]
    split
    · have half : size / 2 = 2 ^ high := by omega
      have aligned' : 2 ^ high ∣ page := (Nat.pow_dvd_pow 2 (Nat.le_succ high)).trans aligned
      rw [half]
      obtain ⟨later, fit'⟩ := ih _ (putFree z (page + 2 ^ high) high)
        (fit.putFree (by omega) (by omega) (Nat.dvd_add aligned' (dvd_refl _))) (by omega) rfl (by omega)
        aligned'
      refine ⟨?_, fit'⟩
      simpa only [forall_mem_cons] using ⟨by omega, later⟩
    · exact ⟨by simp, fit⟩

theorem allocPageLoop_inside (whole : 2 ^ (buddyMaxOrder - 1) ∣ n) (fit : OrdersFit n z)
    (order : Nat) : ∀ (fuel current : Nat), order ≤ current →
    (∀ i ∈ allocAccesses z order fuel current, i < n) ∧
      ∀ z' page, allocPageLoop z order fuel current = some (z', page) → OrdersFit n z' ∧ page < n := by
  intro fuel
  induction fuel with
  | zero => intro current _; exact ⟨by simp [allocAccesses], fun z' page got => by cases got⟩
  | succ fuel ih =>
    intro current ordered
    rw [allocAccesses, allocPageLoop]
    cases list : z.listOf current with
    | nil => exact ih (current + 1) (by omega)
    | cons first rest =>
      obtain ⟨below, small, aligned⟩ := fit.listed current first (by rw [list]; exact mem_cons_self)
      obtain ⟨inside, fit'⟩ := split_inside first order current (2 ^ current)
        (takeFree z first current) (fit.takeFree first current)
        (block_inside whole below small aligned) rfl small.le aligned
      refine ⟨inside, fun z' page got => ?_⟩
      cases got
      exact ⟨fit'.setPage _ _ fun _ => ⟨Nat.lt_of_le_of_lt ordered small,
        (Nat.pow_dvd_pow 2 ordered).trans aligned⟩, below⟩

end Inside

/-- With whole blocks of the largest order, no access leaves the metadata array. -/
theorem accesses_inside {pageNum : Nat} (whole : 2 ^ (buddyMaxOrder - 1) ∣ pageNum)
    (beyond : Nat → Page) (ops : List BuddyOp)
    (calls : RunMeets buddyStep buddyCall (startBuddy pageNum beyond) ops) :
    AccessesInside pageNum beyond ops := by
  have zeroed : OrdersFit pageNum (zeroedMem pageNum beyond) :=
    ⟨fun i below => by simp [zeroedMem, below, buddyMaxOrder], fun k i member => by cases member⟩
  have frees : RunMeets buddyFreePages (fun _ page => page < pageNum) (zeroedMem pageNum beyond)
      (range pageNum) :=
    runMeets_of_mem (fun i member => mem_range.mp member) _
  have started : OrdersFit pageNum (initBuddy pageNum beyond) :=
    run_invariant buddyFreePages _ (OrdersFit pageNum)
      (fun z page fit below => (buddyFreePages_inside whole fit below).2) _ _ zeroed frees
  refine ⟨RunMeets.of_invariant (fun z page fit below => (buddyFreePages_inside whole fit below).2)
    (fun z page fit below => (buddyFreePages_inside whole fit below).1) zeroed frees, ?_⟩
  have step : ∀ (s : BuddySys) (op : BuddyOp),
      (OrdersFit pageNum s.mem ∧ ∀ b ∈ s.used, b.1 < pageNum) → buddyCall s op →
      (∀ i ∈ buddyAccesses s op, i < pageNum) ∧
        OrdersFit pageNum (buddyStep s op).mem ∧ ∀ b ∈ (buddyStep s op).used, b.1 < pageNum := by
    rintro s op ⟨fit, used⟩ call
    cases op with
    | getPages order =>
      obtain ⟨inside, found⟩ := allocPageLoop_inside whole fit order (buddyMaxOrder - order) order
        (le_refl _)
      refine ⟨inside, ?_⟩
      rw [buddyStep, buddyGetPages, if_neg (Nat.not_le.mpr call), allocPage]
      cases result : allocPageLoop s.mem order (buddyMaxOrder - order) order with
      | none => exact ⟨fit, used⟩
      | some r =>
        obtain ⟨fit', below⟩ := found r.1 r.2 result
        exact ⟨fit', forall_mem_cons.mpr ⟨below, used⟩⟩
    | freePages block =>
      obtain ⟨inside, fit'⟩ := buddyFreePages_inside whole fit (used block call)
      exact ⟨inside, fit', fun b member => used b (mem_of_mem_erase member)⟩
  exact RunMeets.of_invariant (fun s op inv call => (step s op inv call).2)
    (fun s op inv call => (step s op inv call).1) ⟨started, by simp [startBuddy]⟩ calls

theorem accesses_inside_largest_block :
    AccessesInside 8192 (fun _ => ⟨0, true, true⟩) [.getPages 3, .getPages 0] :=
  accesses_inside (by decide) _ _ ⟨by decide, by decide, trivial⟩

/-- Freeing the last of three pages reads the metadata of a fourth one. -/
theorem three_pages_read_fourth : ¬ AccessesInside 3 (fun _ => ⟨0, false, false⟩) [] := by
  rw [AccessesInside]
  decide +kernel

/-! ## The layout of the free range -/

def sizeofPage : Nat := 40

/-- The heap that `mm_init` sets up in the free range; the memory around the metadata may hold
anything. -/
def mmInit (freeMemStart freeMemEnd : Nat) (beyond : Nat → Page) (slabBeyond mem : Nat → Nat) :
    Heap :=
  let npages := (freeMemEnd - freeMemStart) / (buddyPageSize + sizeofPage)
  let startVaddr := roundUpPage (freeMemStart + npages * sizeofPage)
  bootHeap npages startVaddr beyond slabBeyond mem

structure LayoutExact (freeMemStart freeMemEnd : Nat) (h : Heap) (address : Nat) : Prop where
  metadata : Inside (freeMemStart, h.zone.pageNum * sizeofPage)
    (freeMemStart, freeMemEnd - freeMemStart)
  pages : Inside (h.startAddr, h.zone.pageNum * buddyPageSize)
    (freeMemStart, freeMemEnd - freeMemStart)
  apart : Apart (freeMemStart, h.zone.pageNum * sizeofPage)
    (h.startAddr, h.zone.pageNum * buddyPageSize)
  page : ∀ i, virtToPage h address = some i → i < h.zone.pageNum ∧
    pageToVirt h i = address / buddyPageSize * buddyPageSize

/-- What `ROUND_UP` adds to the end of the metadata of the range. -/
def layoutPadding (freeMemStart length : Nat) : Nat :=
  (buddyPageSize - (freeMemStart + length / (buddyPageSize + sizeofPage) * sizeofPage) %
    buddyPageSize) % buddyPageSize

theorem roundUpPage_eq {x : Nat}
    (fits : x + (buddyPageSize - x % buddyPageSize) % buddyPageSize < 2 ^ 64) :
    roundUpPage x = x + (buddyPageSize - x % buddyPageSize) % buddyPageSize := by
  simp only [roundUpPage, buddyPageSize] at *
  omega

section Layout
variable (freeMemStart length : Nat) (beyond : Nat → Page) (slabBeyond mem : Nat → Nat)

theorem mmInit_pageNum :
    (mmInit freeMemStart (freeMemStart + length) beyond slabBeyond mem).zone.pageNum =
      length / (buddyPageSize + sizeofPage) := by
  rw [mmInit, Nat.add_sub_cancel_left]
  exact initBuddy_pageNum _ _

/-- The layout fits if the division leaves the padding over, and then the end of the zone is the
one address with a wrong page. -/
theorem mmInit_layout_iff (address : Nat) (end64 : freeMemStart + length < 2 ^ 64) :
    LayoutExact freeMemStart (freeMemStart + length)
        (mmInit freeMemStart (freeMemStart + length) beyond slabBeyond mem) address ↔
      layoutPadding freeMemStart length ≤ length % (buddyPageSize + sizeofPage) ∧
        address ≠ freeMemStart + layoutPadding freeMemStart length +
          length / (buddyPageSize + sizeofPage) * (buddyPageSize + sizeofPage) := by
  have pageNum := mmInit_pageNum freeMemStart length beyond slabBeyond mem
  have start : (mmInit freeMemStart (freeMemStart + length) beyond slabBeyond mem).startAddr =
      roundUpPage (freeMemStart + length / (buddyPageSize + sizeofPage) * sizeofPage) := by
    rw [mmInit, Nat.add_sub_cancel_left, bootHeap]
  generalize mmInit freeMemStart (freeMemStart + length) beyond slabBeyond mem = h at *
  simp only [layoutPadding] at *
  constructor
  · rintro ⟨metadata, inside, apart, page⟩
    simp only [Inside, Apart, virtToPage, pageToVirt, pageIdx, roundUpPage, buddyPageSize,
      sizeofPage] at *
    refine ⟨by omega, ?_⟩
    rintro rfl
    have found := page _ (if_neg (by omega))
    omega
  rintro ⟨fits, notEnd⟩
  rw [roundUpPage_eq (by simp only [buddyPageSize, sizeofPage] at *; omega)] at start
  refine ⟨?_, ?_, ?_, fun i found => ?_⟩
  · simp only [Inside, buddyPageSize, sizeofPage] at *
    omega
  · simp only [Inside, buddyPageSize, sizeofPage] at *
    omega
  · simp only [Apart, buddyPageSize, sizeofPage] at *
    omega
  · rw [virtToPage] at found
    split at found
    · cases found
    · cases found
      simp only [pageToVirt, pageIdx, buddyPageSize, sizeofPage] at *
      omega

end Layout

theorem mmInit_layout_three_pages : LayoutExact 4096 (4096 + 12288)
      (mmInit 4096 (4096 + 12288) (fun _ => ⟨0, false, false⟩) (fun _ => 0) fun _ => 0) 8200 :=
  (mmInit_layout_iff 4096 12288 _ _ _ 8200 (by decide)).mpr (by decide)

/-- A range of 413600 bytes is divided without remainder, so the last page lies behind it. -/
theorem mmInit_last_page_outside : ¬ LayoutExact 4096 (4096 + 413600)
      (mmInit 4096 (4096 + 413600) (fun _ => ⟨0, false, false⟩) (fun _ => 0) fun _ => 0) 8200 := by
  rintro ⟨-, pages, -, -⟩
  rw [mmInit_pageNum] at pages
  exact absurd pages.2 (by decide)

end KernelLabs.ChCore
