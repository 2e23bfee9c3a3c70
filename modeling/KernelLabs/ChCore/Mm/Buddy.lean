import KernelLabs.Lib.Dyadic
import KernelLabs.Lib.Runs
import Mathlib.Data.List.Nodup

/-!
# The buddy allocator

Model of `kernel/mm/buddy.c`.  Pages are named by their index, a free list is the list
of page indexes behind `list_head` with the `nr_free` counter beside it, and
`list_del` takes a page off whatever list it is on.  The two bits of `page->flags` are
the fields `head` and `buddy`.

The invariant is that the free blocks together with the blocks that are not free tile
the pages; `split` and `buddy_free_pages` move it along one block at a time.
-/

set_option autoImplicit false

namespace KernelLabs.ChCore

open Lib Function List

def buddyMaxOrder : Nat := 14

structure Page where
  order : Nat
  head : Bool
  buddy : Bool
  deriving DecidableEq, Repr

structure FreeList where
  list : List Nat
  nrFree : Nat
  deriving DecidableEq, Repr

structure GlobalMem where
  pageNum : Nat
  pages : Nat → Page
  freeLists : Nat → FreeList

def GlobalMem.listOf (z : GlobalMem) (order : Nat) : List Nat := (z.freeLists order).list

def setPage (z : GlobalMem) (i : Nat) (page : Page) : GlobalMem :=
  { z with pages := update z.pages i page }

/-- `set_page_order_buddy`, `list_add` to list `order` and `nr_free++`. -/
def putFree (z : GlobalMem) (i order : Nat) : GlobalMem :=
  { setPage z i { z.pages i with order := order, buddy := true } with
    freeLists := update z.freeLists order
      { list := i :: z.listOf order, nrFree := (z.freeLists order).nrFree + 1 } }

/-- `list_del`, `nr_free--` of list `order` and `clear_page_order_buddy`. -/
def takeFree (z : GlobalMem) (i order : Nat) : GlobalMem :=
  { setPage z i { z.pages i with order := 0, buddy := false } with
    freeLists := fun k =>
      { list := (z.listOf k).erase i
        nrFree := if k = order then (z.freeLists k).nrFree - 1 else (z.freeLists k).nrFree } }

def split (page low : Nat) : Nat → Nat → GlobalMem → GlobalMem
  | 0, _, z => z
  | high + 1, size, z =>
    if low < high + 1 then split page low high (size / 2) (putFree z (page + size / 2) high)
    else z

def allocPageLoop (z : GlobalMem) (order : Nat) : Nat → Nat → Option (GlobalMem × Nat)
  | 0, _ => none
  | fuel + 1, current =>
    match z.listOf current with
    | [] => allocPageLoop z order fuel (current + 1)
    | page :: _ =>
      let z := split page order current (2 ^ current) (takeFree z page current)
      some (setPage z page { z.pages page with order := order, head := true }, page)

def allocPage (z : GlobalMem) (order : Nat) : Option (GlobalMem × Nat) :=
  allocPageLoop z order (buddyMaxOrder - order) order

/-- `buddy_get_pages`; the `BUG_ON` for a large order ends in `none` as well. -/
def buddyGetPages (z : GlobalMem) (order : Nat) : Option (GlobalMem × Nat) :=
  if buddyMaxOrder ≤ order then none else allocPage z order

def checkBuddy (page : Page) (order : Nat) : Bool := page.buddy && page.order == order

/-- The merge loop of `buddy_free_pages`: the page and order it ends with. -/
def mergeLoop : Nat → GlobalMem → Nat → Nat → GlobalMem × Nat × Nat
  | 0, z, page, order => (z, page, order)
  | fuel + 1, z, page, order =>
    if order < buddyMaxOrder - 1 then
      let buddy := page ^^^ 2 ^ order
      if checkBuddy (z.pages buddy) order then
        mergeLoop fuel (takeFree z buddy order) (Nat.ldiff page (2 ^ order)) (order + 1)
      else (z, page, order)
    else (z, page, order)

def buddyFreePages (z : GlobalMem) (page : Nat) : GlobalMem :=
  let order := (z.pages page).order
  let z := setPage z page { z.pages page with head := false }
  let (z, page, order) := mergeLoop buddyMaxOrder z page order
  putFree z page order

/-- The metadata before `init_buddy` frees the pages; `beyond` is what lies behind it. -/
def zeroedMem (pageNum : Nat) (beyond : Nat → Page) : GlobalMem :=
  { pageNum := pageNum
    pages := fun i => if i < pageNum then { order := 0, head := false, buddy := false } else beyond i
    freeLists := fun _ => { list := [], nrFree := 0 } }

def initBuddy (pageNum : Nat) (beyond : Nat → Page) : GlobalMem :=
  (range pageNum).foldl buddyFreePages (zeroedMem pageNum beyond)

/-! ## The invariant -/

def freeBlocks (z : GlobalMem) : List (Nat × Nat) :=
  (range buddyMaxOrder).flatMap fun k => (z.listOf k).map fun i => (i, k)

structure MemInv (n : Nat) (z : GlobalMem) (used : List (Nat × Nat)) : Prop where
  tiles : Tiles n (freeBlocks z ++ used)
  nrFree : ∀ k, (z.freeLists k).nrFree = (z.listOf k).length
  flags : ∀ i k, i ∈ z.listOf k ↔ (z.pages i).buddy = true ∧ (z.pages i).order = k
  small : ∀ k, buddyMaxOrder ≤ k → z.listOf k = []
  coalesced : ∀ k, k < buddyMaxOrder - 1 → ∀ i, i ∈ z.listOf k → i ^^^ 2 ^ k ∉ z.listOf k

def Untouched (n : Nat) (used : List (Nat × Nat)) (z z' : GlobalMem) : Prop :=
  ∀ j, (n ≤ j ∨ ∃ b ∈ used, b.1 = j) → z'.pages j = z.pages j

variable {l : List (Nat × Nat)} {b : Nat × Nat} {k : Nat}

section Blocks
variable {n : Nat} {z z' : GlobalMem} {used : List (Nat × Nat)}

theorem mem_freeBlocks (i k : Nat) :
    (i, k) ∈ freeBlocks z ↔ k < buddyMaxOrder ∧ i ∈ z.listOf k := by
  simp [freeBlocks]

theorem flatMap_range_perm {β : Type} (f g : Nat → List β) (x : β) (k : Nat)
    (here : (f k).Perm (x :: g k)) (elsewhere : ∀ j, j ≠ k → f j = g j) :
    ∀ m, k < m → ((range m).flatMap f).Perm (x :: (range m).flatMap g) := by
  intro m
  induction m with
  | zero => intro below; omega
  | succ m ih =>
    intro below
    simp only [range_succ, flatMap_append, flatMap_cons, flatMap_nil, append_nil]
    by_cases last : k = m
    · subst last
      have same : (range k).flatMap f = (range k).flatMap g := by
        apply flatMap_congr
        intro j member
        exact elsewhere j (by have := mem_range.mp member; omega)
      rw [same]
      exact (here.append_left _).trans perm_middle
    · rw [elsewhere m (Ne.symm last)]
      exact (ih (by omega)).append_right (g m)

theorem freeBlocks_perm (i : Nat) (below : k < buddyMaxOrder)
    (here : (z.listOf k).Perm (i :: z'.listOf k))
    (elsewhere : ∀ j, j ≠ k → z.listOf j = z'.listOf j) :
    (freeBlocks z).Perm ((i, k) :: freeBlocks z') := by
  apply flatMap_range_perm _ _ (i, k) k _ _ _ below
  · exact here.map fun i => (i, k)
  · intro j ne
    rw [elsewhere j ne]

variable {c : Nat × Nat} {r : List (Nat × Nat)}

theorem Tiles.to_front (tiles : Tiles n (l ++ c :: r)) : Tiles n (c :: (l ++ r)) :=
  tiles.perm perm_middle

theorem Tiles.from_front (tiles : Tiles n (c :: (l ++ r))) : Tiles n (l ++ c :: r) :=
  tiles.perm perm_middle.symm

theorem MemInv.list_lt (inv : MemInv n z used) {i : Nat} (member : i ∈ z.listOf k) :
    k < buddyMaxOrder := by
  by_contra large
  rw [inv.small k (Nat.le_of_not_lt large)] at member
  cases member

theorem MemInv.mem_unique (inv : MemInv n z used) {i j : Nat} (inJ : i ∈ z.listOf j)
    (inK : i ∈ z.listOf k) : j = k :=
  ((inv.flags i j).mp inJ).2.symm.trans ((inv.flags i k).mp inK).2

theorem MemInv.list_nodup (inv : MemInv n z used) (k : Nat) : (z.listOf k).Nodup := by
  by_cases below : k < buddyMaxOrder
  · have free : (freeBlocks z).Nodup := (nodup_append.mp inv.tiles.nodup).1
    have one := (nodup_flatMap.mp free).1 k (mem_range.mpr below)
    exact one.of_map _
  · rw [inv.small k (Nat.le_of_not_lt below)]
    exact nodup_nil

theorem MemInv.used_not_listed (inv : MemInv n z (b :: used)) (k : Nat) : b.1 ∉ z.listOf k := by
  intro member
  have listed : (b.1, k) ∈ freeBlocks z := (mem_freeBlocks b.1 k).mpr ⟨inv.list_lt member, member⟩
  exact (Tiles.to_front inv.tiles).start_ne (mem_append_left used listed) rfl

theorem MemInv.used_not_buddy (inv : MemInv n z (b :: used)) : (z.pages b.1).buddy = false := by
  by_contra marked
  rw [Bool.not_eq_false] at marked
  exact inv.used_not_listed _ ((inv.flags b.1 _).mpr ⟨marked, rfl⟩)

end Blocks

/-! ## The elementary changes -/

open GlobalMem

section Changes
variable {n : Nat} {z z' : GlobalMem} {used used' : List (Nat × Nat)}

theorem Untouched.trans {z'' : GlobalMem} (first : Untouched n used z z')
    (second : Untouched n used z' z'') : Untouched n used z z'' :=
  fun j outside => (second j outside).trans (first j outside)

theorem Untouched.tail (untouched : Untouched n (b :: used) z z') : Untouched n used z z' := by
  intro j outside
  apply untouched j
  rcases outside with behind | ⟨c, member, start⟩
  · exact .inl behind
  · exact .inr ⟨c, mem_cons_of_mem b member, start⟩

section
variable {i : Nat} (tiles : Tiles n (l ++ (i, k) :: used))
include tiles

theorem untouched_setPage (page : Page) : Untouched n used z (setPage z i page) := by
  intro j outside
  apply update_of_ne
  intro eq
  have front := Tiles.to_front tiles
  rcases outside with behind | ⟨c, member, start⟩
  · have below := front.start_lt (i, k) mem_cons_self
    simp only at below
    omega
  · exact front.start_ne (mem_append_right _ member) (start.trans eq)

theorem untouched_putFree : Untouched n used z (putFree z i k) :=
  untouched_setPage tiles _

theorem untouched_takeFree : Untouched n used z (takeFree z i k) :=
  untouched_setPage tiles _

end

/-- Other blocks in use, the lists and metadata as they are. -/
theorem MemInv.retile {m : Nat} (inv : MemInv n z used) (tiles : Tiles m (freeBlocks z ++ used')) :
    MemInv m z used' :=
  ⟨tiles, inv.nrFree, inv.flags, inv.small, inv.coalesced⟩

theorem MemInv.keep_pages (inv : MemInv n z used) (i : Nat) (page : Page)
    (before : (z.pages i).buddy = false) (after : page.buddy = false) :
    MemInv n (setPage z i page) used := by
  refine ⟨inv.tiles, inv.nrFree, ?_, inv.small, inv.coalesced⟩
  intro j k
  refine (inv.flags j k).trans ?_
  by_cases eq : j = i
  · subst eq
    simp [setPage, before, after]
  · simp [setPage, update_of_ne eq]

theorem MemInv.keep_takeFree (inv : MemInv n z used) {i : Nat} (member : i ∈ z.listOf k) :
    MemInv n (takeFree z i k) ((i, k) :: used) := by
  have below := inv.list_lt member
  have lists : ∀ j, (takeFree z i k).listOf j = (z.listOf j).erase i := fun _ => rfl
  have elsewhere : ∀ j, j ≠ k → z.listOf j = (takeFree z i k).listOf j := by
    intro j ne
    have absent : i ∉ z.listOf j := fun inJ => ne (inv.mem_unique inJ member)
    rw [lists, erase_of_not_mem absent]
  have perm : (freeBlocks z).Perm ((i, k) :: freeBlocks (takeFree z i k)) :=
    freeBlocks_perm i below (perm_cons_erase member) elsewhere
  refine ⟨?_, ?_, ?_, ?_, ?_⟩
  · apply Tiles.from_front
    exact inv.tiles.perm (perm.append_right used)
  · intro j
    have count := inv.nrFree j
    by_cases eq : j = k
    · subst eq
      rw [lists, length_erase_of_mem member, ← count]
      simp [takeFree]
    · rw [← elsewhere j eq]
      simp [takeFree, eq, count]
  · intro j m
    rw [lists]
    by_cases eq : j = i
    · subst eq
      simp [takeFree, setPage, (inv.list_nodup m).not_mem_erase]
    · rw [mem_erase_of_ne eq, inv.flags j m]
      simp [takeFree, setPage, update_of_ne eq]
  · intro j large
    rw [lists, inv.small j large]
    rfl
  · intro j low x inX buddy
    rw [lists] at inX buddy
    exact inv.coalesced j low x (mem_of_mem_erase inX) (mem_of_mem_erase buddy)

theorem MemInv.keep_putFree {i : Nat} (inv : MemInv n z ((i, k) :: used))
    (below : k < buddyMaxOrder) (alone : k < buddyMaxOrder - 1 → i ^^^ 2 ^ k ∉ z.listOf k) :
    MemInv n (putFree z i k) used := by
  have absent := inv.used_not_listed
  have here : (putFree z i k).listOf k = i :: z.listOf k := by
    simp [putFree, listOf]
  have elsewhere : ∀ j, j ≠ k → (putFree z i k).listOf j = z.listOf j := by
    intro j ne
    simp [putFree, listOf, update_of_ne ne]
  have perm : (freeBlocks (putFree z i k)).Perm ((i, k) :: freeBlocks z) :=
    freeBlocks_perm i below (by rw [here]) elsewhere
  refine ⟨?_, ?_, ?_, ?_, ?_⟩
  · apply (Tiles.to_front inv.tiles).perm
    exact perm.symm.append_right used
  · intro j
    have count := inv.nrFree j
    by_cases eq : j = k
    · subst eq
      rw [here]
      simp [putFree, count]
    · rw [elsewhere j eq, ← count]
      simp [putFree, update_of_ne eq]
  · intro j m
    by_cases eq : j = i
    · subst eq
      have marked : (putFree z j k).pages j = { z.pages j with order := k, buddy := true } := by
        simp [putFree, setPage]
      rw [marked]
      by_cases same : m = k
      · subst same
        simp [here]
      · rw [elsewhere m same]
        simp [absent m, Ne.symm same]
    · have page : (putFree z i k).pages j = z.pages j := by
        simp [putFree, setPage, update_of_ne eq]
      rw [page, ← inv.flags j m]
      by_cases same : m = k
      · subst same
        rw [here, mem_cons]
        simp [eq]
      · rw [elsewhere m same]
  · intro j large
    rw [elsewhere j (by omega), inv.small j large]
  · intro j low x inX buddy
    by_cases same : j = k
    · subst same
      rw [here] at inX buddy
      have free := alone low
      have pos : 2 ^ j ≠ 0 := (Nat.two_pow_pos j).ne'
      rcases mem_cons.mp inX with rfl | inX
      · rcases mem_cons.mp buddy with self | buddy
        · have zero := congrArg (x ^^^ ·) self
          rw [← Nat.xor_assoc, Nat.xor_self, Nat.zero_xor] at zero
          exact pos zero
        · exact free buddy
      · rcases mem_cons.mp buddy with self | buddy
        · rw [← self, Nat.xor_assoc, Nat.xor_self, Nat.xor_zero] at free
          exact free inX
        · exact inv.coalesced j low x inX buddy
    · rw [elsewhere j same] at inX buddy
      exact inv.coalesced j low x inX buddy

end Changes

/-! ## Splitting and merging -/

section Loops
variable {n : Nat} {used : List (Nat × Nat)}

/-- `split` hands the upper halves to the free lists and keeps the lowest block. -/
theorem split_spec (page low : Nat) : ∀ (high size : Nat) (z : GlobalMem), low ≤ high →
    high < buddyMaxOrder → size = 2 ^ high → MemInv n z ((page, high) :: used) →
    MemInv n (split page low high size z) ((page, low) :: used) ∧
      Untouched n used z (split page low high size z) := by
  intro high
  induction high with
  | zero =>
    intro size z ordered _ _ inv
    obtain rfl : low = 0 := Nat.le_zero.mp ordered
    exact ⟨inv, fun j _ => rfl⟩
  | succ high ih =>
    intro size z ordered small sized inv
    rw [split]
    by_cases more : low < high + 1
    · rw [if_pos more]
      have half : size / 2 = 2 ^ high := by
        rw [sized, pow_succ]
        omega
      rw [half]
      -- the block in hand becomes its two halves, and the upper one is put on its list
      have halves : Tiles n (freeBlocks z ++ (page + 2 ^ high, high) :: (page, high) :: used) := by
        have cut := (Tiles.to_front inv.tiles).split
        apply Tiles.from_front
        apply (cut.perm (List.Perm.swap _ _ _)).perm
        exact (perm_middle.symm).cons _
      have cut : MemInv n z ((page + 2 ^ high, high) :: (page, high) :: used) := inv.retile halves
      have whole : 2 ^ (high + 1) ∣ page :=
        inv.tiles.aligned (page, high + 1) (mem_append_right _ mem_cons_self)
      have other : (page + 2 ^ high) ^^^ 2 ^ high = page := by
        rw [← xor_two_pow_of_low whole, Nat.xor_assoc, Nat.xor_self, Nat.xor_zero]
      have lowBlock : MemInv n z ((page, high) :: (page + 2 ^ high, high) :: used) :=
        inv.retile (halves.perm ((List.Perm.swap _ _ _).append_left _))
      have alone : (page + 2 ^ high) ^^^ 2 ^ high ∉ z.listOf high := by
        rw [other]
        exact lowBlock.used_not_listed high
      have put := MemInv.keep_putFree cut (by omega) (fun _ => alone)
      have touched : Untouched n ((page, high) :: used) z (putFree z (page + 2 ^ high) high) :=
        untouched_putFree halves
      obtain ⟨final, rest⟩ := ih (2 ^ high) _ (by omega) (by omega) rfl put
      exact ⟨final, touched.tail.trans rest⟩
    · rw [if_neg more]
      obtain rfl : low = high + 1 := by omega
      exact ⟨inv, fun j _ => rfl⟩

theorem Tiles.join (page order : Nat)
    (tiles : Tiles n (l ++ (page ^^^ 2 ^ order, order) :: (page, order) :: used)) :
    Tiles n (l ++ (Nat.ldiff page (2 ^ order), order + 1) :: used) := by
  have aligned : 2 ^ order ∣ page :=
    tiles.aligned (page, order) (mem_append_right _ (mem_cons_of_mem _ mem_cons_self))
  have front : Tiles n ((page ^^^ 2 ^ order, order) :: (page, order) :: (l ++ used)) :=
    (Tiles.to_front tiles).perm ((perm_middle).cons _)
  apply Tiles.from_front
  rcases low_or_high aligned with ⟨whole, buddy, merged⟩ | ⟨low, start, whole, buddy, merged⟩
  · rw [buddy] at front
    rw [merged]
    exact (front.perm (List.Perm.swap _ _ _)).merge whole
  · rw [buddy, start] at front
    rw [merged]
    exact front.merge whole

structure Merged (n : Nat) (used : List (Nat × Nat)) (z : GlobalMem)
    (r : GlobalMem × Nat × Nat) : Prop where
  inv : MemInv n r.1 ((r.2.1, r.2.2) :: used)
  small : r.2.2 < buddyMaxOrder
  alone : r.2.2 < buddyMaxOrder - 1 → r.2.1 ^^^ 2 ^ r.2.2 ∉ r.1.listOf r.2.2
  untouched : Untouched n used z r.1

theorem mergeLoop_spec : ∀ (fuel : Nat) (z : GlobalMem) (page order : Nat),
    MemInv n z ((page, order) :: used) → order < buddyMaxOrder → buddyMaxOrder - 1 ≤ order + fuel →
    Merged n used z (mergeLoop fuel z page order) := by
  intro fuel
  induction fuel with
  | zero =>
    intro z page order inv small enough
    exact ⟨inv, small, fun more => by simp only [mergeLoop] at more; omega, fun _ _ => rfl⟩
  | succ fuel ih =>
    intro z page order inv small enough
    rw [mergeLoop]
    by_cases more : order < buddyMaxOrder - 1
    · rw [if_pos more]
      by_cases check : checkBuddy (z.pages (page ^^^ 2 ^ order)) order = true
      · simp only [if_pos check]
        rw [checkBuddy, Bool.and_eq_true, beq_iff_eq] at check
        have member := (inv.flags _ order).mpr check
        have taken := inv.keep_takeFree member
        have joined := taken.retile (Tiles.join page order taken.tiles)
        obtain ⟨final, bound, alone, untouched⟩ := ih _ _ _ joined (by omega) (by omega)
        have touched := untouched_takeFree (z := z) taken.tiles
        exact ⟨final, bound, alone, touched.tail.trans untouched⟩
      · simp only [if_neg check]
        refine ⟨inv, small, fun _ member => check ?_, fun _ _ => rfl⟩
        rw [checkBuddy, Bool.and_eq_true, beq_iff_eq]
        exact (inv.flags _ order).mp member
    · rw [if_neg more]
      exact ⟨inv, small, fun low => absurd low more, fun _ _ => rfl⟩

theorem mergeLoop_pageNum : ∀ (fuel : Nat) (z : GlobalMem) (page order : Nat),
    (mergeLoop fuel z page order).1.pageNum = z.pageNum := by
  intro fuel
  induction fuel with
  | zero => intro z page order; rfl
  | succ fuel ih =>
    intro z page order
    rw [mergeLoop]
    split
    · dsimp only
      split
      · rw [ih]
        rfl
      · rfl
    · rfl

theorem split_pageNum (page low : Nat) : ∀ (high size : Nat) (z : GlobalMem),
    (split page low high size z).pageNum = z.pageNum := by
  intro high
  induction high with
  | zero => intro size z; rfl
  | succ high ih =>
    intro size z
    rw [split]
    split
    · rw [ih]
      rfl
    · rfl

end Loops

/-! ## Getting and freeing pages -/

section Operations
variable {n : Nat} {used : List (Nat × Nat)} {z : GlobalMem}

theorem buddyFreePages_spec {page order : Nat} (inv : MemInv n z ((page, order) :: used))
    (marked : (z.pages page).order = order) (small : order < buddyMaxOrder) :
    MemInv n (buddyFreePages z page) used ∧ Untouched n used z (buddyFreePages z page) := by
  have notBuddy := inv.used_not_buddy
  have cleared := inv.keep_pages page { z.pages page with head := false } notBuddy notBuddy
  have touched : Untouched n used z (setPage z page { z.pages page with head := false }) :=
    untouched_setPage inv.tiles _
  have merged := mergeLoop_spec buddyMaxOrder _ page order cleared small (by omega)
  rw [buddyFreePages, marked]
  have put := MemInv.keep_putFree merged.inv merged.small merged.alone
  exact ⟨put, (touched.trans merged.untouched).trans (untouched_putFree merged.inv.tiles)⟩

theorem buddyFreePages_pageNum (z : GlobalMem) (page : Nat) :
    (buddyFreePages z page).pageNum = z.pageNum :=
  mergeLoop_pageNum buddyMaxOrder (setPage z page { z.pages page with head := false }) page
    (z.pages page).order

variable (pageNum : Nat) (beyond : Nat → Page)

theorem initBuddy_pageNum : (initBuddy pageNum beyond).pageNum = pageNum :=
  foldlRecOn _ buddyFreePages (motive := fun z => z.pageNum = pageNum) rfl
    fun z size page _ => (buddyFreePages_pageNum z page).trans size

structure Handed (n : Nat) (used : List (Nat × Nat)) (z z' : GlobalMem) (page order : Nat) :
    Prop where
  inv : MemInv n z' ((page, order) :: used)
  marked : (z'.pages page).order = order
  untouched : Untouched n used z z'
  pageNum : z'.pageNum = z.pageNum

theorem allocPageLoop_spec (order : Nat) (inv : MemInv n z used) : ∀ (fuel current : Nat)
    (z' : GlobalMem) (page : Nat), order ≤ current → current + fuel ≤ buddyMaxOrder →
    allocPageLoop z order fuel current = some (z', page) → Handed n used z z' page order := by
  intro fuel
  induction fuel with
  | zero => intro current z' page _ _ result; cases result
  | succ fuel ih =>
    intro current z' page ordered bound result
    rw [allocPageLoop] at result
    cases list : z.listOf current with
    | nil =>
      rw [list] at result
      exact ih (current + 1) z' page (by omega) (by omega) result
    | cons first rest =>
      rw [list] at result
      cases result
      have taken := inv.keep_takeFree (by rw [list]; exact mem_cons_self)
      have touched := untouched_takeFree (z := z) taken.tiles
      obtain ⟨lowest, spread⟩ := split_spec page order current (2 ^ current) _ ordered (by omega)
        rfl taken
      have notBuddy := lowest.used_not_buddy
      refine ⟨lowest.keep_pages page _ notBuddy notBuddy, by simp [setPage], ?_, ?_⟩
      · exact (touched.trans spread).trans (untouched_setPage lowest.tiles _)
      · exact split_pageNum page order current (2 ^ current) _

theorem buddyGetPages_spec {order : Nat} (inv : MemInv n z used) {z' : GlobalMem} {page : Nat}
    (result : buddyGetPages z order = some (z', page)) : Handed n used z z' page order := by
  rw [buddyGetPages] at result
  split at result
  · cases result
  · exact allocPageLoop_spec order inv _ order z' page (le_refl _) (by omega) result

theorem initBuddy_spec (unmarked : ∀ i, pageNum ≤ i → (beyond i).buddy = false) :
    MemInv pageNum (initBuddy pageNum beyond) [] := by
  have loop : ∀ m, m ≤ pageNum →
      MemInv m ((range m).foldl buddyFreePages (zeroedMem pageNum beyond)) [] ∧
      Untouched m [] (zeroedMem pageNum beyond)
        ((range m).foldl buddyFreePages (zeroedMem pageNum beyond)) := by
    intro m
    induction m with
    | zero =>
      intro _
      refine ⟨⟨?_, fun _ => rfl, ?_, fun _ _ => rfl, ?_⟩, fun _ _ => rfl⟩
      · have empty : freeBlocks (zeroedMem pageNum beyond) = [] := by
          simp [freeBlocks, zeroedMem, listOf, flatMap_eq_nil_iff]
        simpa only [range_zero, foldl_nil, empty, append_nil] using tiles_nil
      · intro i k
        have clear : ((zeroedMem pageNum beyond).pages i).buddy = false := by
          by_cases inside : i < pageNum
          · simp [zeroedMem, inside]
          · simp [zeroedMem, inside, unmarked i (Nat.le_of_not_lt inside)]
        simp [zeroedMem, listOf] at clear ⊢
        simp [clear]
      · intro k _ i member
        cases member
    | succ m ih =>
      intro bound
      obtain ⟨inv, untouched⟩ := ih (by omega)
      rw [range_succ, foldl_append, foldl_cons, foldl_nil]
      generalize (range m).foldl buddyFreePages (zeroedMem pageNum beyond) = z at *
      have grown : MemInv (m + 1) z [(m, 0)] := by
        apply inv.retile
        apply Tiles.from_front
        exact inv.tiles.extend
      have zero : (z.pages m).order = 0 := by
        rw [untouched m (.inl (le_refl m))]
        simp [zeroedMem, show m < pageNum by omega]
      obtain ⟨freed, step⟩ := buddyFreePages_spec grown zero (by decide)
      refine ⟨freed, ?_⟩
      intro j outside
      have behind : m + 1 ≤ j := by
        rcases outside with behind | ⟨b, member, _⟩
        · exact behind
        · cases member
      rw [step j (.inl behind), untouched j (.inl (by omega))]
  exact (loop pageNum (le_refl _)).1

end Operations

/-! ## Whole runs -/

structure BuddySys where
  mem : GlobalMem
  used : List (Nat × Nat)

inductive BuddyOp where
  | getPages (order : Nat)
  | freePages (block : Nat × Nat)
  deriving DecidableEq, Repr

def buddyStep (s : BuddySys) : BuddyOp → BuddySys
  | .getPages order =>
    match buddyGetPages s.mem order with
    | none => s
    | some (mem, page) => { mem := mem, used := (page, order) :: s.used }
  | .freePages block => { mem := buddyFreePages s.mem block.1, used := s.used.erase block }

/-- Orders below the limit, and only blocks that are handed out are freed. -/
def buddyCall (s : BuddySys) : BuddyOp → Prop
  | .getPages order => order < buddyMaxOrder
  | .freePages block => block ∈ s.used

instance decidableBuddyCall (s : BuddySys) : ∀ op, Decidable (buddyCall s op)
  | .getPages order => inferInstanceAs (Decidable (order < buddyMaxOrder))
  | .freePages block => inferInstanceAs (Decidable (block ∈ s.used))

def startBuddy (pageNum : Nat) (beyond : Nat → Page) : BuddySys :=
  { mem := initBuddy pageNum beyond, used := [] }

structure BuddyInv (pageNum : Nat) (s : BuddySys) : Prop where
  inv : MemInv pageNum s.mem s.used
  marked : ∀ b ∈ s.used, (s.mem.pages b.1).order = b.2 ∧ b.2 < buddyMaxOrder
  pageNum : s.mem.pageNum = pageNum

theorem buddyStep_inv (pageNum : Nat) (s : BuddySys) (op : BuddyOp) (inv : BuddyInv pageNum s)
    (call : buddyCall s op) : BuddyInv pageNum (buddyStep s op) := by
  cases op with
  | getPages order =>
    rw [buddyStep]
    cases result : buddyGetPages s.mem order with
    | none => exact inv
    | some found =>
      have handed := buddyGetPages_spec inv.inv result
      refine ⟨handed.inv, ?_, handed.pageNum.trans inv.pageNum⟩
      intro b member
      rcases mem_cons.mp member with rfl | old
      · exact ⟨handed.marked, call⟩
      · rw [handed.untouched b.1 (.inr ⟨b, old, rfl⟩)]
        exact inv.marked b old
  | freePages block =>
    obtain ⟨marked, small⟩ := inv.marked block call
    have perm : s.used.Perm (block :: s.used.erase block) := perm_cons_erase call
    have picked : MemInv pageNum s.mem (block :: s.used.erase block) :=
      inv.inv.retile (inv.inv.tiles.perm (perm.append_left _))
    obtain ⟨freed, untouched⟩ := buddyFreePages_spec picked marked small
    refine ⟨freed, ?_, (buddyFreePages_pageNum _ _).trans inv.pageNum⟩
    intro b member
    change ((buddyFreePages s.mem block.1).pages b.1).order = b.2 ∧ b.2 < buddyMaxOrder
    rw [untouched b.1 (.inr ⟨b, member, rfl⟩)]
    exact inv.marked b (mem_of_mem_erase member)

structure BuddyExact (s : BuddySys) : Prop where
  partition : Tiles s.mem.pageNum (freeBlocks s.mem ++ s.used)
  nrFree : ∀ k, k < buddyMaxOrder → (s.mem.freeLists k).nrFree = (s.mem.listOf k).length
  marked : ∀ i k, ((s.mem.pages i).buddy = true ∧ (s.mem.pages i).order = k) ↔
    (i, k) ∈ freeBlocks s.mem
  coalesced : ∀ i k, k < buddyMaxOrder - 1 → (i, k) ∈ freeBlocks s.mem →
    (i ^^^ 2 ^ k, k) ∉ freeBlocks s.mem

theorem BuddyInv.exact {pageNum : Nat} {s : BuddySys} (inv : BuddyInv pageNum s) :
    BuddyExact s := by
  refine ⟨by rw [inv.pageNum]; exact inv.inv.tiles, fun k _ => inv.inv.nrFree k, ?_, ?_⟩
  · intro i k
    rw [mem_freeBlocks, ← inv.inv.flags i k]
    exact ⟨fun member => ⟨inv.inv.list_lt member, member⟩, And.right⟩
  · intro i k low free buddy
    rw [mem_freeBlocks] at free buddy
    exact inv.inv.coalesced k low i free.2 buddy.2

/-- The allocator after `init_buddy` and any calls on blocks it handed out. -/
theorem buddy_exact_of_calls (pageNum : Nat) (beyond : Nat → Page)
    (unmarked : ∀ i, pageNum ≤ i → (beyond i).buddy = false) (ops : List BuddyOp)
    (calls : RunMeets buddyStep buddyCall (startBuddy pageNum beyond) ops) :
    BuddyExact (ops.foldl buddyStep (startBuddy pageNum beyond)) := by
  have start : BuddyInv pageNum (startBuddy pageNum beyond) :=
    ⟨initBuddy_spec pageNum beyond unmarked, by simp [startBuddy], initBuddy_pageNum _ _⟩
  exact (run_invariant buddyStep buddyCall (BuddyInv pageNum) (buddyStep_inv pageNum) ops _ start
    calls).exact

theorem buddy_exact_seven_pages :
    BuddyExact ([BuddyOp.getPages 1, .getPages 0, .freePages (4, 1), .getPages 2].foldl buddyStep
      (startBuddy 7 fun _ => ⟨0, false, false⟩)) :=
  buddy_exact_of_calls 7 _ (fun _ _ => rfl) _ (by decide +kernel)

/-! ## No request fails without need -/

theorem allocPageLoop_none {z : GlobalMem} (order : Nat) : ∀ fuel current : Nat,
    allocPageLoop z order fuel current = none →
      ∀ k, current ≤ k → k < current + fuel → z.listOf k = [] := by
  intro fuel
  induction fuel with
  | zero => intro current _ k low high; omega
  | succ fuel ih =>
    intro current failed k low high
    rw [allocPageLoop] at failed
    cases list : z.listOf current with
    | cons first rest =>
      rw [list] at failed
      cases failed
    | nil =>
      rw [list] at failed
      by_cases here : k = current
      · rw [here, list]
      · exact ih (current + 1) failed k (by omega) (by omega)

/-- The `2 ^ k` pages from `i` on could be handed out: they are aligned and none is in use. -/
def FreeRun (s : BuddySys) (i k : Nat) : Prop :=
  2 ^ k ∣ i ∧ ∀ x, inBlock (i, k) x → x < s.mem.pageNum ∧ ∀ b ∈ s.used, ¬ inBlock b x

/-- `buddy_get_pages` fails exactly if there are no such pages, whatever was called before. -/
theorem buddyGetPages_none_iff (pageNum : Nat) (beyond : Nat → Page)
    (unmarked : ∀ i, pageNum ≤ i → (beyond i).buddy = false) (ops : List BuddyOp)
    (calls : RunMeets buddyStep buddyCall (startBuddy pageNum beyond) ops) {order : Nat}
    (below : order < buddyMaxOrder) :
    let s := ops.foldl buddyStep (startBuddy pageNum beyond)
    buddyGetPages s.mem order = none ↔ ∀ i, ¬ FreeRun s i order := by
  intro s
  have start : BuddyInv pageNum (startBuddy pageNum beyond) :=
    ⟨initBuddy_spec pageNum beyond unmarked, by simp [startBuddy], initBuddy_pageNum _ _⟩
  have inv : BuddyInv pageNum s :=
    run_invariant buddyStep buddyCall _ (buddyStep_inv pageNum) ops _ start calls
  have tiles := inv.inv.tiles
  constructor
  · rintro failed i ⟨aligned, free⟩
    obtain ⟨b, member, large, _⟩ := exists_tile
      (fun b member => tiles.aligned b (mem_append_left _ member)) inv.exact.coalesced order i
      (by omega) aligned fun x inside => by
        obtain ⟨inPages, unused⟩ := free x inside
        rw [inv.pageNum] at inPages
        obtain ⟨b, member, inB⟩ := (tiles.cover x).mp inPages
        exact ⟨b, (mem_append.mp member).resolve_right fun used => unused b used inB, inB⟩
    obtain ⟨small, listed⟩ := (mem_freeBlocks b.1 b.2).mp member
    rw [buddyGetPages, if_neg (by omega)] at failed
    rw [allocPageLoop_none order _ _ failed b.2 large (by omega)] at listed
    cases listed
  · intro none
    by_contra some
    obtain ⟨⟨z', page⟩, got⟩ := Option.ne_none_iff_exists'.mp some
    have handed := Tiles.to_front (buddyGetPages_spec inv.inv got).inv.tiles
    refine none page ⟨handed.aligned _ mem_cons_self, fun x inside => ⟨?_, fun b member both => ?_⟩⟩
    · rw [inv.pageNum]
      exact (handed.cover x).mpr ⟨_, mem_cons_self, inside⟩
    · exact (pairwise_cons.mp handed.apart).1 b (mem_append_right _ member) x ⟨inside, both⟩

/-- Of seven pages the first four are free. -/
theorem buddyGetPages_seven_pages : buddyGetPages ([BuddyOp.getPages 1].foldl buddyStep
    (startBuddy 7 fun _ => ⟨0, false, false⟩)).mem 2 ≠ none := by
  intro failed
  refine (buddyGetPages_none_iff 7 _ (fun _ _ => rfl) [.getPages 1] (by decide +kernel)
    (by decide)).mp failed 0 ⟨by decide, fun x inside => ?_⟩
  obtain ⟨-, below⟩ := inside
  revert x
  simp only [inBlock]
  decide +kernel

end KernelLabs.ChCore
