import KernelLabs.Lib.LinkedList
import KernelLabs.Lib.Weights

/-!
# The page allocator with one free list per CPU

Model of `kernel/kalloc.c` of the locks lab.  A free page holds the address of the next free page
in its first word, so the memory is the map from pages to their first words; 0 is the null pointer.
`end`, the first address after the kernel, is `kernBase + image` for a kernel image of any size.
`int` does not overflow: there are fewer than `2 ^ 15` pages.
-/

set_option autoImplicit false

namespace KernelLabs.Xv6

open Lib Function List

def ncpu : Nat := 8

instance : NeZero ncpu := ⟨by decide⟩

abbrev Cpu := Fin ncpu

def pgSize : Nat := 4096

def kernBase : Nat := 0x80000000

def physTop : Nat := kernBase + 128 * 1024 * 1024

def pgRoundUp (a : Nat) : Nat := (a + pgSize - 1) / pgSize * pgSize

def kernEnd (image : Nat) : Nat := kernBase + image

structure Kcpumem where
  freelist : Nat
  pgsize : Int

structure Mem where
  next : Nat → Nat
  kmems : Cpu → Kcpumem

/-! ## The list operations -/

/-- `memset(pa, byte, PGSIZE)`: every byte of the first word becomes `byte`. -/
def fillPage (mem : Mem) (pa byte : Nat) : Mem :=
  { mem with next := update mem.next pa (0x0101010101010101 * byte) }

def pushPage (mem : Mem) (mcpu : Cpu) (r : Nat) : Mem :=
  { next := update mem.next r (mem.kmems mcpu).freelist
    kmems := update mem.kmems mcpu ⟨r, (mem.kmems mcpu).pgsize + 1⟩ }

/-- What `stealmem` does with the lock of CPU `i` if `kmems[i].pgsize >= 2`. -/
def stealHalf (mem : Mem) (mcpu i : Cpu) : Mem :=
  let stealpgsize := (mem.kmems i).pgsize / 2
  let mFreelist := (mem.kmems i).freelist
  let iFreelist := mem.next^[(stealpgsize - 1).toNat] mFreelist
  { next := update mem.next iFreelist 0
    kmems := update
      (update mem.kmems i ⟨mem.next iFreelist, (mem.kmems i).pgsize - stealpgsize⟩)
      mcpu ⟨mFreelist, stealpgsize⟩ }

/-- The end of `kalloc`, up to `release`: the page that is taken, or 0. -/
def takePage (mem : Mem) (mcpu : Cpu) : Nat × Mem :=
  let r := (mem.kmems mcpu).freelist
  if r ≠ 0 then
    (r, { mem with
      kmems := update mem.kmems mcpu ⟨mem.next r, (mem.kmems mcpu).pgsize - 1⟩ })
  else (0, mem)

/-! ## Calls that are not interrupted -/

def stealLoop (mem : Mem) (mcpu : Cpu) : List Cpu → Mem
  | [] => mem
  | i :: rest =>
    if i = mcpu then stealLoop mem mcpu rest
    else if 2 ≤ (mem.kmems i).pgsize then stealHalf mem mcpu i
    else stealLoop mem mcpu rest

def stealmem (mem : Mem) (mcpu : Cpu) : Mem := stealLoop mem mcpu (finRange ncpu)

/-- The value returned and the memory. -/
def kalloc (mem : Mem) (mcpu : Cpu) : Nat × Mem :=
  let mem := if (mem.kmems mcpu).pgsize = 0 then stealmem mem mcpu else mem
  let taken := takePage mem mcpu
  (taken.1, if taken.1 ≠ 0 then fillPage taken.2 taken.1 5 else taken.2)

def NotAPage (image pa : Nat) : Prop := pa % pgSize ≠ 0 ∨ pa < kernEnd image ∨ physTop ≤ pa

instance (image pa : Nat) : Decidable (NotAPage image pa) :=
  inferInstanceAs (Decidable (_ ∨ _))

/-- `none` is `panic("kfree")`. -/
def kfree (image : Nat) (mem : Mem) (pa : Nat) (mcpu : Cpu) : Option Mem :=
  if NotAPage image pa then none else some (pushPage (fillPage mem pa 1) mcpu pa)

def freePages (image : Nat) (mcpu : Cpu) : Nat → Nat → Mem → Option Mem
  | 0, _, mem => some mem
  | rounds + 1, p, mem =>
    (kfree image mem p mcpu).bind (freePages image mcpu rounds (p + pgSize))

def freerange (image : Nat) (mem : Mem) (mcpu : Cpu) : Option Mem :=
  let p := pgRoundUp (kernEnd image)
  freePages image mcpu ((physTop - p) / pgSize) p mem

def bootCpu : Cpu := 0

/-- `kinit`; `next` is what the memory holds at that time. -/
def kinit (image : Nat) (next : Nat → Nat) : Option Mem :=
  freerange image ⟨next, fun _ => ⟨0, 0⟩⟩ bootCpu

def bootMem (image : Nat) (next : Nat → Nat) : Mem :=
  (kinit image next).getD ⟨next, fun _ => ⟨0, 0⟩⟩

/-- The pages of `[PGROUNDUP(end), PHYSTOP)`. -/
def IsPage (image p : Nat) : Prop :=
  pgRoundUp (kernEnd image) ≤ p ∧ p < physTop ∧ p % pgSize = 0

instance (image p : Nat) : Decidable (IsPage image p) := inferInstanceAs (Decidable (_ ∧ _))

def imageForTwo : Nat := 128 * 1024 * 1024 - 2 * pgSize

/-! ## Lists in the memory -/

def onLists (lists : Cpu → List Nat) (p : Nat) : Nat := total (fun l => l.count p) lists

structure Lists (mem : Mem) (lists : Cpu → List Nat) : Prop where
  linked : ∀ i, Linked mem.next (mem.kmems i).freelist (lists i)
  size : ∀ i, (mem.kmems i).pgsize = (lists i).length
  once : ∀ p, onLists lists p ≤ 1

variable {rest : List Nat} {r : Nat}

section Lists
variable {mem : Mem} {lists : Cpu → List Nat} {p : Nat} {c i : Cpu}

theorem count_le_onLists (lists : Cpu → List Nat) (p : Nat) (i : Cpu) :
    (lists i).count p ≤ onLists lists p :=
  le_total (fun l => l.count p) lists i

theorem notMem_of_onLists (none : onLists lists p = 0) (i : Cpu) : p ∉ lists i := by
  apply count_eq_zero.mp
  have bound := count_le_onLists lists p i
  omega

theorem onLists_update (lists : Cpu → List Nat) (c : Cpu) (l : List Nat) (p : Nat) :
    onLists (update lists c l) p + (lists c).count p = onLists lists p + l.count p :=
  total_update (fun l => l.count p) lists c l

theorem onLists_push (lists : Cpu → List Nat) (c : Cpu) (r p : Nat) :
    onLists (update lists c (r :: lists c)) p =
      onLists lists p + if r = p then 1 else 0 := by
  have moved := onLists_update lists c (r :: lists c) p
  rw [count_cons] at moved
  simp only [beq_iff_eq] at moved
  omega

theorem onLists_take (head : lists c = r :: rest) (p : Nat) :
    onLists (update lists c rest) p + (if r = p then 1 else 0) = onLists lists p := by
  have moved := onLists_update lists c rest p
  rw [head, count_cons] at moved
  simp only [beq_iff_eq] at moved
  omega

def splitList (lists : Cpu → List Nat) (mcpu i : Cpu) (k : Nat) : Cpu → List Nat :=
  update (update lists i ((lists i).drop k)) mcpu ((lists i).take k)

theorem onLists_splitList (other : i ≠ c) (empty : lists c = []) (k p : Nat) :
    onLists (splitList lists c i k) p = onLists lists p := by
  have kept := onLists_update lists i ((lists i).drop k) p
  have given := onLists_update (update lists i ((lists i).drop k)) c ((lists i).take k) p
  rw [update_of_ne other.symm, empty, count_nil] at given
  have parts : ((lists i).take k).count p + ((lists i).drop k).count p = (lists i).count p := by
    rw [← count_append, take_append_drop]
  rw [splitList]
  omega

variable (ok : Lists mem lists)
include ok

theorem Lists.nodup (i : Cpu) : (lists i).Nodup :=
  nodup_iff_count_le_one.mpr fun p => (count_le_onLists lists p i).trans (ok.once p)

theorem Lists.only {j : Cpu} (member : p ∈ lists i) (other : j ≠ i) : p ∉ lists j := by
  intro also
  have two := add_le_total (fun l : List Nat => l.count p) lists other
  have here := count_pos_iff.mpr member
  have there := count_pos_iff.mpr also
  have one := ok.once p
  rw [onLists] at one
  omega

theorem Lists.fill (absent : onLists lists p = 0) (byte : Nat) :
    Lists (fillPage mem p byte) lists where
  linked i := (ok.linked i).congr fun a member => by
    have other : a ≠ p := fun same => notMem_of_onLists absent i (same ▸ member)
    exact update_of_ne other _ _
  size := ok.size
  once := ok.once

theorem Lists.push (absent : onLists lists p = 0) (nonnull : p ≠ 0) (c : Cpu) :
    Lists (pushPage mem c p) (update lists c (p :: lists c)) where
  linked i := by
    have kept : Linked (pushPage mem c p).next (mem.kmems i).freelist (lists i) :=
      (ok.linked i).congr fun a member => by
        have other : a ≠ p := fun same => notMem_of_onLists absent i (same ▸ member)
        exact update_of_ne other _ _
    by_cases same : i = c
    · subst same
      simp only [pushPage, update_self] at kept ⊢
      exact ⟨rfl, nonnull, by rw [update_self]; exact kept⟩
    · simpa only [pushPage, update_of_ne same] using kept
  size i := by
    by_cases same : i = c
    · subst same
      simp [pushPage, ok.size i]
    · simpa only [pushPage, update_of_ne same] using ok.size i
  once q := by
    rw [onLists_push]
    have one := ok.once q
    split
    · next same =>
        subst same
        omega
    · omega

theorem takePage_nil (empty : lists c = []) : takePage mem c = (0, mem) := by
  have null : (mem.kmems c).freelist = 0 := by
    have linked := ok.linked c
    rwa [empty] at linked
  simp [takePage, null]

theorem takePage_cons (head : lists c = p :: rest) :
    p ≠ 0 ∧ (takePage mem c).1 = p ∧ Lists (takePage mem c).2 (update lists c rest) := by
  have linked := ok.linked c
  rw [head] at linked
  obtain ⟨start, nonnull, tail⟩ := linked
  have taken : takePage mem c = (p, { mem with
      kmems := update mem.kmems c ⟨mem.next p, (mem.kmems c).pgsize - 1⟩ }) := by
    simp [takePage, start, nonnull]
  refine ⟨nonnull, by rw [taken], ?_⟩
  rw [taken]
  refine ⟨fun i => ?_, fun i => ?_, fun q => ?_⟩
  · by_cases same : i = c
    · subst same
      simpa only [update_self] using tail
    · simpa only [update_of_ne same] using ok.linked i
  · by_cases same : i = c
    · subst same
      simp [ok.size i, head]
    · simpa only [update_of_ne same] using ok.size i
  · have moved := onLists_take head q
    have one := ok.once q
    omega

theorem Lists.steal (other : i ≠ c) (empty : lists c = []) (enough : 2 ≤ (mem.kmems i).pgsize) :
    Lists (stealHalf mem c i) (splitList lists c i ((lists i).length / 2)) := by
  have size := ok.size i
  have two : 2 ≤ (lists i).length := by omega
  obtain ⟨k, half⟩ : ∃ k, (lists i).length / 2 = k + 1 := ⟨(lists i).length / 2 - 1, by omega⟩
  have stolen : (mem.kmems i).pgsize / 2 = (k : Int) + 1 := by omega
  have rounds : ((mem.kmems i).pgsize / 2 - 1).toNat = k := by omega
  have within : k < (lists i).length := by omega
  have last := (ok.linked i).iterate_mem within
  obtain ⟨front, back⟩ := (ok.linked i).cut (ok.nodup i) within
  refine ⟨fun j => ?_, fun j => ?_, fun q => ?_⟩
  · by_cases thief : j = c
    · subst thief
      simpa only [stealHalf, splitList, rounds, half, update_self] using front
    by_cases victim : j = i
    · subst victim
      simpa only [stealHalf, splitList, rounds, half, update_of_ne thief, update_self] using back
    · simp only [stealHalf, splitList, rounds, update_of_ne thief, update_of_ne victim]
      refine (ok.linked j).congr fun a member => update_of_ne ?_ _ _
      rintro rfl
      exact ok.only last victim member
  · by_cases thief : j = c
    · subst thief
      simp only [stealHalf, splitList, update_self, length_take]
      omega
    · by_cases victim : j = i
      · subst victim
        simp only [stealHalf, splitList, update_of_ne thief, update_self, length_drop]
        omega
      · simpa only [stealHalf, splitList, update_of_ne thief, update_of_ne victim] using ok.size j
  · rw [onLists_splitList other empty]
    exact ok.once q

end Lists

/-! ## The lists after `kinit` -/

section Init
variable {image : Nat}

theorem IsPage.nonnull {p : Nat} (page : IsPage image p) : p ≠ 0 := by
  have low := page.1
  simp only [pgRoundUp, kernEnd, kernBase, pgSize] at low
  omega

/-- `kfree` accepts exactly the pages. -/
theorem not_notAPage_iff (p : Nat) : ¬ NotAPage image p ↔ IsPage image p := by
  simp only [NotAPage, IsPage, pgRoundUp, pgSize]
  omega

def pagesBelow (image p q : Nat) : Nat :=
  if pgRoundUp (kernEnd image) ≤ q ∧ q < p ∧ q % pgSize = 0 then 1 else 0

theorem pagesBelow_succ {p : Nat} (aligned : p % pgSize = 0)
    (low : pgRoundUp (kernEnd image) ≤ p) (q : Nat) :
    pagesBelow image (p + pgSize) q = pagesBelow image p q + if p = q then 1 else 0 := by
  rw [pagesBelow, pagesBelow]
  have shift : (pgRoundUp (kernEnd image) ≤ q ∧ q < p + pgSize ∧ q % pgSize = 0) ↔
      (pgRoundUp (kernEnd image) ≤ q ∧ q < p ∧ q % pgSize = 0) ∨ p = q := by
    simp only [pgSize] at aligned ⊢
    omega
  by_cases same : p = q
  · have never : ¬ (pgRoundUp (kernEnd image) ≤ q ∧ q < p ∧ q % pgSize = 0) := by omega
    rw [if_pos (shift.mpr (.inr same)), if_neg never, if_pos same]
  · rw [or_iff_left same] at shift
    simp only [shift, if_neg same, Nat.add_zero]

theorem freePages_lists (mcpu : Cpu) (rounds : Nat) : ∀ (p : Nat) (mem : Mem)
    (lists : Cpu → List Nat), p % pgSize = 0 → pgRoundUp (kernEnd image) ≤ p →
    p + rounds * pgSize ≤ physTop → Lists mem lists →
    (∀ q, onLists lists q = pagesBelow image p q) →
    ∃ mem' lists', freePages image mcpu rounds p mem = some mem' ∧ Lists mem' lists' ∧
      (∀ q, onLists lists' q = pagesBelow image (p + rounds * pgSize) q) ∧
      ∀ i, i ≠ mcpu → lists' i = lists i := by
  induction rounds with
  | zero =>
    intro p mem lists _ _ _ ok below
    exact ⟨mem, lists, rfl, ok, by simpa using below, fun _ _ => rfl⟩
  | succ rounds ih =>
    intro p mem lists aligned low high ok below
    have next : p + (rounds + 1) * pgSize = p + pgSize + rounds * pgSize := by
      rw [Nat.succ_mul]
      omega
    have page : IsPage image p := ⟨low, by simp only [pgSize] at high ⊢; omega, aligned⟩
    have absent : onLists lists p = 0 := by
      rw [below p]
      simp [pagesBelow]
    have pushed := (ok.fill absent 1).push absent page.nonnull mcpu
    have freed : kfree image mem p mcpu = some (pushPage (fillPage mem p 1) mcpu p) :=
      if_neg ((not_notAPage_iff p).mpr page)
    obtain ⟨mem', lists', run, ok', counts, others⟩ := ih (p + pgSize) _ _
      (by simp only [pgSize] at aligned ⊢; omega) (by omega) (by omega) pushed fun q => by
        rw [onLists_push, below q, pagesBelow_succ aligned low]
    refine ⟨mem', lists', ?_, ok', ?_, fun i other => ?_⟩
    · rw [freePages, freed]
      exact run
    · rw [next]
      exact counts
    · rw [others i other, update_of_ne other]

section
variable (image : Nat) (next : Nat → Nat)

/-- `kinit` puts every page on the list of the CPU that runs it. -/
theorem kinit_lists : ∃ mem lists,
    kinit image next = some mem ∧ Lists mem lists ∧
      (∀ q, onLists lists q = if IsPage image q then 1 else 0) ∧
      ∀ i, i ≠ bootCpu → lists i = [] := by
  have start : Lists ⟨next, fun _ => ⟨0, 0⟩⟩ fun _ => [] :=
    ⟨fun _ => rfl, fun _ => rfl, fun q => by simp [onLists, total]⟩
  have aligned : pgRoundUp (kernEnd image) % pgSize = 0 := Nat.mul_mod_left _ _
  have top : physTop % pgSize = 0 := by decide
  have none : ∀ q, onLists (fun _ : Cpu => []) q =
      pagesBelow image (pgRoundUp (kernEnd image)) q := by
    intro q
    have never : ¬ (pgRoundUp (kernEnd image) ≤ q ∧ q < pgRoundUp (kernEnd image) ∧
        q % pgSize = 0) := by omega
    simp [onLists, total, pagesBelow, never]
  by_cases room : pgRoundUp (kernEnd image) ≤ physTop
  · have reach : pgRoundUp (kernEnd image) +
        (physTop - pgRoundUp (kernEnd image)) / pgSize * pgSize = physTop := by
      simp only [pgSize] at aligned top ⊢
      omega
    obtain ⟨mem, lists, run, ok, counts, others⟩ := freePages_lists bootCpu
      ((physTop - pgRoundUp (kernEnd image)) / pgSize) (pgRoundUp (kernEnd image)) _ _ aligned
      (Nat.le_refl _) (Nat.le_of_eq reach) start none
    exact ⟨mem, lists, run, ok, by rwa [reach] at counts, others⟩
  · have rounds : (physTop - pgRoundUp (kernEnd image)) / pgSize = 0 := by
      rw [Nat.sub_eq_zero_of_le (by omega)]
      rfl
    refine ⟨_, fun _ => [], ?_, start, fun q => ?_, fun _ _ => rfl⟩
    · rw [kinit, freerange]
      simp only [rounds, freePages]
    · have noPage : ¬ IsPage image q := fun page => room (Nat.le_of_lt (page.1.trans_lt page.2.1))
      rw [if_neg noPage]
      simp [onLists, total]

theorem kinit_eq_bootMem : kinit image next = some (bootMem image next) := by
  obtain ⟨mem, _, run, _⟩ := kinit_lists image next
  rw [bootMem, run]
  rfl

theorem bootMem_lists : ∃ lists, Lists (bootMem image next) lists ∧
      (∀ q, onLists lists q = if IsPage image q then 1 else 0) ∧
      ∀ i, i ≠ bootCpu → lists i = [] := by
  obtain ⟨mem, lists, run, rest⟩ := kinit_lists image next
  rw [kinit_eq_bootMem] at run
  cases run
  exact ⟨lists, rest⟩

end

end Init

/-! ## One call -/

section Calls
variable {mem : Mem} {lists : Cpu → List Nat} {c : Cpu}

theorem stealLoop_cases (mem : Mem) (c : Cpu) (cpus : List Cpu) :
    (∃ i ∈ cpus, i ≠ c ∧ 2 ≤ (mem.kmems i).pgsize ∧ stealLoop mem c cpus = stealHalf mem c i) ∨
      (∀ i ∈ cpus, i ≠ c → (mem.kmems i).pgsize < 2) ∧ stealLoop mem c cpus = mem := by
  induction cpus with
  | nil => exact .inr ⟨fun i member => absurd member not_mem_nil, rfl⟩
  | cons i rest ih =>
    by_cases here : i ≠ c ∧ 2 ≤ (mem.kmems i).pgsize
    · refine .inl ⟨i, mem_cons_self, here.1, here.2, ?_⟩
      simp only [stealLoop, if_neg here.1, if_pos here.2]
    have passed : stealLoop mem c (i :: rest) = stealLoop mem c rest := by
      simp only [stealLoop]
      split
      · rfl
      · rename_i other
        exact if_neg fun enough => here ⟨other, enough⟩
    rw [passed]
    rcases ih with ⟨j, member, found⟩ | ⟨none, kept⟩
    · exact .inl ⟨j, mem_cons_of_mem i member, found⟩
    · refine .inr ⟨fun j member other => ?_, kept⟩
      rcases mem_cons.mp member with rfl | member
      · by_contra enough
        exact here ⟨other, by omega⟩
      · exact none j member other

section
variable (ok : Lists mem lists)
include ok

/-- `stealmem` leaves the lists alone, or the caller gets half of another list. -/
theorem stealmem_lists (empty : lists c = []) :
    (∃ i, i ≠ c ∧ 2 ≤ (lists i).length ∧
      Lists (stealmem mem c) (splitList lists c i ((lists i).length / 2))) ∨
      (∀ i, i ≠ c → (lists i).length < 2) ∧ stealmem mem c = mem := by
  rcases stealLoop_cases mem c (finRange ncpu) with ⟨i, _, other, enough, stolen⟩ | ⟨none, kept⟩
  · refine .inl ⟨i, other, ?_, ?_⟩
    · have size := ok.size i
      omega
    · rw [stealmem, stolen]
      exact ok.steal other empty enough
  · refine .inr ⟨fun i other => ?_, kept⟩
    have size := ok.size i
    have few := none i (mem_finRange i) other
    omega

theorem onLists_taken (head : lists c = r :: rest) : onLists (update lists c rest) r = 0 := by
  have moved := onLists_take head r
  have one := ok.once r
  rw [if_pos rfl] at moved
  omega

/-- A call of `kalloc` takes the page it returns off the lists; it returns 0 if its own list is
empty and the other lists are too short to steal from. -/
theorem kalloc_lists (c : Cpu) : ∃ lists', Lists (kalloc mem c).2 lists' ∧
      (∀ p, onLists lists' p + (if (kalloc mem c).1 ≠ 0 ∧ (kalloc mem c).1 = p then 1 else 0) =
        onLists lists p) ∧
      ((kalloc mem c).1 = 0 ↔ lists c = [] ∧ ∀ i, i ≠ c → (lists i).length < 2) := by
  -- The lists that `stealmem` leaves to `takePage`.
  obtain ⟨lists', ok', same, fails⟩ : ∃ lists',
      Lists (if (mem.kmems c).pgsize = 0 then stealmem mem c else mem) lists' ∧
      (∀ p, onLists lists' p = onLists lists p) ∧
      (lists' c = [] ↔ lists c = [] ∧ ∀ i, i ≠ c → (lists i).length < 2) := by
    have size := ok.size c
    by_cases none : lists c = []
    · have zero : (mem.kmems c).pgsize = 0 := by simp [size, none]
      rw [if_pos zero]
      rcases stealmem_lists ok none with ⟨i, other, enough, stolen⟩ | ⟨few, kept⟩
      · refine ⟨_, stolen, onLists_splitList other none _, ?_⟩
        have some : ¬ (∀ i, i ≠ c → (lists i).length < 2) := fun few => by
          have short := few i other
          omega
        simp only [splitList, update_self, some, and_false, iff_false, ne_eq]
        intro empty
        have length := congrArg List.length empty
        simp only [length_take, length_nil] at length
        omega
      · rw [kept]
        exact ⟨lists, ok, fun _ => rfl, fun empty => ⟨empty, few⟩, fun both => both.1⟩
    · have pos : (mem.kmems c).pgsize ≠ 0 := by
        have length := length_pos_iff.mpr none
        omega
      rw [if_neg pos]
      exact ⟨lists, ok, fun _ => rfl, by simp [none]⟩
  generalize before : (if (mem.kmems c).pgsize = 0 then stealmem mem c else mem) = mem' at ok'
  simp only [kalloc, before]
  cases head : lists' c with
  | nil =>
    rw [takePage_nil ok' head]
    refine ⟨lists', ok', fun p => ?_, ?_⟩
    · simpa using same p
    · simpa [head] using fails
  | cons r rest =>
    obtain ⟨nonnull, taken, left⟩ := takePage_cons ok' head
    rw [taken]
    simp only [ne_eq, nonnull, not_false_eq_true, if_true, true_and, false_iff]
    refine ⟨update lists' c rest, left.fill (onLists_taken ok' head) 5, fun p => ?_, ?_⟩
    · rw [onLists_take head p]
      exact same p
    · intro both
      rw [fails.mpr both] at head
      cases head

theorem kalloc_own (head : lists c = r :: rest) : Lists (kalloc mem c).2 (update lists c rest) := by
  have pos : (mem.kmems c).pgsize ≠ 0 := by
    have size := ok.size c
    rw [head, length_cons] at size
    omega
  obtain ⟨nonnull, taken, left⟩ := takePage_cons ok head
  simp only [kalloc, if_neg pos, taken, ne_eq, nonnull, not_false_eq_true, if_true]
  exact left.fill (onLists_taken ok head) 5

end

end Calls

end KernelLabs.Xv6
