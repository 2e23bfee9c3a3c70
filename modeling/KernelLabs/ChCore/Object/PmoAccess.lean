import KernelLabs.ChCore.Ipc.Connection
import KernelLabs.ChCore.Mm.Uaccess

/-!
# Reading and writing a pmo

Model of `read_write_pmo` of `kernel/object/memory.c` with `sys_write_pmo` and `sys_read_pmo`.  A
`PMO_DATA` pmo is contiguous; the pages of a `PMO_ANONYM` pmo are in its radix tree, and one that
is missing is allocated by the access.  The address computed for `PMO_ANONYM` is the start of the
page of the offset: the offset in the page is not added, and the copy goes on behind the page.

The bytes of the user buffer are the argument of a write and the result of a read; the buffer is
not part of the pmo.
-/

set_option autoImplicit false

namespace KernelLabs.ChCore

open Lib Function List

/-- The pmo, physical memory, and the pages `get_pages(0)` will return. -/
structure PmoMem where
  pmo : UserPmo
  mem : Nat → UInt8
  freePages : List Nat

inductive PmoOp where
  | write (data : List UInt8)
  | read (size : Nat)
  deriving DecidableEq, Repr

def PmoOp.size : PmoOp → Nat
  | .write data => data.length
  | .read size => size

def PmoMem.commit (s : PmoMem) (index pa : Nat) (rest : List Nat) : PmoMem :=
  { pmo := commitPageToPmo s.pmo index pa
    mem := memcpy s.mem pa (fun _ => 0) 0 pageSize
    freePages := rest }

def pmoKva (s : PmoMem) (offset : Nat) : Option (PmoMem × Nat) :=
  if s.pmo.type = .data then some (s, s.pmo.start + offset)
  else
    let index := roundDown offset / pageSize
    let pa := s.pmo.radix index
    if pa = 0 then
      match s.freePages with
      | [] => none
      | page :: rest => if page = 0 then none else some (s.commit index page rest, page)
    else some (s, pa)

def PmoMem.fill (s : PmoMem) (kva : Nat) (data : List UInt8) : PmoMem :=
  { s with mem := memcpy s.mem kva (fun i => data.getD i 0) 0 data.length }

@[simp] theorem PmoMem.fill_pmo (s : PmoMem) (kva : Nat) (data : List UInt8) :
    (s.fill kva data).pmo = s.pmo := rfl

@[simp] theorem PmoMem.fill_mem (s : PmoMem) (kva : Nat) (data : List UInt8) :
    (s.fill kva data).mem = memcpy s.mem kva (fun i => data.getD i 0) 0 data.length := rfl

/-- `read_write_pmo` for a capability that was found: the result and the bytes for the user. -/
def readWritePmo (s : PmoMem) (offset : Nat) (op : PmoOp) : Option (PmoMem × Int × List UInt8) :=
  if s.pmo.type ≠ .data ∧ s.pmo.type ≠ .anonym then some (s, -eINVAL, [])
  else if addU64 offset op.size < offset ∨ s.pmo.size < addU64 offset op.size then
    some (s, -eINVAL, [])
  else
    (pmoKva s offset).map fun place =>
      match op with
      | .write data => (place.1.fill place.2 data, 0, [])
      | .read size => (place.1, 0, (range size).map fun i => place.1.mem (place.2 + i))

def sysWritePmo (s : PmoMem) (offset : Nat) (data : List UInt8) :
    Option (PmoMem × Int × List UInt8) :=
  readWritePmo s offset (.write data)

def sysReadPmo (s : PmoMem) (offset len : Nat) : Option (PmoMem × Int × List UInt8) :=
  readWritePmo s offset (.read len)

/-! ## The array a pmo should be -/

def arrayWrite (array : Nat → UInt8) (offset : Nat) (data : List UInt8) : Nat → UInt8 :=
  memcpy array offset (fun i => data.getD i 0) 0 data.length

def arrayRead (array : Nat → UInt8) (offset size : Nat) : List UInt8 :=
  (range size).map fun i => array (offset + i)

/-- The memory (`none` once the kernel stopped for lack of a page), the array with the accepted
writes, and whether every accepted read returned the bytes of the array. -/
structure PmoRun where
  mem : Option PmoMem
  array : Nat → UInt8
  exact : Bool

def pmoStep (S : PmoRun) (access : Nat × PmoOp) : PmoRun :=
  match S.mem with
  | none => S
  | some s =>
    match access.2 with
    | .write data =>
      match sysWritePmo s access.1 data with
      | none => { S with mem := none }
      | some (s', r, _) =>
        { S with
          mem := some s'
          array := if r = 0 then arrayWrite S.array access.1 data else S.array }
    | .read len =>
      match sysReadPmo s access.1 len with
      | none => { S with mem := none }
      | some (s', r, bytes) =>
        { S with
          mem := some s'
          exact := S.exact && decide (r = 0 → bytes = arrayRead S.array access.1 len) }

/-- The arguments are `u64`, and an access to a `PMO_ANONYM` pmo starts at a page and stays in it. -/
def StaysInPage (type : PmoType) (access : Nat × PmoOp) : Prop :=
  access.1 < 2 ^ 64 ∧ access.2.size < 2 ^ 64 ∧
    (type = .data ∨ access.2.size = 0 ∨ access.1 % pageSize = 0 ∧ access.2.size ≤ pageSize)

/-! ## What one access does -/

variable {rest : List Nat}

section Access
variable {s s' : PmoMem} {offset : Nat} {op : PmoOp} {r : Int} {bytes : List UInt8}

inductive Accessed (s : PmoMem) (offset : Nat) : PmoOp → PmoMem → Int → List UInt8 → Prop where
  | refused (op : PmoOp) : Accessed s offset op s (-eINVAL) []
  | written {s₁ : PmoMem} {kva : Nat} (data : List UInt8) (found : pmoKva s offset = some (s₁, kva))
      (inside : offset + data.length ≤ s.pmo.size) :
      Accessed s offset (.write data) (s₁.fill kva data) 0 []
  | read {s₁ : PmoMem} {kva : Nat} (size : Nat) (found : pmoKva s offset = some (s₁, kva))
      (inside : offset + size ≤ s.pmo.size) :
      Accessed s offset (.read size) s₁ 0 ((range size).map fun i => s₁.mem (kva + i))

theorem readWritePmo_cases (offset64 : offset < 2 ^ 64) (size64 : op.size < 2 ^ 64)
    (run : readWritePmo s offset op = some (s', r, bytes)) : Accessed s offset op s' r bytes := by
  rw [readWritePmo] at run
  split at run
  · cases run
    exact .refused op
  split at run
  · cases run
    exact .refused op
  rename_i inRange
  -- no wrap: the sum is below 2^64
  have inside : offset + op.size ≤ s.pmo.size := by
    simp only [addU64] at inRange
    omega
  obtain ⟨⟨s1, kva⟩, found, result⟩ := Option.map_eq_some_iff.mp run
  cases op with
  | write data =>
    cases result
    exact .written data found inside
  | read size =>
    cases result
    exact .read size found inside

/-- An access comes back if there is a page for it, and takes at most that page. -/
theorem readWritePmo_returns {pa : Nat} (pages : s.freePages = pa :: rest) (nonzero : pa ≠ 0) :
    ∃ s' r bytes, readWritePmo s offset op = some (s', r, bytes) ∧
      (s'.freePages = s.freePages ∨ s'.freePages = rest) := by
  have found : ∃ s1 kva, pmoKva s offset = some (s1, kva) ∧
      (s1.freePages = s.freePages ∨ s1.freePages = rest) := by
    rw [pmoKva]
    split
    · exact ⟨s, _, rfl, .inl rfl⟩
    · simp only [pages, if_neg nonzero]
      split
      · exact ⟨_, _, rfl, .inr rfl⟩
      · exact ⟨s, _, rfl, .inl pages⟩
  obtain ⟨s1, kva, place, taken⟩ := found
  rw [readWritePmo, place]
  split
  · exact ⟨s, _, _, rfl, .inl rfl⟩
  · split
    · exact ⟨s, _, _, rfl, .inl rfl⟩
    · cases op with
      | write | read => exact ⟨_, _, _, rfl, taken⟩

end Access

/-! ## The memory holds the array -/

structure DataHolds (s : PmoMem) (array : Nat → UInt8) : Prop where
  type : s.pmo.type = .data
  bytes : ∀ i, i < s.pmo.size → s.mem (s.pmo.start + i) = array i

/-- The committed pages hold the array, and where there is none it is zero.  Pages are whole and
belong to one index or are free. -/
structure PagesHold (s : PmoMem) (array : Nat → UInt8) : Prop where
  type : s.pmo.type = .anonym
  aligned : ∀ k, s.pmo.radix k % pageSize = 0
  freeAligned : ∀ p ∈ s.freePages, p % pageSize = 0
  freeOnce : s.freePages.Nodup
  apart : ∀ k, s.pmo.radix k ≠ 0 → s.pmo.radix k ∉ s.freePages
  once : ∀ k l, s.pmo.radix k ≠ 0 → s.pmo.radix k = s.pmo.radix l → k = l
  bytes : ∀ k j, j < pageSize → array (k * pageSize + j) =
    if s.pmo.radix k = 0 then 0 else s.mem (s.pmo.radix k + j)

theorem page_disjoint {p q j : Nat} (pAligned : p % pageSize = 0) (qAligned : q % pageSize = 0)
    (different : p ≠ q) (inPage : j < pageSize) : ¬ (p ≤ q + j ∧ q + j < p + pageSize) := by
  simp only [pageSize] at *
  omega

theorem memcpy_inside {dst src : Nat → UInt8} {base start len x : Nat}
    (inside : base ≤ x ∧ x < base + len) :
    memcpy dst base src start len x = src (start + (x - base)) := if_pos inside

theorem memcpy_outside {dst src : Nat → UInt8} {base start len x : Nat}
    (outside : ¬ (base ≤ x ∧ x < base + len)) : memcpy dst base src start len x = dst x :=
  if_neg outside

open PmoMem

section Pages
variable {s s' : PmoMem} {array : Nat → UInt8} {offset kva : Nat}

theorem PagesHold.commit (holds : PagesHold s array) {index page : Nat}
    (missing : s.pmo.radix index = 0) (pages : s.freePages = page :: rest) (nonzero : page ≠ 0) :
    PagesHold (s.commit index page rest) array := by
  have radix : ∀ k, (s.commit index page rest).pmo.radix k =
      if k = index then page else s.pmo.radix k := by
    intro k
    change update s.pmo.radix index page k = _
    rw [update_apply]
  have pageAligned : page % pageSize = 0 :=
    holds.freeAligned page (by rw [pages]; exact mem_cons_self)
  have freeOnce := holds.freeOnce
  rw [pages, nodup_cons] at freeOnce
  have notPage : ∀ k, s.pmo.radix k ≠ 0 → s.pmo.radix k ≠ page := by
    intro k present same
    exact holds.apart k present (by rw [pages, same]; exact mem_cons_self)
  refine ⟨holds.type, ?_, ?_, freeOnce.2, ?_, ?_, ?_⟩
  · intro k
    rw [radix]
    split
    · exact pageAligned
    · exact holds.aligned k
  · intro p member
    exact holds.freeAligned p (by rw [pages]; exact mem_cons_of_mem page member)
  · intro k present
    rw [radix] at present ⊢
    split at present
    · rename_i same
      rw [if_pos same]
      exact freeOnce.1
    · rename_i other
      rw [if_neg other]
      intro member
      exact holds.apart k present (by rw [pages]; exact mem_cons_of_mem page member)
  · intro k l present same
    rw [radix] at present
    rw [radix, radix] at same
    by_cases kIndex : k = index
    · by_cases lIndex : l = index
      · rw [kIndex, lIndex]
      · rw [if_pos kIndex, if_neg lIndex] at same
        exact absurd same.symm (notPage l (by omega))
    rw [if_neg kIndex] at present same
    by_cases lIndex : l = index
    · rw [if_pos lIndex] at same
      exact absurd same (notPage k present)
    · rw [if_neg lIndex] at same
      exact holds.once k l present same
  · intro k j inPage
    rw [radix, holds.bytes k j inPage]
    change _ = if _ then _ else memcpy s.mem page (fun _ => 0) 0 pageSize _
    by_cases same : k = index
    · rw [if_pos same, same, if_pos missing, if_neg nonzero, memcpy_inside ⟨by omega, by omega⟩]
    rw [if_neg same]
    split
    · rfl
    · rename_i present
      rw [memcpy_outside (page_disjoint pageAligned (holds.aligned k) (Ne.symm (notPage k present))
        inPage)]

theorem PagesHold.of_pmoKva (holds : PagesHold s array) (found : pmoKva s offset = some (s', kva)) :
    PagesHold s' array ∧ s'.pmo.radix (offset / pageSize) = kva ∧ kva ≠ 0 ∧
      s'.pmo.size = s.pmo.size := by
  have index : roundDown offset / pageSize = offset / pageSize := by
    simp only [roundDown, pageSize]
    omega
  rw [pmoKva, holds.type] at found
  simp only [reduceCtorEq, if_false, index] at found
  split at found
  · rename_i missing
    split at found
    · cases found
    rename_i page rest pages
    split at found
    · cases found
    · rename_i nonzero
      cases found
      exact ⟨holds.commit missing pages nonzero, update_self .., nonzero, rfl⟩
  · rename_i present
    cases found
    exact ⟨holds, rfl, present, rfl⟩

theorem PagesHold.fill (holds : PagesHold s array) {k : Nat} (data : List UInt8)
    (present : s.pmo.radix k ≠ 0) (short : data.length ≤ pageSize) :
    PagesHold (s.fill (s.pmo.radix k) data) (arrayWrite array (k * pageSize) data) := by
  refine ⟨holds.type, holds.aligned, holds.freeAligned, holds.freeOnce, holds.apart, holds.once, ?_⟩
  intro l j inPage
  rw [arrayWrite, fill_pmo, fill_mem]
  by_cases same : l = k
  · subst same
    rw [if_neg present]
    by_cases written : j < data.length
    · rw [memcpy_inside ⟨by omega, by omega⟩, memcpy_inside ⟨by omega, by omega⟩,
        Nat.add_sub_cancel_left, Nat.add_sub_cancel_left]
    · rw [memcpy_outside (by omega), memcpy_outside (by omega), holds.bytes l j inPage,
        if_neg present]
  have otherPage : ¬ (k * pageSize ≤ l * pageSize + j ∧
      l * pageSize + j < k * pageSize + data.length) := by
    simp only [pageSize] at *
    omega
  rw [memcpy_outside otherPage, holds.bytes l j inPage]
  split
  · rfl
  rename_i committed
  have apart : ¬ (s.pmo.radix k ≤ s.pmo.radix l + j ∧
      s.pmo.radix l + j < s.pmo.radix k + pageSize) :=
    page_disjoint (holds.aligned k) (holds.aligned l)
      (fun equal => same (holds.once k l present equal).symm) inPage
  rw [memcpy_outside (by omega)]

end Pages

/-! ## Runs -/

def HoldsArray (s : PmoMem) (array : Nat → UInt8) : Prop :=
  DataHolds s array ∨ PagesHold s array

section Runs
variable {s s' : PmoMem} {array : Nat → UInt8} {offset kva : Nat}

theorem DataHolds.fill (holds : DataHolds s array) (data : List UInt8) :
    DataHolds (s.fill (s.pmo.start + offset) data) (arrayWrite array offset data) := by
  refine ⟨holds.type, ?_⟩
  intro i below
  rw [fill_mem, fill_pmo, arrayWrite]
  by_cases written : offset ≤ i ∧ i < offset + data.length
  · rw [memcpy_inside (by omega), memcpy_inside written]
    congr 2
    omega
  · rw [memcpy_outside (by omega), memcpy_outside written]
    exact holds.bytes i below

theorem DataHolds.of_pmoKva (holds : DataHolds s array)
    (found : pmoKva s offset = some (s', kva)) : s' = s ∧ kva = s.pmo.start + offset := by
  rw [pmoKva, if_pos holds.type] at found
  cases found
  exact ⟨rfl, rfl⟩

theorem arrayWrite_nil (array : Nat → UInt8) (offset : Nat) : arrayWrite array offset [] = array := by
  funext x
  exact memcpy_outside (by simp only [length_nil]; omega)

theorem PmoMem.fill_nil (s : PmoMem) (kva : Nat) : s.fill kva [] = s := by
  have unchanged : memcpy s.mem kva (fun i => ([] : List UInt8).getD i 0) 0 0 = s.mem := by
    funext x
    exact memcpy_outside (by omega)
  rw [fill, length_nil, unchanged]

theorem HoldsArray.write (holds : HoldsArray s array) (data : List UInt8)
    (stays : StaysInPage s.pmo.type (offset, .write data))
    (found : pmoKva s offset = some (s', kva)) :
    HoldsArray (s'.fill kva data) (arrayWrite array offset data) := by
  rcases holds with contiguous | pages
  · obtain ⟨rfl, rfl⟩ := contiguous.of_pmoKva found
    exact .inl (contiguous.fill data)
  obtain ⟨pages', page, present, _⟩ := pages.of_pmoKva found
  refine .inr ?_
  rcases stays.2.2 with isData | empty | ⟨aligned, short⟩
  · rw [pages.type] at isData
    cases isData
  · obtain rfl := length_eq_zero_iff.mp empty
    rw [fill_nil, arrayWrite_nil]
    exact pages'
  · have start : offset / pageSize * pageSize = offset := Nat.div_mul_cancel
      (Nat.dvd_of_mod_eq_zero aligned)
    have filled := pages'.fill data (by rw [page]; exact present) short
    rw [page, start] at filled
    exact filled

theorem HoldsArray.read (holds : HoldsArray s array) (size : Nat)
    (stays : StaysInPage s.pmo.type (offset, .read size))
    (found : pmoKva s offset = some (s', kva)) (inside : offset + size ≤ s.pmo.size) :
    HoldsArray s' array ∧
      ((range size).map fun i => s'.mem (kva + i)) = arrayRead array offset size := by
  rcases holds with contiguous | pages
  · obtain ⟨rfl, rfl⟩ := contiguous.of_pmoKva found
    refine ⟨.inl contiguous, ?_⟩
    refine map_congr_left fun i member => ?_
    have below := mem_range.mp member
    rw [Nat.add_assoc, contiguous.bytes (offset + i) (by omega)]
  obtain ⟨pages', page, present, _⟩ := pages.of_pmoKva found
  refine ⟨.inr pages', ?_⟩
  refine map_congr_left fun i member => ?_
  have below := mem_range.mp member
  rcases stays.2.2 with isData | empty | ⟨aligned, short⟩
  · rw [pages.type] at isData
    cases isData
  · have none : size = 0 := empty
    omega
  · have start : offset / pageSize * pageSize = offset := Nat.div_mul_cancel
      (Nat.dvd_of_mod_eq_zero aligned)
    have short : size ≤ pageSize := short
    have byte := pages'.bytes (offset / pageSize) i (by omega)
    rw [page, start, if_neg present] at byte
    exact byte.symm

theorem pmoKva_type (found : pmoKva s offset = some (s', kva)) : s'.pmo.type = s.pmo.type := by
  rw [pmoKva] at found
  split at found
  · cases found
    rfl
  dsimp only at found
  split at found
  · split at found
    · cases found
    · split at found
      · cases found
      · cases found
        rfl
  · cases found
    rfl

structure RunHolds (type : PmoType) (S : PmoRun) : Prop where
  exact : S.exact = true
  holds : ∀ s, S.mem = some s → s.pmo.type = type ∧ HoldsArray s S.array

theorem pmoStep_keep (type : PmoType) (S : PmoRun) (access : Nat × PmoOp)
    (inv : RunHolds type S) (stays : StaysInPage type access) :
    RunHolds type (pmoStep S access) := by
  obtain ⟨offset, op⟩ := access
  have offset64 := stays.1
  have size64 := stays.2.1
  rw [pmoStep]
  cases present : S.mem with
  | none => exact inv
  | some s =>
    obtain ⟨typed, holds⟩ := inv.holds s present
    rw [← typed] at stays
    cases op with
    | write data =>
      simp only
      split
      · exact ⟨inv.exact, fun _ stopped => by cases stopped⟩
      rename_i s' r bytes run
      refine ⟨inv.exact, fun s1 same => ?_⟩
      cases same
      cases readWritePmo_cases offset64 size64 run with
      | refused => exact ⟨typed, holds⟩
      | written _ found inside =>
        exact ⟨(pmoKva_type found).trans typed, holds.write data stays found⟩
    | read len =>
      simp only
      split
      · exact ⟨inv.exact, fun _ stopped => by cases stopped⟩
      rename_i s' r bytes run
      cases readWritePmo_cases offset64 size64 run with
      | refused =>
        refine ⟨?_, fun s1 same => ?_⟩
        · have failed : ¬ -eINVAL = 0 := by decide
          simp [inv.exact, failed]
        · cases same
          exact ⟨typed, holds⟩
      | read _ found inside =>
        obtain ⟨holds', bytes⟩ := holds.read len stays found inside
        refine ⟨?_, fun s1 same => ?_⟩
        · simp [inv.exact, bytes]
        · cases same
          exact ⟨(pmoKva_type found).trans typed, holds'⟩

theorem pmoStep_returns {S : PmoRun} (access : Nat × PmoOp) (present : S.mem = some s) {pa : Nat}
    (pages : s.freePages = pa :: rest) (nonzero : pa ≠ 0) :
    ∃ s', (pmoStep S access).mem = some s' ∧
      (s'.freePages = s.freePages ∨ s'.freePages = rest) := by
  obtain ⟨offset, op⟩ := access
  obtain ⟨s', r, bytes, run, taken⟩ :
      ∃ s' r bytes, readWritePmo s offset op = some (s', r, bytes) ∧ _ :=
    readWritePmo_returns pages nonzero
  refine ⟨s', ?_, taken⟩
  rw [pmoStep, present]
  cases op with
  | write data => simp only [sysWritePmo, run]
  | read size => simp only [sysReadPmo, run]

theorem pmoRun_returns (accesses : List (Nat × PmoOp)) : ∀ (S : PmoRun) (s : PmoMem),
    S.mem = some s → accesses.length ≤ s.freePages.length → 0 ∉ s.freePages →
    (accesses.foldl pmoStep S).mem ≠ none := by
  induction accesses with
  | nil =>
    intro S s present _ _
    rw [foldl_nil, present]
    simp
  | cons access later ih =>
    intro S s present enough nonzero
    rcases pages : s.freePages with _ | ⟨pa, rest⟩
    · rw [pages] at enough
      simp at enough
    rw [pages] at nonzero enough
    rw [mem_cons, not_or] at nonzero
    simp only [length_cons] at enough
    obtain ⟨s', present', taken⟩ := pmoStep_returns access present pages (Ne.symm nonzero.1)
    refine ih (pmoStep S access) s' present' ?_ ?_
    · rcases taken with all | tail
      · rw [all, pages, length_cons]
        omega
      · rw [tail]
        omega
    · rcases taken with all | tail
      · rw [all, pages, mem_cons, not_or]
        exact nonzero
      · rw [tail]
        exact nonzero.2

end Runs

/-- A pmo of one of the two types, all zero; of an anonymous one no page is committed, and the pages
that will be are different. -/
def ZeroPmo (s : PmoMem) : Prop :=
  (s.pmo.type = .data ∧ ∀ i, i < s.pmo.size → s.mem (s.pmo.start + i) = 0) ∨
    (s.pmo.type = .anonym ∧ (∀ k, s.pmo.radix k = 0) ∧ s.freePages.Nodup ∧
      ∀ p ∈ s.freePages, p % pageSize = 0)

def startPmo (s : PmoMem) : PmoRun := { mem := some s, array := fun _ => 0, exact := true }

theorem ZeroPmo.runHolds {s : PmoMem} (zero : ZeroPmo s) : RunHolds s.pmo.type (startPmo s) := by
  refine ⟨rfl, fun s' same => ?_⟩
  cases same
  refine ⟨rfl, ?_⟩
  rcases zero with ⟨type, bytes⟩ | ⟨type, empty, once, aligned⟩
  · exact .inl ⟨type, bytes⟩
  refine .inr ⟨type, fun k => ?_, aligned, once, fun k present => absurd (empty k) present,
    fun k l present _ => absurd (empty k) present, fun k j _ => ?_⟩
  · rw [empty k]
    rfl
  · rw [if_pos (empty k)]
    rfl

def twoPagePmo : PmoMem :=
  { pmo := { type := .anonym, start := 0, size := 8192, radix := fun _ => 0 }
    mem := fun _ => 0
    freePages := [4096, 8192] }

end KernelLabs.ChCore
