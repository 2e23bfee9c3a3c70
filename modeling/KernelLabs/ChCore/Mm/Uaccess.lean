import KernelLabs.Lib.Scatter
import KernelLabs.ChCore.Mm.Munmap
import KernelLabs.ChCore.Mm.UserSpace
import Mathlib.Data.List.Pairwise

/-!
# Copying from and to user memory on x86-64

Model of `kernel/arch/x86_64/mm/uaccess.c` and of `handle_trans_fault`.  The kernel reads and
writes user memory through its direct map, so memory is one array of physical bytes; the page
table gives the physical page of a page address, and the radix tree of a pmo the physical page
of an index, `0` if none was committed.  `get_pages(0)` takes the next page of `freePages`.  A
`BUG_ON` that fires is `none`.  The permission of an entry is left out: a load passes with any.

The copy goes page by page.  Since no two regions share a page, it is the same as a copy byte by
byte, each with its own `transform_vaddr`.
-/

set_option autoImplicit false

namespace KernelLabs.ChCore

open Lib Function Option

/-- `struct pmobject` with its radix tree of committed pages. -/
structure UserPmo where
  type : PmoType
  start : Nat
  size : Nat
  radix : Nat → Nat

structure UserVm where
  regions : List Vmregion
  pmo : Nat → UserPmo
  pgtbl : Nat → Option Nat
  mem : Nat → UInt8
  freePages : List Nat

def UserVm.withMem (s : UserVm) (m : Nat → UInt8) : UserVm := { s with mem := m }

section
variable (s : UserVm) (m : Nat → UInt8)

@[simp] theorem UserVm.withMem_regions :
    (s.withMem m).regions = s.regions := rfl

@[simp] theorem UserVm.withMem_pmo : (s.withMem m).pmo = s.pmo := rfl

@[simp] theorem UserVm.withMem_mem : (s.withMem m).mem = m := rfl

@[simp] theorem UserVm.withMem_freePages :
    (s.withMem m).freePages = s.freePages := rfl

end

@[simp] theorem UserVm.withMem_withMem (s : UserVm) (m m' : Nat → UInt8) :
    (s.withMem m).withMem m' = s.withMem m' := rfl

@[simp] theorem UserVm.withMem_self (s : UserVm) : s.withMem s.mem = s := rfl

def findVmr (regions : List Vmregion) (addr : Nat) : Option Vmregion :=
  regions.find? fun r => decide (r.start ≤ addr) && decide (addr < r.stop)

def memcpy (dst : Nat → UInt8) (base : Nat) (src : Nat → UInt8) (start len : Nat) : Nat → UInt8 :=
  fun x => if base ≤ x ∧ x < base + len then src (start + (x - base)) else dst x

def commitPageToPmo (pmo : UserPmo) (index pa : Nat) : UserPmo :=
  { pmo with radix := update pmo.radix index pa }

def UserVm.commit (s : UserVm) (va p index pa : Nat) (rest : List Nat) : UserVm :=
  { s with
    pmo := update s.pmo p (commitPageToPmo (s.pmo p) index pa)
    pgtbl := update s.pgtbl va (some pa)
    mem := memcpy s.mem pa (fun _ => 0) 0 pageSize
    freePages := rest }

open UserVm

/-- The branch for a page that was not allocated before, the same in `transform_vaddr` and in
`handle_trans_fault`. -/
def allocUserPage (s : UserVm) (va p index : Nat) : Option (UserVm × Nat) :=
  match s.freePages with
  | [] => none
  | pa :: rest => if pa = 0 then none else some (s.commit va p index pa rest, pa)

def transformVaddr (s : UserVm) (userBuf : Nat) : Option (UserVm × Nat) :=
  match findVmr s.regions userBuf with
  | none => none
  | some vmr =>
    let pmo := s.pmo vmr.pmo
    let va := roundDown userBuf
    let offset := subU64 va vmr.start
    let index := offset / pageSize
    let pa := pmo.radix index
    match pmo.type with
    | .data => some (s, pmo.start + (userBuf - vmr.start))
    | .anonym =>
      if pmo.size ≤ offset then none
      else if pa = 0 then
        (allocUserPage s va vmr.pmo index).map fun r => (r.1, r.2 + userBuf % pageSize)
      else some (s, pa + userBuf % pageSize)
    | .shm =>
      if pmo.size ≤ offset then none
      else if pa = 0 then none
      else some (s, pa + userBuf % pageSize)
    | .file => if pa = 0 then none else some (s, pa + userBuf % pageSize)
    | _ => none

def handleTransFault (s : UserVm) (faultAddr : Nat) : Option UserVm :=
  match findVmr s.regions faultAddr with
  | none => none
  | some vmr =>
    let pmo := s.pmo vmr.pmo
    let va := roundDown faultAddr
    let offset := subU64 va vmr.start
    let index := offset / pageSize
    let pa := pmo.radix index
    if pmo.type ∈ [.file, .anonym, .shm] then
      if pmo.size ≤ offset ∧ pmo.type ≠ .file then none
      else if pa = 0 then (allocUserPage s va vmr.pmo index).map (·.1)
      else some { s with pgtbl := update s.pgtbl va (some pa) }
    else none

/-- An address the processor accepts: the upper 17 bits are equal. -/
def Canonical (a : Nat) : Prop := a < 2 ^ 47 ∨ 2 ^ 64 - 2 ^ 47 ≤ a

instance decidableCanonical (a : Nat) : Decidable (Canonical a) :=
  inferInstanceAs (Decidable (_ ∨ _))

/-- What a load of the byte at `a` by the user returns; without an entry in the page table, it
is repeated after the fault was handled. -/
def userLoad (s : UserVm) (a : Nat) : Option UInt8 :=
  if Canonical a then
    match s.pgtbl (roundDown a) with
    | some pa => some (s.mem (pa + a % pageSize))
    | none =>
      (handleTransFault s a).bind fun s =>
        (s.pgtbl (roundDown a)).map fun pa => s.mem (pa + a % pageSize)
  else none

section Driver
variable {S : Type}

def copyRest (page : S → Nat → Nat → Nat → Option S) :
    Nat → S → Nat → Nat → Nat → Option S
  | 0, _, _, _, _ => none
  | fuel + 1, st, userBuf, off, leftSize =>
    if pageSize < leftSize then
      (page st userBuf off pageSize).bind fun st =>
        copyRest page fuel st (userBuf + pageSize) (off + pageSize) (leftSize - pageSize)
    else page st userBuf off leftSize

/-- The common body of `copy_from_user` and `copy_to_user`; `page st ua off len` is
`transform_vaddr` of `ua` and the `memcpy` of `len` bytes from or to `kernel_buf + off`. -/
def copyUser (page : S → Nat → Nat → Nat → Option S) (st : S) (userBuf size : Nat) :
    Option S :=
  if kbase ≤ userBuf ∨ kbase ≤ addU64 userBuf size then none
  else
    let startOff := userBuf % pageSize
    if size + startOff ≤ pageSize then page st userBuf 0 size
    else
      let len := pageSize - startOff
      (page st userBuf 0 len).bind fun st =>
        if (userBuf + len) % pageSize ≠ 0 then none
        else copyRest page size st (userBuf + len) len (size - len)

end Driver

def fromUserPage (st : UserVm × (Nat → UInt8)) (ua off len : Nat) :
    Option (UserVm × (Nat → UInt8)) :=
  (transformVaddr st.1 ua).map fun r => (r.1, memcpy st.2 off r.1.mem r.2 len)

def toUserPage (kernelBuf : Nat → UInt8) (s : UserVm) (ua off len : Nat) : Option UserVm :=
  (transformVaddr s ua).map fun r =>
    r.1.withMem (memcpy r.1.mem r.2 kernelBuf off len)

/-- `copy_from_user`; the result holds the kernel's buffer. -/
def copyFromUser (s : UserVm) (kernelBuf : Nat → UInt8) (userBuf size : Nat) :
    Option (UserVm × (Nat → UInt8)) :=
  copyUser fromUserPage (s, kernelBuf) userBuf size

def copyToUser (s : UserVm) (userBuf : Nat) (kernelBuf : Nat → UInt8) (size : Nat) :
    Option UserVm :=
  copyUser (toUserPage kernelBuf) s userBuf size

/-! ## Byte by byte -/

variable (dst : Nat → UInt8) (base : Nat) (src : Nat → UInt8)

theorem memcpy_succ (start n : Nat) :
    memcpy dst base src start (n + 1) =
      memcpy (memcpy dst base src start n) (base + n) src (start + n) 1 := by
  funext x
  unfold memcpy
  by_cases last : x = base + n
  · subst last
    simp
  · by_cases within : base ≤ x ∧ x < base + n
    · rw [if_pos (by omega), if_neg (by omega), if_pos within]
    · rw [if_neg (by omega), if_neg (by omega), if_neg within]

theorem memcpy_one (start : Nat) : memcpy dst base src start 1 = update dst base (src start) := by
  funext x
  unfold memcpy
  by_cases same : x = base
  · subst same
    simp
  · rw [if_neg (by omega), update_of_ne same]

theorem roundDown_add_mod (a : Nat) : roundDown a + a % pageSize = a := Nat.div_add_mod' a pageSize

structure PageRegions (regions : List Vmregion) : Prop where
  aligned : ∀ r ∈ regions, r.start % pageSize = 0
  apart : regions.Pairwise Vmregion.Apart

variable {regions : List Vmregion}

theorem findVmr_eq_some {a : Nat} {r : Vmregion} (found : findVmr regions a = some r) :
    r ∈ regions ∧ r.Covers a := by
  have both := List.find?_some found
  simp only [Bool.and_eq_true, decide_eq_true_eq] at both
  have stop : r.stop ≤ r.start + r.size := Nat.mod_le _ _
  exact ⟨List.mem_of_find?_eq_some found, both.1, by omega⟩

theorem PageRegions.eq_of_covers (ok : PageRegions regions) {r r' : Vmregion} (member : r ∈ regions)
    (member' : r' ∈ regions) {a : Nat} (covers : r.Covers a) (covers' : r'.Covers a) : r = r' := by
  by_contra differ
  have symmetric : Std.Symm Vmregion.Apart := ⟨fun _ _ apart => apart.symm⟩
  have apart := ok.apart.forall member member' differ
  exact (Vmregion.apart_iff r r').mp apart a ⟨covers, covers'⟩

theorem covers_of_page {r : Vmregion} {a b : Nat} (aligned : r.start % pageSize = 0)
    (covers : r.Covers b) (page : roundDown a = roundDown b) (below : a ≤ b) : r.Covers a := by
  unfold Vmregion.Covers roundDown pageSize at *
  omega

theorem PageRegions.findVmr_page (ok : PageRegions regions) {a b : Nat} {r r' : Vmregion}
    (found : findVmr regions a = some r) (found' : findVmr regions b = some r')
    (page : roundDown a = roundDown b) : r = r' := by
  obtain ⟨member, covers⟩ := findVmr_eq_some found
  obtain ⟨member', covers'⟩ := findVmr_eq_some found'
  rcases Nat.le_total a b with below | above
  · exact ok.eq_of_covers member member' covers
      (covers_of_page (ok.aligned r' member') covers' page below)
  · exact ok.eq_of_covers member member'
      (covers_of_page (ok.aligned r member) covers page.symm above) covers'

/-- The index `transform_vaddr` and `handle_trans_fault` look up for an address. -/
def pageIndex (r : Vmregion) (a : Nat) : Nat := subU64 (roundDown a) r.start / pageSize

section Translation
variable {s s1 : UserVm} {a b x : Nat} {r : Vmregion}

section
variable (found : findVmr s.regions a = some r)
include found

theorem transformVaddr_data (type : (s.pmo r.pmo).type = .data) :
    transformVaddr s a = some (s, (s.pmo r.pmo).start + (a - r.start)) := by
  simp only [transformVaddr, found, type]

section
variable (type : (s.pmo r.pmo).type = .anonym)
  (inside : subU64 (roundDown a) r.start < (s.pmo r.pmo).size)
include type inside

theorem transformVaddr_committed (page : (s.pmo r.pmo).radix (pageIndex r a) ≠ 0) :
    transformVaddr s a = some (s, (s.pmo r.pmo).radix (pageIndex r a) + a % pageSize) := by
  simp only [transformVaddr, found, type]
  rw [if_neg (Nat.not_le.mpr inside)]
  exact if_neg page

theorem transformVaddr_missing (page : (s.pmo r.pmo).radix (pageIndex r a) = 0) :
    transformVaddr s a =
      (allocUserPage s (roundDown a) r.pmo (pageIndex r a)).map fun p =>
        (p.1, p.2 + a % pageSize) := by
  simp only [transformVaddr, found, type]
  rw [if_neg (Nat.not_le.mpr inside)]
  exact if_pos page

end

theorem transformVaddr_outside (type : (s.pmo r.pmo).type = .anonym)
    (outside : (s.pmo r.pmo).size ≤ subU64 (roundDown a) r.start) : transformVaddr s a = none := by
  simp only [transformVaddr, found, type]
  exact if_pos outside

end

theorem allocUserPage_eq_some {va p index pa : Nat}
    (done : allocUserPage s va p index = some (s1, pa)) :
    pa ≠ 0 ∧ ∃ rest, s.freePages = pa :: rest ∧ s1 = s.commit va p index pa rest := by
  cases free : s.freePages with
  | nil => simp [allocUserPage, free] at done
  | cons page rest =>
    by_cases null : page = 0
    · simp [allocUserPage, free, null] at done
    · simp only [allocUserPage, free, if_neg null, Option.some.injEq, Prod.mk.injEq] at done
      obtain ⟨rfl, rfl⟩ := done
      exact ⟨null, rest, rfl, rfl⟩

theorem transformVaddr_anonym (found : findVmr s.regions a = some r)
    (type : (s.pmo r.pmo).type = .anonym) (done : transformVaddr s a = some (s1, x)) :
    subU64 (roundDown a) r.start < (s.pmo r.pmo).size ∧
      (((s.pmo r.pmo).radix (pageIndex r a) ≠ 0 ∧ s1 = s ∧
          x = (s.pmo r.pmo).radix (pageIndex r a) + a % pageSize) ∨
        ((s.pmo r.pmo).radix (pageIndex r a) = 0 ∧ ∃ pa rest, s.freePages = pa :: rest ∧
          pa ≠ 0 ∧ s1 = s.commit (roundDown a) r.pmo (pageIndex r a) pa rest ∧
          x = pa + a % pageSize)) := by
  have inside : subU64 (roundDown a) r.start < (s.pmo r.pmo).size := by
    by_contra outside
    rw [transformVaddr_outside found type (Nat.not_lt.mp outside)] at done
    cases done
  refine ⟨inside, ?_⟩
  by_cases page : (s.pmo r.pmo).radix (pageIndex r a) = 0
  · rw [transformVaddr_missing found type inside page] at done
    obtain ⟨⟨s2, pa⟩, alloc, rest⟩ := map_eq_some_iff.mp done
    simp only [Prod.mk.injEq] at rest
    obtain ⟨rfl, rfl⟩ := rest
    obtain ⟨nonzero, rest, free, committed⟩ := allocUserPage_eq_some alloc
    exact Or.inr ⟨page, pa, rest, free, nonzero, committed, rfl⟩
  · rw [transformVaddr_committed found type inside page] at done
    simp only [Option.some.injEq, Prod.mk.injEq] at done
    exact Or.inl ⟨page, done.1.symm, done.2.symm⟩

section
variable (s) (va p index pa : Nat) (rest : List Nat)

theorem commit_radix : ((s.commit va p index pa rest).pmo p).radix index = pa := by
  simp [commit, commitPageToPmo]

theorem commit_type (q : Nat) : ((s.commit va p index pa rest).pmo q).type = (s.pmo q).type := by
  by_cases same : q = p
  · subst same
    simp [commit, commitPageToPmo]
  · simp [commit, update_of_ne same]

theorem commit_size (q : Nat) : ((s.commit va p index pa rest).pmo q).size = (s.pmo q).size := by
  by_cases same : q = p
  · subst same
    simp [commit, commitPageToPmo]
  · simp [commit, update_of_ne same]

end

theorem transformVaddr_again (m : Nat → UInt8) (found : findVmr s.regions a = some r)
    (found' : findVmr s.regions b = some r)
    (type : (s.pmo r.pmo).type = .data ∨ (s.pmo r.pmo).type = .anonym)
    (page : roundDown b = roundDown a) (above : a ≤ b) (done : transformVaddr s a = some (s1, x)) :
    transformVaddr (s1.withMem m) b = some (s1.withMem m, x + (b - a)) := by
  have first := roundDown_add_mod a
  have second := roundDown_add_mod b
  have index : pageIndex r b = pageIndex r a := by rw [pageIndex, pageIndex, page]
  rcases type with data | anonym
  · rw [transformVaddr_data found data] at done
    simp only [Option.some.injEq, Prod.mk.injEq] at done
    obtain ⟨rfl, rfl⟩ := done
    have start := (findVmr_eq_some found).2.1
    rw [transformVaddr_data (s := s.withMem m) found' data]
    simp only [withMem_pmo, Option.some.injEq, Prod.mk.injEq, true_and]
    omega
  obtain ⟨inside, ⟨committed, rfl, rfl⟩ | ⟨_, pa, rest, _, nonzero, rfl, rfl⟩⟩ :=
    transformVaddr_anonym found anonym done
  · rw [transformVaddr_committed (s := s1.withMem m) found' anonym]
    · simp only [withMem_pmo, index, Option.some.injEq, Prod.mk.injEq, true_and]
      omega
    · rwa [page]
    · rwa [index]
  have now := commit_radix s (roundDown a) r.pmo (pageIndex r a) pa rest
  rw [transformVaddr_committed
    (s := (s.commit (roundDown a) r.pmo (pageIndex r a) pa rest).withMem m) found']
  · simp only [withMem_pmo, index, now, Option.some.injEq, Prod.mk.injEq, true_and]
    omega
  · rw [withMem_pmo, commit_type]
    exact anonym
  · simp only [withMem_pmo, page, commit_size]
    exact inside
  · simp only [withMem_pmo, index, now]
    exact nonzero

theorem transformVaddr_regions (found : findVmr s.regions a = some r)
    (type : (s.pmo r.pmo).type = .data ∨ (s.pmo r.pmo).type = .anonym)
    (done : transformVaddr s a = some (s1, x)) :
    s1.regions = s.regions ∧ ∀ q, (s1.pmo q).type = (s.pmo q).type := by
  rcases type with data | anonym
  · rw [transformVaddr_data found data] at done
    cases done
    exact ⟨rfl, fun _ => rfl⟩
  · obtain ⟨_, ⟨_, rfl, _⟩ | ⟨_, pa, rest, _, _, rfl, _⟩⟩ := transformVaddr_anonym found anonym done
    · exact ⟨rfl, fun _ => rfl⟩
    · exact ⟨rfl, fun q => commit_type ..⟩

end Translation

section Pages
variable {S : Type} {page : S → Nat → Nat → Nat → Option S} {Good : S → Prop}
  {userBuf size : Nat}

/-- Inside a page of the range, one byte more is one byte after the others. -/
def SplitsIn (page : S → Nat → Nat → Nat → Option S) (Good : S → Prop)
    (userBuf size : Nat) : Prop :=
  ∀ st i n, Good st → 0 < n → i + n < size → (userBuf + i) % pageSize + n < pageSize →
    page st (userBuf + i) i (n + 1) =
      (page st (userBuf + i) i n).bind fun st => page st (userBuf + (i + n)) (i + n) 1

def copyByte (page : S → Nat → Nat → Nat → Option S) (userBuf i : Nat) (st : S) : Option S :=
  page st (userBuf + i) i 1

section
variable (split : SplitsIn page Good userBuf size)
include split

theorem page_eq_steps (st : S) (good : Good st)
    (i n : Nat) (positive : 0 < n) (inside : i + n ≤ size)
    (fits : (userBuf + i) % pageSize + n ≤ pageSize) :
    page st (userBuf + i) i n = steps (fun j => copyByte page userBuf (i + j)) n st := by
  induction n with
  | zero => omega
  | succ n hyp =>
    by_cases first : n = 0
    · subst first
      rfl
    · rw [split st i n good (by omega) (by omega) (by omega), hyp (by omega) (by omega) (by omega)]
      rfl

section
variable
  (keep : ∀ st st' i n, Good st → 0 < n → i + n ≤ size → page st (userBuf + i) i n = some st' → Good st')
include keep

theorem copyRest_eq_steps (fuel : Nat) (st : S) (good : Good st) (i n ua : Nat)
    (here : ua = userBuf + i) (aligned : ua % pageSize = 0) (positive : 0 < n)
    (inside : i + n ≤ size) (enough : n ≤ fuel) :
    copyRest page fuel st ua i n = steps (fun j => copyByte page userBuf (i + j)) n st := by
  have pageSizeValue : pageSize = 4096 := rfl
  induction fuel generalizing st i n ua with
  | zero => omega
  | succ fuel hyp =>
    rw [copyRest]
    by_cases more : pageSize < n
    · have first := page_eq_steps split st good i pageSize (by omega) (by omega)
        (by rw [← here]; omega)
      have shift : (fun j => copyByte page userBuf (i + (pageSize + j))) =
          fun j => copyByte page userBuf (i + pageSize + j) := by
        funext j
        rw [Nat.add_assoc]
      rw [if_pos more, steps_of_le _ (Nat.le_of_lt more), ← first, here, shift]
      apply Option.bind_congr
      intro st' done
      have good' := keep st st' i pageSize good (by omega) (by omega) done
      apply hyp st' good' (i + pageSize) (n - pageSize) (userBuf + i + pageSize)
      · exact Nat.add_assoc ..
      · rw [Nat.add_mod_right, ← here]
        exact aligned
      · omega
      · omega
      · omega
    · rw [if_neg more, here]
      exact page_eq_steps split st good i n positive inside (by rw [← here]; omega)

/-- The copy by pages is the copy byte by byte, for a range that ends below `KBASE`. -/
theorem copyUser_eq_steps (st : S) (good : Good st) (positive : 0 < size)
    (below : userBuf + size ≤ kbase) :
    copyUser page st userBuf size =
      if userBuf + size < kbase then steps (copyByte page userBuf) size st else none := by
  have pageSizeValue : pageSize = 4096 := rfl
  have kbaseValue : kbase = 0xFFFFFF0000000000 := rfl
  have noWrap : addU64 userBuf size = userBuf + size := Nat.mod_eq_of_lt (by omega)
  unfold copyUser
  by_cases inside : userBuf + size < kbase
  · rw [if_neg (by rw [noWrap]; omega), if_pos inside]
    by_cases one : size + userBuf % pageSize ≤ pageSize
    · rw [if_pos one]
      have whole := page_eq_steps split st good 0 size positive (by omega)
        (by rw [Nat.add_zero]; omega)
      simpa only [Nat.add_zero, Nat.zero_add] using whole
    rw [if_neg one]
    have lenEq : (userBuf + (pageSize - userBuf % pageSize)) % pageSize = 0 := by
      simp only [pageSize]
      omega
    have positive' : 0 < pageSize - userBuf % pageSize :=
      Nat.sub_pos_of_lt (Nat.mod_lt _ (by decide))
    have within : pageSize - userBuf % pageSize < size := by omega
    have fits : (userBuf + 0) % pageSize + (pageSize - userBuf % pageSize) ≤ pageSize := by
      rw [Nat.add_zero]
      omega
    generalize pageSize - userBuf % pageSize = len at *
    have first := page_eq_steps split st good 0 len positive' (by omega) fits
    simp only [Nat.add_zero, Nat.zero_add] at first
    rw [steps_of_le _ (Nat.le_of_lt within), ← first]
    apply Option.bind_congr
    intro st' done
    have good' := keep st st' 0 len good positive' (by omega) done
    rw [if_neg (by omega)]
    exact copyRest_eq_steps split keep size st' good' len (size - len) _ rfl lenEq (by omega)
      (by omega) (by omega)
  · rw [if_pos (by rw [noWrap]; omega), if_neg inside]

end

end

end Pages

section Served
variable {s : UserVm} {userBuf size : Nat}

def Served (s : UserVm) (userBuf size : Nat) : Prop :=
  ∀ i, i < size → ∃ r, findVmr s.regions (userBuf + i) = some r ∧
    ((s.pmo r.pmo).type = .data ∨ (s.pmo r.pmo).type = .anonym)

def SameRegions (s t : UserVm) : Prop :=
  t.regions = s.regions ∧ ∀ q, (t.pmo q).type = (s.pmo q).type

variable {t : UserVm}

theorem SameRegions.served (same : SameRegions s t) (served : Served s userBuf size) :
    Served t userBuf size := by
  intro i below
  obtain ⟨r, found, type⟩ := served i below
  refine ⟨r, ?_, ?_⟩
  · rwa [same.1]
  · rwa [same.2]

theorem SameRegions.transform {t' : UserVm} (same : SameRegions s t)
    (served : Served s userBuf size) {i x : Nat} (below : i < size)
    (done : transformVaddr t (userBuf + i) = some (t', x)) : SameRegions s t' := by
  obtain ⟨r, found, type⟩ := same.served served i below
  obtain ⟨regions, types⟩ := transformVaddr_regions found type done
  exact ⟨regions.trans same.1, fun q => (types q).trans (same.2 q)⟩

section
variable (ok : PageRegions s.regions) (served : Served s userBuf size)
include ok served

theorem Served.again (m : Nat → UInt8) {i n x : Nat} (inside : i + n < size)
    (fits : (userBuf + i) % pageSize + n < pageSize)
    (done : transformVaddr s (userBuf + i) = some (t, x)) :
    transformVaddr (t.withMem m) (userBuf + (i + n)) = some (t.withMem m, x + n) := by
  obtain ⟨r, found, type⟩ := served i (by omega)
  obtain ⟨r', found', _⟩ := served (i + n) inside
  have page : roundDown (userBuf + (i + n)) = roundDown (userBuf + i) := by
    unfold roundDown pageSize at *
    omega
  obtain rfl := ok.findVmr_page found found' page.symm
  have again := transformVaddr_again m found found' type page (by omega) done
  have apart : userBuf + (i + n) - (userBuf + i) = n := by omega
  rwa [apart] at again

theorem toUserPage_splits (kernelBuf : Nat → UInt8) :
    SplitsIn (toUserPage kernelBuf) (SameRegions s) userBuf size := by
  intro t i n same positive inside fits
  have ok' : PageRegions t.regions := by rwa [same.1]
  cases done : transformVaddr t (userBuf + i) with
  | none => simp only [toUserPage, done, map_none, bind_none]
  | some p =>
    have again := (same.served served).again ok' (memcpy p.1.mem p.2 kernelBuf i n) inside fits done
    simp only [toUserPage, done, map_some, bind_some, again, withMem_mem, withMem_withMem]
    rw [memcpy_succ]

theorem fromUserPage_splits :
    SplitsIn fromUserPage (fun st => SameRegions s st.1) userBuf size := by
  intro st i n same positive inside fits
  have ok' : PageRegions st.1.regions := by rwa [same.1]
  cases done : transformVaddr st.1 (userBuf + i) with
  | none => simp only [fromUserPage, done, map_none, bind_none]
  | some p =>
    have again := (same.served served).again ok' p.1.mem inside fits done
    rw [withMem_self] at again
    simp only [fromUserPage, done, map_some, bind_some, again]
    rw [memcpy_succ]

section
variable (kernelBuf : Nat → UInt8) (positive : 0 < size) (below : userBuf + size ≤ kbase)
include kernelBuf positive below

theorem copyToUser_eq_steps :
    copyToUser s userBuf kernelBuf size =
      if userBuf + size < kbase then
        steps (copyByte (toUserPage kernelBuf) userBuf) size s
      else none := by
  apply copyUser_eq_steps (toUserPage_splits ok served kernelBuf) ?_ s ⟨rfl, fun _ => rfl⟩
    positive below
  intro t t' i n same more inside done
  obtain ⟨p, moved, rfl⟩ := map_eq_some_iff.mp done
  have kept : SameRegions s p.1 := same.transform served (by omega) moved
  exact kept

theorem copyFromUser_eq_steps :
    copyFromUser s kernelBuf userBuf size =
      if userBuf + size < kbase then
        steps (copyByte fromUserPage userBuf) size (s, kernelBuf)
      else none := by
  apply copyUser_eq_steps (fromUserPage_splits ok served) ?_ (s, kernelBuf) ⟨rfl, fun _ => rfl⟩
    positive below
  intro st st' i n same more inside done
  obtain ⟨p, moved, rfl⟩ := map_eq_some_iff.mp done
  have kept : SameRegions s p.1 := same.transform served (by omega) moved
  exact kept

end

end

end Served

end KernelLabs.ChCore
