import KernelLabs.ChCore.Mm.UaccessPages

/-!
# When a copy is exact

The user reads through the page table, and through the page fault handler where the page table
has no entry; the kernel goes by the regions alone, and does not look at their permissions.  The
copies are exact if and only if the range ends below `KBASE`, there are pages enough, every
region may be written, no byte of a pmo is in the range twice, and what the page table maps in
the range is what the regions say.
-/

set_option autoImplicit false

namespace KernelLabs.ChCore

open Lib Function List Option

section Copies
variable {s s₁ s2 : UserVm} {userBuf n size x : Nat}

def cell (s s₁ : UserVm) (userBuf i : Nat) : Nat := (target s s₁ (userBuf + i)).getD 0

variable {i : Nat}

theorem Touched.target_cell (touched : Touched s userBuf n s₁) (below : i < n) :
    target s s₁ (userBuf + i) = some (cell s s₁ userBuf i) := by
  obtain ⟨x, placed⟩ := ne_none_iff_exists'.mp (touched.placed i below)
  rw [cell, placed, getD_some]

variable {r : Vmregion}

theorem Touch.kept (ok : UserVmOk s) {a : Nat} (found : findVmr s.regions a = some r)
    (touch : Touch s a r s₁) {q off : Nat} (stands : byteAddr s q off = some x) :
    byteAddr s₁ q off = some x ∧ s₁.mem x = s.mem x := by
  cases touch with
  | stays present => exact ⟨stands, rfl⟩
  | commits pa rest anonym absent free =>
    apply ok.commit_kept anonym free ?_ stands
    by_contra present
    rw [missing_of_anonym found anonym, if_neg present] at absent
    cases absent

theorem Touched.cell_transform (touched : Touched s userBuf n s₁) (user : UserAt s (userBuf + n) r)
    (done : transformVaddr s₁ (userBuf + n) = some (s2, x)) (below : i < n) :
    cell s s2 userBuf i = cell s s₁ userBuf i ∧
      s2.mem (cell s s₁ userBuf i) = s₁.mem (cell s s₁ userBuf i) := by
  have user' := touched.userAt user
  obtain ⟨_, touch, _⟩ := transformVaddr_touch touched.ok user' done
  obtain ⟨moved, value⟩ := touch.kept touched.ok user'.found (touched.target_cell below)
  refine ⟨?_, value⟩
  rw [cell, target, moved, getD_some]

theorem Touched.cell_last (touched : Touched s userBuf n s₁) (user : UserAt s (userBuf + n) r)
    (done : transformVaddr s₁ (userBuf + n) = some (s2, x)) : cell s s2 userBuf n = x := by
  rw [cell, (touched.transform user done).2, getD_some]

theorem copyByte_toUserPage (kernelBuf : Nat → UInt8) (i : Nat) (s : UserVm) :
    copyByte (toUserPage kernelBuf) userBuf i s =
      (transformVaddr s (userBuf + i)).map fun p =>
        p.1.withMem (update p.1.mem p.2 (kernelBuf i)) := by
  simp only [copyByte, toUserPage, memcpy_one]

theorem copyByte_fromUserPage (i : Nat) (st : UserVm × (Nat → UInt8)) :
    copyByte fromUserPage userBuf i st =
      (transformVaddr st.1 (userBuf + i)).map fun p =>
        (p.1, update st.2 i (p.1.mem p.2)) := by
  simp only [copyByte, fromUserPage, memcpy_one]

section
variable (ok : UserVmOk s) (served : Served s userBuf size) (small : userBuf + size ≤ 2 ^ 64)
  (kernelBuf : Nat → UInt8) (within : n ≤ size)
include ok served small kernelBuf within

theorem stores_eq :
    steps (copyByte (toUserPage kernelBuf) userBuf) n s =
      (steps (touchByte userBuf) n s).map fun s₁ =>
        s₁.withMem (scatter s₁.mem (cell s s₁ userBuf) kernelBuf n) := by
  induction n with
  | zero => rfl
  | succ n hyp =>
    rw [steps, steps, hyp (by omega)]
    cases before : steps (touchByte userBuf) n s with
    | none => rfl
    | some t =>
      obtain ⟨touched, _⟩ := touches_spec ok served small (by omega) before
      have user := served.userAt small (i := n) (by omega)
      have user' := touched.userAt user
      rw [map_some, bind_some, bind_some, copyByte_toUserPage, touchByte]
      cases done : transformVaddr t (userBuf + n) with
      | none => rw [transformVaddr_withMem_none _ user' done]; rfl
      | some p =>
        obtain ⟨t', x⟩ := p
        obtain ⟨m', again, differ⟩ := transformVaddr_withMem
          (scatter t.mem (cell s t userBuf) kernelBuf n) user' done
        have last := touched.cell_last user done
        have cells : ∀ j, j < n → cell s t userBuf j = cell s t' userBuf j :=
          fun j below => (touched.cell_transform user done below).1.symm
        have writes : m' = scatter t'.mem (cell s t' userBuf) kernelBuf n := by
          funext y
          rcases differ y with ⟨same, base⟩ | ⟨zero, pa, free, lower, upper⟩
          · rw [same]
            exact scatter_congr kernelBuf base.symm cells
          · rw [zero, scatter_of_forall_ne]
            intro j below hit
            have stands := touched.target_cell below
            rw [cells j below, hit] at stands
            exact touched.ok.unused pa free _ _ y stands ⟨lower, upper⟩
        rw [again, map_some, map_some, map_some, scatter, last, writes]
        rfl

theorem loads_eq :
    steps (copyByte fromUserPage userBuf) n (s, kernelBuf) =
      (steps (touchByte userBuf) n s).map fun s₁ =>
        (s₁, fun i => if i < n then s₁.mem (cell s s₁ userBuf i) else kernelBuf i) := by
  induction n with
  | zero => rfl
  | succ n hyp =>
    rw [steps, steps, hyp (by omega)]
    cases before : steps (touchByte userBuf) n s with
    | none => rfl
    | some t =>
      obtain ⟨touched, _⟩ := touches_spec ok served small (by omega) before
      have user := served.userAt small (i := n) (by omega)
      rw [map_some, bind_some, bind_some, copyByte_fromUserPage, touchByte]
      cases done : transformVaddr t (userBuf + n) with
      | none => rfl
      | some p =>
        obtain ⟨t', x⟩ := p
        have last := touched.cell_last user done
        simp only [map_some, Option.some.injEq, Prod.mk.injEq, true_and]
        funext i
        by_cases same : i = n
        · subst same
          rw [update_self, if_pos (by omega), last]
        · rw [update_of_ne same]
          by_cases below : i < n
          · obtain ⟨moved, value⟩ := touched.cell_transform user done below
            rw [if_pos below, if_pos (by omega), moved, value]
          · rw [if_neg below, if_neg (by omega)]

end

end Copies

/-! ## What the user sees -/

variable {pa : Nat}

section View
variable {s s₁ : UserVm} {a userBuf n size : Nat} {r : Vmregion}

theorem userLoad_mapped (canonical : Canonical a) (entry : s.pgtbl (roundDown a) = some pa) :
    userLoad s a = some (s.mem (pa + a % pageSize)) := by
  simp only [userLoad, if_pos canonical, entry]

theorem canonical_of_userLoad {v : UInt8} (load : userLoad s a = some v) : Canonical a := by
  by_contra never
  simp only [userLoad, if_neg never] at load
  cases load

theorem userLoad_data (found : findVmr s.regions a = some r) (data : (s.pmo r.pmo).type = .data)
    (none : s.pgtbl (roundDown a) = none) : userLoad s a = Option.none := by
  unfold userLoad
  split
  · simp [none, handleTransFault, found, data]
  · rfl

theorem userLoad_anonym (regions : PageRegions s.regions) (canonical : Canonical a)
    (found : findVmr s.regions a = some r) (small : a < 2 ^ 64)
    (anonym : (s.pmo r.pmo).type = .anonym) (inside : InsidePmo s a r)
    (none : s.pgtbl (roundDown a) = none)
    (room : missing s a = Option.none ∨ ∃ pa ∈ s.freePages.head?, pa ≠ 0) :
    userLoad s a = some (pmoByte s r.pmo (a - r.start)) := by
  obtain ⟨member, covers⟩ := findVmr_eq_some found
  obtain ⟨sub, index, mod⟩ := pageIndex_eq (regions.aligned r member) covers.1 small
  have within : ¬ ((s.pmo r.pmo).size ≤ subU64 (roundDown a) r.start ∧
      (s.pmo r.pmo).type ≠ .file) := by
    rw [sub]
    have := inside anonym
    omega
  have handled : (s.pmo r.pmo).type ∈ [PmoType.file, .anonym, .shm] := by simp [anonym]
  unfold userLoad
  rw [if_pos canonical, none]
  simp only [handleTransFault, found, if_pos handled, if_neg within]
  change ((if (s.pmo r.pmo).radix (pageIndex r a) = 0 then
    (allocUserPage s (roundDown a) r.pmo (pageIndex r a)).map (·.1)
    else _).bind _) = _
  rw [missing_of_anonym found anonym, ← index] at room
  rw [pmoByte, byteAddr_of_anonym anonym, ← index, mod]
  by_cases absent : (s.pmo r.pmo).radix (pageIndex r a) = 0
  · rw [if_pos absent] at room
    rcases room with never | ⟨pa, head, nonzero⟩
    · cases never
    obtain ⟨rest, free⟩ := head?_eq_some_iff.mp head
    have inPage : pa ≤ pa + a % pageSize ∧ pa + a % pageSize < pa + pageSize := by
      have upper : a % pageSize < pageSize := Nat.mod_lt _ (by decide)
      omega
    rw [if_pos absent, if_pos absent, allocUserPage, free]
    simp only [if_neg nonzero, map_some, bind_some, UserVm.commit,
      update_self, memcpy, if_pos inPage, elim_none]
  · rw [if_neg absent, if_neg absent]
    simp only [bind_some, update_self, map_some, elim_some]
    rfl

def seen (s s₁ : UserVm) (a : Nat) : Option Nat :=
  (s₁.pgtbl (roundDown a)).elim
    (if (s.pmo (regionAt s a).pmo).type = .anonym then target s s₁ a else none)
    fun pa => some (pa + a % pageSize)

theorem Touched.userLoad (touched : Touched s userBuf n s₁) (m : Nat → UInt8) {i : Nat}
    (below : i < n) (user : UserAt s (userBuf + i) (regionAt s (userBuf + i)))
    (inside : InsidePmo s (userBuf + i) (regionAt s (userBuf + i)))
    (canonical : Canonical (userBuf + i)) :
    ChCore.userLoad (s₁.withMem m) (userBuf + i) = (seen s s₁ (userBuf + i)).map m := by
  have found : findVmr (s₁.withMem m).regions (userBuf + i) = some (regionAt s (userBuf + i)) := by
    rw [UserVm.withMem_regions, touched.regions]
    exact user.found
  have placed := touched.target_cell below
  rw [seen]
  cases entry : s₁.pgtbl (roundDown (userBuf + i)) with
  | some pa => exact userLoad_mapped (s := s₁.withMem m) canonical entry
  | none =>
    rw [elim_none]
    rcases user.type with data | anonym
    · rw [userLoad_data found ((touched.types _).trans data) entry, if_neg (by simp [data])]
      rfl
    have anonym' : (s₁.pmo (regionAt s (userBuf + i)).pmo).type = .anonym :=
      (touched.types _).trans anonym
    have present : missing (s₁.withMem m) (userBuf + i) = none := by
      rw [missing_of_anonym found anonym']
      apply if_neg
      intro absent
      rw [UserVm.withMem_pmo] at absent
      rw [target, byteAddr_of_anonym anonym', if_pos absent] at placed
      cases placed
    have regions : PageRegions (s₁.withMem m).regions := touched.ok.regions
    have inside' : InsidePmo (s₁.withMem m) (userBuf + i) (regionAt s (userBuf + i)) :=
      (insidePmo_congr touched.types touched.sizes).mpr inside
    rw [userLoad_anonym regions canonical found user.small anonym' inside' entry
      (.inl present), if_pos anonym, placed, map_some]
    have same : byteAddr (s₁.withMem m) (regionAt s (userBuf + i)).pmo
        (userBuf + i - (regionAt s (userBuf + i)).start) = some (cell s s₁ userBuf i) := placed
    rw [pmoByte, same, elim_some, UserVm.withMem_mem]

theorem Touched.value (touched : Touched s userBuf n s₁) {q off x : Nat}
    (stands : byteAddr s₁ q off = some x) : s₁.mem x = pmoByte s q off := by
  rw [pmoByte]
  cases before : byteAddr s q off with
  | none => exact (touched.fresh q off x before stands).1
  | some y =>
    obtain ⟨moved, value⟩ := touched.kept q off y before
    obtain rfl : y = x := by simpa [moved] using stands
    exact value

end View

/-! ## Exact copies -/

section Exact
variable {s s₁ : UserVm} {userBuf size : Nat}

def IsByte (s : UserVm) (a p off : Nat) : Prop :=
  (p = (regionAt s a).pmo ∧ off = a - (regionAt s a).start) ∨
    (byteAddr s p off ≠ none ∧ byteAddr s p off = target s s a)

def CopiesIn (s : UserVm) (userBuf size : Nat) : Prop :=
  ∀ kernelBuf, ∃ s' k, copyFromUser s kernelBuf userBuf size = some (s', k) ∧
    ∀ i, i < size → userLoad s (userBuf + i) = some (k i)

/-- The user sees the kernel's buffer in the range, every other byte of the pmos is left, and no
page of a region that must not be written is changed. -/
def CopiesOut (s : UserVm) (userBuf size : Nat) : Prop :=
  ∀ k, ∃ s', copyToUser s userBuf k size = some s' ∧
    (∀ i, i < size → userLoad s' (userBuf + i) = some (k i)) ∧
    (∀ p off, (∀ i, i < size → ¬ IsByte s (userBuf + i) p off) →
      pmoByte s' p off = pmoByte s p off) ∧
    ∀ i, i < size → (regionAt s (userBuf + i)).perm.testBit vmrWrite = false →
      ∀ off, off / pageSize = (userBuf + i - (regionAt s (userBuf + i)).start) / pageSize →
        pmoByte s' (regionAt s (userBuf + i)).pmo off = pmoByte s (regionAt s (userBuf + i)).pmo off

/-- At the byte `i` the page table has no entry and the fault handler makes one, or the entry of the
pmo's page, or one that will be replaced and shows zero as the missing page will. -/
def Shown (s : UserVm) (userBuf i : Nat) : Prop :=
  (s.pgtbl (roundDown (userBuf + i)) = none ∧
    (s.pmo (regionAt s (userBuf + i)).pmo).type = .anonym) ∨
  ∃ pa, s.pgtbl (roundDown (userBuf + i)) = some pa ∧
    (target s s (userBuf + i) = some (pa + (userBuf + i) % pageSize) ∨
      (missing s (userBuf + i) ≠ none ∧ FirstIn s userBuf i ∧
        s.mem (pa + (userBuf + i) % pageSize) = 0))

structure CopyOk (s : UserVm) (userBuf size : Nat) : Prop where
  below : userBuf + size < kbase
  canonical : ∀ i, i < size → Canonical (userBuf + i)
  inside : ∀ i, i < size → InsidePmo s (userBuf + i) (regionAt s (userBuf + i))
  room : (missingKeys s userBuf size).length ≤ s.freePages.length
  once : ∀ i j, i < size → j < size →
    (regionAt s (userBuf + i)).pmo = (regionAt s (userBuf + j)).pmo →
    userBuf + i - (regionAt s (userBuf + i)).start =
      userBuf + j - (regionAt s (userBuf + j)).start → i = j
  shown : ∀ i, i < size → Shown s userBuf i
  writable : ∀ i, i < size → (regionAt s (userBuf + i)).perm.testBit vmrWrite = true

structure CopyRun (s : UserVm) (userBuf size : Nat) (s₁ : UserVm) : Prop where
  ok : UserVmOk s
  users : ∀ i, i < size → UserAt s (userBuf + i) (regionAt s (userBuf + i))
  touched : Touched s userBuf size s₁
  inside : ∀ i, i < size → InsidePmo s (userBuf + i) (regionAt s (userBuf + i))

def CellsSeen (s s₁ : UserVm) (userBuf size : Nat) : Prop :=
  (∀ i, i < size → seen s s₁ (userBuf + i) = some (cell s s₁ userBuf i)) ∧
    ∀ i j, i < j → j < size → cell s s₁ userBuf j ≠ cell s s₁ userBuf i

/-- The view of the range is the buffer, for every buffer, if and only if the cells are seen. -/
theorem CopyRun.view (run : CopyRun s userBuf size s₁)
    (canonical : ∀ i, i < size → Canonical (userBuf + i)) : (∀ k, ∀ i, i < size →
      userLoad (s₁.withMem (scatter s₁.mem (cell s s₁ userBuf) k size)) (userBuf + i) =
        some (k i)) ↔ CellsSeen s s₁ userBuf size := by
  have bytes : Nontrivial UInt8 := ⟨0, 1, by decide⟩
  have load : ∀ k i, i < size →
      userLoad (s₁.withMem (scatter s₁.mem (cell s s₁ userBuf) k size)) (userBuf + i) =
        (seen s s₁ (userBuf + i)).map (scatter s₁.mem (cell s s₁ userBuf) k size) :=
    fun k i below => run.touched.userLoad _ below (run.users i below) (run.inside i below)
      (canonical i below)
  constructor
  · intro always
    have hits : ∀ i, i < size → seen s s₁ (userBuf + i) = some (cell s s₁ userBuf i) ∧
        ∀ j, i < j → j < size → cell s s₁ userBuf j ≠ cell s s₁ userBuf i := by
      intro i below
      rcases where_ : seen s s₁ (userBuf + i) with _ | y
      · have never := always (fun _ => 0) i below
        rw [load _ i below, where_] at never
        cases never
      have same : ∀ k, scatter s₁.mem (cell s s₁ userBuf) k size y = k i := by
        intro k
        have value := always k i below
        rw [load k i below, where_] at value
        exact Option.some.inj value
      obtain ⟨_, here, after⟩ := hit_of_scatter s₁.mem (cell s s₁ userBuf) size i y same
      subst here
      exact ⟨rfl, after⟩
    exact ⟨fun i below => (hits i below).1, fun i j less below => (hits i (by omega)).2 j less below⟩
  · intro both k i below
    rw [load k i below, both.1 i below, map_some, scatter_of_last _ _ _ below fun j => both.2 i j]

variable (run : CopyRun s userBuf size s₁)
include run

theorem CopyRun.index {i : Nat} (below : i < size) :
    pageIndex (regionAt s (userBuf + i)) (userBuf + i) =
        (userBuf + i - (regionAt s (userBuf + i)).start) / pageSize ∧
      (userBuf + i - (regionAt s (userBuf + i)).start) % pageSize = (userBuf + i) % pageSize := by
  have user := run.users i below
  obtain ⟨member, covers⟩ := findVmr_eq_some user.found
  exact (pageIndex_eq (run.ok.regions.aligned _ member) covers.1 user.small).2

section
variable {i j : Nat} (below : i < size) (below' : j < size)
  (page : roundDown (userBuf + i) = roundDown (userBuf + j))
include below below' page

theorem CopyRun.samePage :
    regionAt s (userBuf + i) = regionAt s (userBuf + j) ∧
      (userBuf + i - (regionAt s (userBuf + i)).start) / pageSize =
        (userBuf + j - (regionAt s (userBuf + j)).start) / pageSize := by
  have region := run.ok.regions.findVmr_page (run.users i below).found (run.users j below').found page
  refine ⟨region, ?_⟩
  rw [← (run.index below).1, ← (run.index below').1, pageIndex, pageIndex, page, region]

theorem CopyRun.missing_samePage : missing s (userBuf + i) = missing s (userBuf + j) := by
  obtain ⟨region, index⟩ := run.samePage below below' page
  unfold missing
  rw [(run.users i below).found, (run.users j below').found, bind_some, bind_some, index, region]

theorem CopyRun.firstIn (first : FirstIn s userBuf j) : FirstIn s userBuf i := by
  have same := run.missing_samePage below below' page
  intro k earlier equal
  by_cases sooner : k < j
  · exact (first k sooner (equal.trans same)).trans page.symm
  -- between two bytes of one page
  have lower : roundDown (userBuf + j) ≤ roundDown (userBuf + k) :=
    Nat.mul_le_mul_right _ (Nat.div_le_div_right (by omega))
  have upper : roundDown (userBuf + k) ≤ roundDown (userBuf + i) :=
    Nat.mul_le_mul_right _ (Nat.div_le_div_right (by omega))
  omega

theorem CopyRun.target_samePage (anonym : (s.pmo (regionAt s (userBuf + j)).pmo).type = .anonym)
    (stands : target s s₁ (userBuf + j) = some (pa + (userBuf + j) % pageSize)) :
    target s s₁ (userBuf + i) = some (pa + (userBuf + i) % pageSize) := by
  obtain ⟨region, index⟩ := run.samePage below below' page
  have anonym' := (run.touched.types _).trans anonym
  rw [target, byteAddr_of_anonym anonym', (run.index below').2] at stands
  rw [target, region, byteAddr_of_anonym anonym', ← region, index, (run.index below).2, region]
  split at stands
  · cases stands
  · rename_i present
    rw [if_neg present]
    simp only [Option.some.injEq] at stands ⊢
    omega

end

theorem CopyRun.target_of_missing {i : Nat} (below : i < size)
    (needed : missing s (userBuf + i) ≠ none) :
    (s.pmo (regionAt s (userBuf + i)).pmo).type = .anonym ∧ target s s (userBuf + i) = none := by
  have user := run.users i below
  rcases user.type with data | anonym
  · exact absurd (missing_of_data user.found data) needed
  refine ⟨anonym, ?_⟩
  rw [missing_of_anonym user.found anonym] at needed
  rw [target, byteAddr_of_anonym anonym]
  apply if_pos
  by_contra present
  exact needed (if_neg present)

theorem CopyRun.value {i : Nat} (below : i < size) : s₁.mem (cell s s₁ userBuf i) =
      pmoByte s (regionAt s (userBuf + i)).pmo (userBuf + i - (regionAt s (userBuf + i)).start) :=
  run.touched.value (run.touched.target_cell below)

theorem CopyRun.cell_of_target {i x : Nat} (stands : target s s (userBuf + i) = some x) :
    cell s s₁ userBuf i = x ∧ s₁.mem x = s.mem x := by
  obtain ⟨moved, value⟩ := run.touched.kept _ _ x stands
  rw [cell, target, moved, getD_some]
  exact ⟨rfl, value⟩

theorem CopyRun.seen_of_shown {i : Nat} (below : i < size) (shown : Shown s userBuf i) :
    seen s s₁ (userBuf + i) = some (cell s s₁ userBuf i) := by
  have placed := run.touched.target_cell below
  rw [seen]
  rcases run.touched.pgtbl (roundDown (userBuf + i)) with
    ⟨same, none⟩ | ⟨j, below', page, needed, first, pa, entry, stands⟩
  · rw [same]
    rcases shown with ⟨entry, anonym⟩ | ⟨pa, entry, stands | ⟨needed, first, _⟩⟩
    · rw [entry, elim_none, if_pos anonym]
      exact placed
    · rw [entry, elim_some, (run.cell_of_target stands).1]
    · exact absurd first (none i below rfl needed)
  · have anonym := (run.target_of_missing below' needed).1
    rw [entry, elim_some, ← run.target_samePage below below' page anonym stands]
    exact placed

theorem CopyRun.userLoad_of_shown {i : Nat} (below : i < size) (canonical : Canonical (userBuf + i))
    (room : (missingKeys s userBuf size).length ≤ s.freePages.length) (shown : Shown s userBuf i) :
    userLoad s (userBuf + i) = some (s₁.mem (cell s s₁ userBuf i)) := by
  have user := run.users i below
  rcases shown with ⟨entry, anonym⟩ | ⟨pa, entry, stands | ⟨needed, first, zero⟩⟩
  · have left : missing s (userBuf + i) = none ∨ ∃ pa ∈ s.freePages.head?, pa ≠ 0 := by
      cases needed : missing s (userBuf + i) with
      | none => exact .inl rfl
      | some key =>
        have listed := (mem_missingKeys s userBuf size key).mpr ⟨i, below, needed⟩
        have some := length_pos_of_mem listed
        obtain ⟨pa, rest, free⟩ := exists_cons_of_length_pos (Nat.lt_of_lt_of_le some room)
        exact .inr ⟨pa, by simp [free], run.ok.nonzero pa (by simp [free])⟩
    rw [userLoad_anonym run.ok.regions canonical user.found user.small anonym (run.inside i below)
      entry left, run.value below]
  · obtain ⟨cellEq, value⟩ := run.cell_of_target stands
    rw [userLoad_mapped canonical entry, cellEq, value]
  · obtain ⟨_, absent⟩ := run.target_of_missing below needed
    have fresh := run.touched.fresh _ _ _ absent (run.touched.target_cell below)
    rw [userLoad_mapped canonical entry, zero, fresh.1]

theorem CopyRun.shown_of_seen {i : Nat} (below : i < size) (canonical : Canonical (userBuf + i))
    (load : userLoad s (userBuf + i) = some (s₁.mem (cell s s₁ userBuf i)))
    (visible : seen s s₁ (userBuf + i) = some (cell s s₁ userBuf i)) : Shown s userBuf i := by
  have placed := run.touched.target_cell below
  cases entry : s.pgtbl (roundDown (userBuf + i)) with
  | none =>
    refine .inl ⟨entry, ?_⟩
    rcases (run.users i below).type with data | anonym
    · rw [userLoad_data (run.users i below).found data entry] at load
      cases load
    · exact anonym
  | some pa =>
    refine .inr ⟨pa, entry, ?_⟩
    rcases run.touched.pgtbl (roundDown (userBuf + i)) with
      ⟨same, none⟩ | ⟨j, below', page, needed, first, _⟩
    · left
      rw [seen, same, entry, elim_some, ← placed] at visible
      cases before : target s s (userBuf + i) with
      | some x =>
        rw [visible, placed, (run.cell_of_target before).1]
      | none =>
        -- a page that was free is not mapped
        obtain ⟨_, _, pa', free, equal⟩ := run.touched.fresh _ _ _ before visible.symm
        rw [(run.index below).2] at equal
        obtain rfl : pa = pa' := by omega
        exact absurd entry (run.ok.unmapped pa free _)
    · right
      have needed' : missing s (userBuf + i) ≠ none := by
        rwa [run.missing_samePage below below' page]
      obtain ⟨_, absent⟩ := run.target_of_missing below needed'
      refine ⟨needed', run.firstIn below below' page first, ?_⟩
      rw [userLoad_mapped canonical entry, (run.touched.fresh _ _ _ absent placed).1] at load
      exact Option.some.inj load

theorem CopyRun.own {q : Nat} (own : Private s q) : Private s₁ q := by
  unfold Private
  rwa [run.touched.types]

/-- Cells are distinct if and only if no byte of a pmo is in the range twice. -/
theorem CopyRun.cell_inj {i j : Nat} (below : i < size) (below' : j < size) :
    cell s s₁ userBuf i = cell s s₁ userBuf j ↔
      ((regionAt s (userBuf + i)).pmo = (regionAt s (userBuf + j)).pmo ∧
        userBuf + i - (regionAt s (userBuf + i)).start =
          userBuf + j - (regionAt s (userBuf + j)).start) := by
  have one := run.touched.target_cell below
  have other := run.touched.target_cell below'
  constructor
  · intro equal
    rw [← equal] at other
    exact run.touched.ok.single _ _ _ _ _ (run.own (run.users i below).type)
      (run.own (run.users j below').type) one other
  · intro both
    rw [cell, cell, target, target, both.1, both.2]

omit run in
theorem pmoByte_withMem (m : Nat → UInt8) (p off : Nat) :
    pmoByte (s.withMem m) p off = (byteAddr s p off).elim 0 m := rfl

theorem CopyRun.others (k : Nat → UInt8) {p off : Nat}
    (outside : ∀ i, i < size → ¬ IsByte s (userBuf + i) p off) :
    pmoByte (s₁.withMem (scatter s₁.mem (cell s s₁ userBuf) k size)) p off = pmoByte s p off := by
  have touched := run.touched
  rw [pmoByte_withMem]
  cases after : byteAddr s₁ p off with
  | none =>
    cases before : byteAddr s p off with
    | none =>
      rw [pmoByte, before]
      rfl
    | some x =>
      rw [(touched.kept p off x before).1] at after
      cases after
  | some x =>
    rw [elim_some, scatter_of_forall_ne, touched.value after]
    intro i below hit
    have placed := touched.target_cell below
    rw [hit] at placed
    apply outside i below
    cases before : byteAddr s p off with
    | some y =>
      right
      obtain rfl : y = x := by simpa [(touched.kept p off y before).1] using after
      cases own : target s s (userBuf + i) with
      | some z =>
        have same := (run.cell_of_target own).1
        rw [hit] at same
        rw [before, same]
        exact ⟨some_ne_none _, rfl⟩
      | none =>
        obtain ⟨_, _, pa, free, equal⟩ := touched.fresh _ _ _ own placed
        have upper := Nat.mod_lt
          (userBuf + i - (regionAt s (userBuf + i)).start) (show 0 < pageSize by decide)
        exact absurd ⟨by omega, by omega⟩ (run.ok.unused pa free p off y before)
    | none =>
      left
      have own := (touched.fresh p off x before after).2.1
      exact touched.ok.single _ _ _ _ x (run.own own)
        (run.own (run.users i below).type) after placed

omit run

theorem copies_of_run (ok : UserVmOk s) (served : Served s userBuf size) (positive : 0 < size)
    (below : userBuf + size < kbase) (done : steps (touchByte userBuf) size s = some s₁)
    (k : Nat → UInt8) : CopyRun s userBuf size s₁ ∧
      copyToUser s userBuf k size =
        some (s₁.withMem (scatter s₁.mem (cell s s₁ userBuf) k size)) ∧
      copyFromUser s k userBuf size =
        some (s₁, fun i => if i < size then s₁.mem (cell s s₁ userBuf i) else k i) := by
  have small : userBuf + size ≤ 2 ^ 64 := by
    unfold kbase at below
    omega
  obtain ⟨touched, inside⟩ := touches_spec ok served small (Nat.le_refl _) done
  refine ⟨⟨ok, fun i within => served.userAt small within, touched, inside⟩, ?_, ?_⟩
  · rw [copyToUser_eq_steps ok.regions served k positive (by omega), if_pos below,
      stores_eq ok served small k (Nat.le_refl _), done, map_some]
  · rw [copyFromUser_eq_steps ok.regions served k positive (by omega), if_pos below,
      loads_eq ok served small k (Nat.le_refl _), done, map_some]

theorem touches_of_copiesIn (ok : UserVmOk s) (served : Served s userBuf size) (positive : 0 < size)
    (below : userBuf + size ≤ kbase) (copies : CopiesIn s userBuf size) :
    userBuf + size < kbase ∧ ∃ s₁, steps (touchByte userBuf) size s = some s₁ := by
  have small : userBuf + size ≤ 2 ^ 64 := by
    unfold kbase at below
    omega
  obtain ⟨s', k, copied, _⟩ := copies fun _ => 0
  rw [copyFromUser_eq_steps ok.regions served _ positive below] at copied
  by_cases inside : userBuf + size < kbase
  · rw [if_pos inside, loads_eq ok served small _ (Nat.le_refl _)] at copied
    obtain ⟨s₁, done, _⟩ := map_eq_some_iff.mp copied
    exact ⟨inside, s₁, done⟩
  · rw [if_neg inside] at copied
    cases copied

section
variable (run : CopyRun s userBuf size s₁)
  (outs : ∀ k, copyToUser s userBuf k size =
    some (s₁.withMem (scatter s₁.mem (cell s s₁ userBuf) k size)))
  (ins : ∀ k, copyFromUser s k userBuf size =
    some (s₁, fun i => if i < size then s₁.mem (cell s s₁ userBuf i) else k i))
include run outs ins

theorem CopyRun.exact_of_ok (cond : CopyOk s userBuf size) :
    CopiesIn s userBuf size ∧ CopiesOut s userBuf size := by
  have cells : CellsSeen s s₁ userBuf size := by
    refine ⟨fun i below => run.seen_of_shown below (cond.shown i below), ?_⟩
    intro i j less below equal
    obtain ⟨pmo, off⟩ := (run.cell_inj below (by omega)).mp equal
    have same := cond.once j i below (by omega) pmo off
    omega
  constructor
  · intro kernelBuf
    refine ⟨_, _, ins kernelBuf, ?_⟩
    intro i below
    rw [if_pos below]
    exact run.userLoad_of_shown below (cond.canonical i below) cond.room (cond.shown i below)
  · intro k
    refine ⟨_, outs k, (run.view cond.canonical).mpr cells k, fun p off => run.others k, ?_⟩
    intro i below readOnly
    rw [cond.writable i below] at readOnly
    cases readOnly

theorem CopyRun.ok_of_exact (below : userBuf + size < kbase)
    (copiesIn : CopiesIn s userBuf size) (copiesOut : CopiesOut s userBuf size) :
    CopyOk s userBuf size := by
  have loads : ∀ i, i < size → userLoad s (userBuf + i) = some (s₁.mem (cell s s₁ userBuf i)) := by
    intro i within
    obtain ⟨s', k, copied, load⟩ := copiesIn fun _ => 0
    rw [ins] at copied
    cases copied
    have value := load i within
    simp only [if_pos within] at value
    exact value
  have canonical : ∀ i, i < size → Canonical (userBuf + i) :=
    fun i within => canonical_of_userLoad (loads i within)
  have stores : ∀ k, (∀ i, i < size →
      userLoad (s₁.withMem (scatter s₁.mem (cell s s₁ userBuf) k size)) (userBuf + i) =
        some (k i)) := by
    intro k
    obtain ⟨s', copied, views, _⟩ := copiesOut k
    rw [outs] at copied
    cases copied
    exact views
  obtain ⟨visible, distinct⟩ := (run.view canonical).mp stores
  refine ⟨below, canonical, run.inside, ?_, ?_, ?_, ?_⟩
  · have count := run.touched.room
    omega
  · intro i j one other pmo off
    have equal := (run.cell_inj one other).mpr ⟨pmo, off⟩
    rcases Nat.lt_trichotomy i j with less | same | more
    · exact absurd equal.symm (distinct i j less other)
    · exact same
    · exact absurd equal (distinct j i more one)
  · exact fun i within => run.shown_of_seen within (canonical i within) (loads i within)
      (visible i within)
  · intro i within
    by_contra readOnly
    rw [Bool.not_eq_true] at readOnly
    -- the byte would have to keep its value and to get every other one
    have keeps : ∀ k : Nat → UInt8, k i = pmoByte s (regionAt s (userBuf + i)).pmo
        (userBuf + i - (regionAt s (userBuf + i)).start) := by
      intro k
      obtain ⟨s', copied, _, _, pages⟩ := copiesOut k
      rw [outs] at copied
      cases copied
      have byte := pages i within readOnly _ rfl
      have placed := run.touched.target_cell within
      rw [target] at placed
      rw [pmoByte_withMem, placed, elim_some,
        scatter_of_last _ _ _ within fun j => distinct i j] at byte
      exact byte
    have zero := keeps fun _ => 0
    have one := keeps fun _ => 1
    exact absurd (zero.trans one.symm) (by decide)

end

/-- For a range of user addresses in data and anonymous regions, the two copies are exact if and
only if the range meets `CopyOk`. -/
theorem copies_exact_iff (s : UserVm) (ok : UserVmOk s) (userBuf size : Nat) (positive : 0 < size)
    (below : userBuf + size ≤ kbase) (served : Served s userBuf size) :
    (CopiesIn s userBuf size ∧ CopiesOut s userBuf size) ↔ CopyOk s userBuf size := by
  constructor
  · intro both
    obtain ⟨inside, s₁, done⟩ := touches_of_copiesIn ok served positive below both.1
    have all := fun k => copies_of_run ok served positive inside done k
    exact (all fun _ => 0).1.ok_of_exact (fun k => (all k).2.1) (fun k => (all k).2.2)
      inside both.1 both.2
  intro cond
  have small : userBuf + size ≤ 2 ^ 64 := by
    unfold kbase at below
    omega
  obtain ⟨s₁, done⟩ := touches_isSome ok served small (Nat.le_refl _) cond.inside cond.room
  have all := fun k => copies_of_run ok served positive cond.below done k
  exact (all fun _ => 0).1.exact_of_ok (fun k => (all k).2.1) (fun k => (all k).2.2) cond

end Exact

/-- Two pages of an anonymous pmo at `0x1000`, none of them committed, with the permission `perm`;
two pages are free. -/
def exampleUserVm (perm : Nat) : UserVm where
  regions := [⟨0x1000, 0x2000, perm, 7⟩]
  pmo := fun _ => ⟨.anonym, 0, 0x2000, fun _ => 0⟩
  pgtbl := fun _ => none
  mem := fun _ => 255
  freePages := [0x8000, 0x9000]

theorem exampleUserVm_ok (perm : Nat) : UserVmOk (exampleUserVm perm) where
  regions := by
    refine ⟨?_, pairwise_singleton _ _⟩
    intro r inside
    simp only [exampleUserVm, mem_singleton] at inside
    subst inside
    change 0x1000 % pageSize = 0
    decide
  backed := fun r _ data => by cases data
  single := fun p q off off' x _ _ stands => by cases stands
  nodup := by
    change [0x8000, 0x9000].Nodup
    decide
  aligned := by
    change ∀ pa ∈ [0x8000, 0x9000], pa % pageSize = 0
    decide
  nonzero := by
    change ∀ pa ∈ [0x8000, 0x9000], pa ≠ 0
    decide
  unused := fun pa _ p off x stands => by cases stands
  unmapped := fun pa _ va mapped => by cases mapped

theorem exampleUserVm_found (perm : Nat) {i : Nat} (below : i < 2) :
    findVmr (exampleUserVm perm).regions (0x1fff + i) = some ⟨0x1000, 0x2000, perm, 7⟩ := by
  have stop : addU64 0x1000 0x2000 = 0x3000 := by decide
  apply find?_cons_of_pos
  simp only [Vmregion.stop, stop, Bool.and_eq_true, decide_eq_true_eq]
  omega

theorem exampleUserVm_served (perm : Nat) : Served (exampleUserVm perm) 0x1fff 2 :=
  fun _ below => ⟨_, exampleUserVm_found perm below, .inr rfl⟩

/-- The last byte of a page and the first of the next, both pages not committed. -/
theorem copies_exact_across_pages :
    UserVmOk (exampleUserVm 3) ∧ CopiesIn (exampleUserVm 3) 0x1fff 2 ∧
      CopiesOut (exampleUserVm 3) 0x1fff 2 := by
  refine ⟨exampleUserVm_ok 3, (copies_exact_iff (exampleUserVm 3) (exampleUserVm_ok 3) 0x1fff 2
    (by decide) (by decide) (exampleUserVm_served 3)).mpr ?_⟩
  refine ⟨by decide, by decide, ?_, by decide, ?_, ?_, by decide⟩
  · intro i below _
    revert i
    decide
  · intro i j one other _ offset
    rw [regionAt_of_found (exampleUserVm_found 3 one),
      regionAt_of_found (exampleUserVm_found 3 other)] at offset
    simp only at offset
    omega
  · intro i below
    exact .inl ⟨rfl, rfl⟩

/-- Two bytes are written into a region that is only readable. -/
theorem copy_writes_read_only :
    UserVmOk (exampleUserVm 1) ∧ Served (exampleUserVm 1) 0x1fff 2 ∧ 0x1fff + 2 ≤ kbase ∧
      (copyToUser (exampleUserVm 1) 0x1fff (fun _ => 1) 2).map (pmoByte · 7 0x1000) = some 1 ∧
      pmoByte (exampleUserVm 1) 7 0x1000 = 0 ∧ ¬ CopiesOut (exampleUserVm 1) 0x1fff 2 := by
  refine ⟨exampleUserVm_ok 1, exampleUserVm_served 1, by decide, by decide, by decide, ?_⟩
  intro copies
  obtain ⟨s', copied, _, _, pages⟩ := copies fun _ => 1
  have byte := pages 1 (by decide) (by decide) 0x1000 (by decide)
  have written : (copyToUser (exampleUserVm 1) 0x1fff (fun _ => 1) 2).map (pmoByte · 7 0x1000) =
      some 1 := by decide
  rw [copied, map_some, Option.some.injEq] at written
  have kept : pmoByte s' 7 0x1000 = pmoByte (exampleUserVm 1) 7 0x1000 := byte
  rw [written] at kept
  exact absurd kept (by decide)

end KernelLabs.ChCore
