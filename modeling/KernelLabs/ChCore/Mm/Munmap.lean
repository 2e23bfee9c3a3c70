import KernelLabs.ChCore.Mm.PageTableChange
import KernelLabs.ChCore.Mm.VmRegionRuns

/-!
# What `munmap` leaves behind

`unmap_vmrs` looks up the region at the running address and stops at the first address
that has none.  A region larger than what is left is moved up by `len` wherever the
running address stands in it, and the page fault handler counts offsets from its start; a
region that is not larger is deleted, the part below the running address included.  So
`munmap` is exact if and only if the regions it meets lie inside the range, without a gap
before them, and no mapped page is jumped over in the page table.
-/

set_option autoImplicit false

namespace KernelLabs.ChCore

open Function List Option

def subU64 (x y : Nat) : Nat := (x + (2 ^ 64 - y)) % 2 ^ 64

structure Backing where
  perm : Nat
  pmo : Nat
  offset : Nat
  deriving DecidableEq, Repr

def backing (s : Vmspace) (addr : Nat) : Option Backing :=
  (findVmrForVa s addr).map fun id =>
    { perm := (s.vmr id).perm, pmo := (s.vmr id).pmo
      offset := subU64 (roundDown addr) (s.vmr id).start }

structure RegionsExact (s s' : Vmspace) (va len : Nat) : Prop where
  uncovered : ∀ a, va ≤ a → a < va + len → ∀ id ∈ s'.vmrList, ¬ (s'.vmr id).Covers a
  kept : ∀ a, ¬ (va ≤ a ∧ a < va + len) → ∀ b, backing s a = some b → backing s' a = some b

def MunmapExact (s : Vmspace) (addr len : Nat) : Prop :=
  ∃ s', sysHandleMunmap s addr len = some s' ∧ RegionsExact s s' addr len ∧
    ∀ a, addr ≤ a → a < addr + len → queryInPgtbl s'.pt.mem s'.pgtbl a = none

def Vmregion.Meets (r : Vmregion) (va len : Nat) : Prop :=
  r.size ≠ 0 ∧ len ≠ 0 ∧ r.start < va + len ∧ va < r.start + r.size

/-- The regions that meet the range lie inside it, and below each of them the range is
covered by regions. -/
structure WholeRegions (list : List Nat) (vmr : Nat → Vmregion) (va len : Nat) : Prop where
  inside : ∀ id ∈ list, (vmr id).Meets va len →
    va ≤ (vmr id).start ∧ (vmr id).start + (vmr id).size ≤ va + len
  noGap : ∀ id ∈ list, (vmr id).Meets va len → ∀ a, va ≤ a → a < (vmr id).start →
    ∃ id' ∈ list, (vmr id').Covers a

/-- Every mapped page of the range lies behind a running address that starts at a region. -/
def PagesBehind (s : Vmspace) (va len : Nat) : Prop :=
  ∀ x, va ≤ x → x < va + len → queryInPgtbl s.pt.mem s.pgtbl x ≠ none →
    ∃ id ∈ s.vmrList, (s.vmr id).Meets va len ∧
      Behind s.pt.mem s.pgtbl (roundDown (s.vmr id).start) (va + len) x

/-! ## Looking up an address -/

open Vmregion

section Lookup
variable {s s' : Vmspace} {a id : Nat} (ok : RegionsOk s.vmrList s.vmr)
include ok

theorem find_iff : findVmrForVa s a = some id ↔ id ∈ s.vmrList ∧ (s.vmr id).Covers a := by
  constructor
  · exact covers_of_find ok
  rintro ⟨member, covers⟩
  cases found : findVmrForVa s a with
  | none =>
    have nowhere := find?_eq_none.mp found id member
    rw [stop_eq (ok.bounded id member)] at nowhere
    simp only [Bool.and_eq_true, decide_eq_true_eq] at nowhere
    exact absurd covers nowhere
  | some id' =>
    obtain ⟨member', covers'⟩ := covers_of_find ok found
    by_contra differ
    have apart := ok.apart id' member' id member fun same => differ (by rw [same])
    exact (apart_iff _ _).mp apart a ⟨covers', covers⟩

theorem find_none_iff : findVmrForVa s a = none ↔ ∀ id ∈ s.vmrList, ¬ (s.vmr id).Covers a := by
  rw [eq_none_iff_forall_ne_some]
  constructor
  · intro nothing id member covers
    exact nothing id ((find_iff ok).mpr ⟨member, covers⟩)
  · intro nothing id found
    obtain ⟨member, covers⟩ := (find_iff ok).mp found
    exact nothing id member covers

theorem find_delVmr (member : id ∈ s.vmrList) (va len : Nat) :
    findVmrForVa (delVmrFromVmspace (unmapPages s va len) id) a =
      if (s.vmr id).Covers a then none else findVmrForVa s a := by
  have left : RegionsOk (s.vmrList.erase id) s.vmr := ok.erase id
  have found : ∀ id', findVmrForVa (delVmrFromVmspace (unmapPages s va len) id) a = some id' ↔
      (id' ≠ id ∧ id' ∈ s.vmrList) ∧ (s.vmr id').Covers a := by
    intro id'
    rw [← ok.nodup.mem_erase_iff]
    exact find_iff (s := delVmrFromVmspace (unmapPages s va len) id) left
  split
  · rename_i covers
    rw [eq_none_iff_forall_ne_some]
    intro id' here
    obtain ⟨⟨differ, member'⟩, covers'⟩ := (found id').mp here
    exact (apart_iff _ _).mp (ok.apart id' member' id member differ) a ⟨covers', covers⟩
  rename_i outside
  apply ext
  intro id'
  rw [found id', find_iff ok]
  constructor
  · rintro ⟨⟨_, member'⟩, covers'⟩
    exact ⟨member', covers'⟩
  · rintro ⟨member', covers'⟩
    refine ⟨⟨?_, member'⟩, covers'⟩
    rintro rfl
    exact outside covers'

theorem backing_delVmr (member : id ∈ s.vmrList) (va len : Nat) :
    backing (delVmrFromVmspace (unmapPages s va len) id) a =
      if (s.vmr id).Covers a then none else backing s a := by
  unfold backing
  rw [find_delVmr ok member]
  split <;> rfl

theorem backing_of_covers (member : id ∈ s.vmrList) (covers : (s.vmr id).Covers a) :
    backing s a = some { perm := (s.vmr id).perm, pmo := (s.vmr id).pmo
                         offset := subU64 (roundDown a) (s.vmr id).start } := by
  unfold backing
  rw [(find_iff ok).mpr ⟨member, covers⟩]
  rfl

end Lookup

/-! ## The regions -/

section Regions
variable {s s' : Vmspace} {va len id : Nat}

theorem Unmaps.covered (unmaps : Unmaps s va len s') : RegionsOk s.vmrList s.vmr → ∀ a,
    (∃ id ∈ s'.vmrList, (s'.vmr id).Covers a) → ∃ id ∈ s.vmrList, (s.vmr id).Covers a := by
  induction unmaps with
  | done | nothing => exact fun _ _ covered => covered
  | shrink s va len id found part _ _ =>
    rintro ok a ⟨id', member, covers⟩
    refine ⟨id', member, ?_⟩
    by_cases same : id' = id
    · subst same
      have bounded := ok.bounded id' member
      have moved : addU64 (s.vmr id').start len = (s.vmr id').start + len :=
        Nat.mod_eq_of_lt (by omega)
      simp only [shrinkVmr, unmapPages, setVmr, update_self, moved] at covers
      unfold Vmregion.Covers at covers ⊢
      simp only at covers
      omega
    · simpa [shrinkVmr, unmapPages, setVmr, same] using covers
  | whole s va len id s' _ _ _ _ ih =>
    intro ok a covered
    obtain ⟨id', member, covers⟩ := ih (ok.erase id) a covered
    exact ⟨id', mem_of_mem_erase member, covers⟩

section
variable (ok : RegionsOk s.vmrList s.vmr)
include ok

/-- Where the range starts in a gap, no region may meet it. -/
theorem wholeRegions_of_gap (gap : findVmrForVa s va = none) :
    WholeRegions s.vmrList s.vmr va len ↔ ∀ id ∈ s.vmrList, ¬ (s.vmr id).Meets va len := by
  rw [find_none_iff ok] at gap
  constructor
  · intro whole id member meets
    have start : va < (s.vmr id).start := by
      have := gap id member
      unfold Vmregion.Covers at this
      unfold Vmregion.Meets at meets
      omega
    obtain ⟨id', member', covers⟩ := whole.noGap id member meets va (le_refl va) start
    exact gap id' member' covers
  · intro none
    exact ⟨fun id member meets => absurd meets (none id member),
      fun id member meets => absurd meets (none id member)⟩

section
variable (member : id ∈ s.vmrList) (start : (s.vmr id).start = va) (small : (s.vmr id).size ≤ len)
include member start small

/-- Deleting the region at the start of the range: what is left of the range meets the
other regions as before. -/
theorem meets_erase (id' : Nat) : (id' ∈ s.vmrList.erase id ∧
      (s.vmr id').Meets (va + (s.vmr id).size) (len - (s.vmr id).size)) ↔
      id' ≠ id ∧ id' ∈ s.vmrList ∧ (s.vmr id').Meets va len := by
  rw [ok.nodup.mem_erase_iff, and_assoc]
  apply and_congr_right
  intro differ
  apply and_congr_right
  intro member'
  have apart := ok.apart id' member' id member differ
  unfold Vmregion.Apart at apart
  unfold Vmregion.Meets
  omega

theorem wholeRegions_erase (size : (s.vmr id).size ≠ 0) :
    WholeRegions s.vmrList s.vmr va len ↔ WholeRegions (s.vmrList.erase id) s.vmr
      (va + (s.vmr id).size) (len - (s.vmr id).size) := by
  have meets := meets_erase ok member start small
  constructor
  · intro whole
    refine ⟨?_, ?_⟩
    · intro id' member' met
      obtain ⟨differ, old, met⟩ := (meets id').mp ⟨member', met⟩
      have inside := whole.inside id' old met
      have apart := ok.apart id' old id member differ
      unfold Vmregion.Apart at apart
      unfold Vmregion.Meets at met
      omega
    · intro id' member' met a after before
      obtain ⟨differ, old, met⟩ := (meets id').mp ⟨member', met⟩
      obtain ⟨id2, member2, covers⟩ := whole.noGap id' old met a (by omega) before
      refine ⟨id2, (ok.nodup.mem_erase_iff).mpr ⟨?_, member2⟩, covers⟩
      rintro rfl
      unfold Vmregion.Covers at covers
      omega
  · intro whole
    refine ⟨?_, ?_⟩
    · intro id' old met
      by_cases same : id' = id
      · subst same
        omega
      · obtain ⟨member', met'⟩ := (meets id').mpr ⟨same, old, met⟩
        have inside := whole.inside id' member' met'
        omega
    intro id' old met a after before
    by_cases same : id' = id
    · subst same
      omega
    · obtain ⟨member', met'⟩ := (meets id').mpr ⟨same, old, met⟩
      by_cases first : a < va + (s.vmr id).size
      · exact ⟨id, member, by unfold Vmregion.Covers; omega⟩
      · obtain ⟨id2, member2, covers⟩ := whole.noGap id' member' met' a (by omega) before
        exact ⟨id2, mem_of_mem_erase member2, covers⟩

theorem regionsExact_erase (full : Nat) (covered : ∀ a, (∃ i ∈ s'.vmrList, (s'.vmr i).Covers a) →
      ∃ i ∈ s.vmrList.erase id, (s.vmr i).Covers a) :
    RegionsExact s s' va len ↔ RegionsExact (delVmrFromVmspace (unmapPages s va full) id) s'
      (va + (s.vmr id).size) (len - (s.vmr id).size) := by
  have backs := fun a => backing_delVmr (a := a) ok member va full
  constructor
  · intro exact
    refine ⟨fun a after before => exact.uncovered a (by omega) (by omega), ?_⟩
    intro a outside b found
    rw [backs] at found
    split at found
    · cases found
    · rename_i elsewhere
      unfold Vmregion.Covers at elsewhere
      exact exact.kept a (by omega) b found
  · intro exact
    refine ⟨?_, ?_⟩
    · intro a after before i member' covers
      by_cases first : a < va + (s.vmr id).size
      · obtain ⟨i', left, covers'⟩ := covered a ⟨i, member', covers⟩
        obtain ⟨differ, old⟩ := ok.nodup.mem_erase_iff.mp left
        refine (apart_iff _ _).mp (ok.apart i' old id member differ) a ⟨covers', ?_⟩
        unfold Vmregion.Covers
        omega
      · exact exact.uncovered a (by omega) (by omega) i member' covers
    · intro a outside b found
      refine exact.kept a (by omega) b ?_
      rw [backs, if_neg, found]
      unfold Vmregion.Covers
      omega

end

/-- The lower part of a region cannot go without the rest changing its offsets. -/
theorem not_regionsExact_shrink (found : findVmrForVa s va = some id) (part : len < (s.vmr id).size)
    (pos : len ≠ 0) : ¬ RegionsExact s (shrinkVmr s id va len) va len := by
  intro exact
  obtain ⟨member, covers⟩ := covers_of_find ok found
  have bounded := ok.bounded id member
  have moved : addU64 (s.vmr id).start len = (s.vmr id).start + len := Nat.mod_eq_of_lt (by omega)
  -- an address of the region outside the range
  obtain ⟨a, inside, outside⟩ : ∃ a, (s.vmr id).Covers a ∧ ¬ (va ≤ a ∧ a < va + len) := by
    unfold Vmregion.Covers at covers ⊢
    by_cases low : (s.vmr id).start < va
    · exact ⟨(s.vmr id).start, by omega, by omega⟩
    · exact ⟨va + len, by omega, by omega⟩
  have after := exact.kept a outside _ (backing_of_covers ok member inside)
  have ok' : RegionsOk s.vmrList (shrinkVmr s id va len).vmr := ok.shrink member part
  unfold backing at after
  rw [map_eq_some_iff] at after
  obtain ⟨id', found', same⟩ := after
  obtain ⟨member', covers'⟩ := covers_of_find (s := shrinkVmr s id va len) ok' found'
  by_cases here : id' = id
  · subst here
    simp only [shrinkVmr, unmapPages, setVmr, update_self, moved, subU64, Backing.mk.injEq] at same
    omega
  · have unchanged : (shrinkVmr s id va len).vmr id' = s.vmr id' := update_of_ne here _ _
    rw [unchanged] at covers'
    exact (apart_iff _ _).mp (ok.apart id' member' id member here) a ⟨covers', inside⟩

end

theorem region_of_find {id : Nat} (ok : RegionsOk s.vmrList s.vmr)
    (found : findVmrForVa s va = some id) : id ∈ s.vmrList ∧
      ((s.vmr id).start ≤ va ∧ va < (s.vmr id).start + (s.vmr id).size) ∧ (s.vmr id).size ≠ 0 ∧
      (s.vmr id).start + (s.vmr id).size < 2 ^ 64 ∧
      ((s.vmr id).start = va → addU64 va (s.vmr id).size = va + (s.vmr id).size) := by
  obtain ⟨member, covers⟩ := covers_of_find ok found
  have bounded := ok.bounded id member
  exact ⟨member, covers, size_pos_of_find found, bounded, fun start => Nat.mod_eq_of_lt (by omega)⟩

theorem Unmaps.regionsExact_iff (unmaps : Unmaps s va len s') : RegionsOk s.vmrList s.vmr →
    (RegionsExact s s' va len ↔ WholeRegions s.vmrList s.vmr va len) := by
  induction unmaps with
  | done s va =>
    intro _
    refine ⟨fun _ => ⟨?_, ?_⟩, fun _ => ⟨fun a after before => ?_, fun _ _ _ same => same⟩⟩
    · exact fun _ _ meets => absurd rfl meets.2.1
    · exact fun _ _ meets => absurd rfl meets.2.1
    · omega
  | nothing s va len gap =>
    intro ok
    rw [wholeRegions_of_gap ok gap]
    constructor
    · intro exact id member meets
      have first := exact.uncovered (max va (s.vmr id).start)
      unfold Vmregion.Meets at meets
      refine first (by omega) (by omega) id member ?_
      unfold Vmregion.Covers
      omega
    · intro none
      refine ⟨?_, fun _ _ _ same => same⟩
      intro a after before id member covers
      apply none id member
      unfold Vmregion.Meets
      unfold Vmregion.Covers at covers
      omega
  | shrink s va len id found part pos _ =>
    intro ok
    obtain ⟨member, covers⟩ := covers_of_find ok found
    refine iff_of_false (not_regionsExact_shrink ok found part pos) ?_
    intro whole
    unfold Vmregion.Covers at covers
    have inside := whole.inside id member (by unfold Vmregion.Meets; omega)
    omega
  | whole s va len id s' found small pos rest ih =>
    intro ok
    obtain ⟨member, covers, size, bounded, next⟩ := region_of_find ok found
    by_cases start : (s.vmr id).start = va
    · rw [next start] at ih rest
      rw [wholeRegions_erase ok member start small size,
        regionsExact_erase ok member start small len (rest.covered (ok.erase id))]
      exact ih (ok.erase id)
    refine iff_of_false ?_ ?_
    · -- the first address of the region loses its backing
      intro exact
      have first : (s.vmr id).Covers (s.vmr id).start := by unfold Vmregion.Covers; omega
      have after := exact.kept _ (by omega) _ (backing_of_covers ok member first)
      unfold backing at after
      rw [map_eq_some_iff] at after
      obtain ⟨id', found', _⟩ := after
      have ok' := rest.regionsOk (ok.erase id)
      obtain ⟨i, left, covers'⟩ := rest.covered (ok.erase id) _ ⟨id', covers_of_find ok' found'⟩
      obtain ⟨differ, old⟩ := ok.nodup.mem_erase_iff.mp left
      exact (apart_iff _ _).mp (ok.apart i old id member differ) _ ⟨covers', first⟩
    · intro whole
      have inside := whole.inside id member (by unfold Vmregion.Meets; omega)
      omega

end Regions

/-! ## The page table -/

section Pages
variable {s s' : Vmspace} {va len : Nat}

/-- The pages `unmap_vmrs` clears: those reached from the start of a region in the range. -/
theorem Unmaps.pages (unmaps : Unmaps s va len s') : RegionsOk s.vmrList s.vmr →
    WfTable s.pt.mem s.pgtbl → NoBlocks s.pt.mem s.pgtbl → WholeRegions s.vmrList s.vmr va len →
    (va + len) % pageSize = 0 →
    s'.pgtbl = s.pgtbl ∧ Changed clearPte s.pgtbl s.pt.mem s'.pt.mem (fun p =>
      ∃ id ∈ s.vmrList, (s.vmr id).Meets va len ∧
        Reached s.pt.mem s.pgtbl (roundDown (s.vmr id).start) (va + len) p) := by
  induction unmaps with
  | done s va =>
    intro _ wf _ _ _
    refine ⟨rfl, Changed.unreached wf ?_⟩
    rintro p ⟨id, _, meets, _⟩
    exact meets.2.1 rfl
  | nothing s va len gap =>
    intro ok wf _ whole _
    refine ⟨rfl, Changed.unreached wf ?_⟩
    rintro p ⟨id, member, meets, _⟩
    exact (wholeRegions_of_gap ok gap).mp whole id member meets
  | shrink s va len id found part pos anonym =>
    intro ok _ _ whole _
    have exact := (Unmaps.shrink s va len id found part pos anonym).regionsExact_iff ok
    exact absurd (exact.mpr whole) (not_regionsExact_shrink ok found part pos)
  | whole s va len id s' found small pos rest ih =>
    intro ok wf flat whole stop
    obtain ⟨member, covers, size, bounded, next⟩ := region_of_find ok found
    have meets : (s.vmr id).Meets va len := by unfold Vmregion.Meets; omega
    have start : (s.vmr id).start = va := by
      have inside := whole.inside id member meets
      omega
    have first : Changed clearPte s.pgtbl s.pt.mem (unmapRangeInPgtbl s.pt.mem s.pgtbl va len)
        (Reached s.pt.mem s.pgtbl (roundDown va) (va + len)) :=
      changeRange_floor clearPte_idem wf flat (by omega) stop
    have same : va + (s.vmr id).size + (len - (s.vmr id).size) = va + len := by omega
    rw [next start, same] at ih
    obtain ⟨root, others⟩ := ih (ok.erase id) first.wf (first.noBlocks flat)
      ((wholeRegions_erase ok member start small size).mp whole) stop
    refine ⟨root, (first.trans clearPte_idem others).congr ?_⟩
    intro p
    have behind := meets_erase ok member start small
    constructor
    · rintro (here | ⟨id', left, met, reached⟩)
      · refine ⟨id, member, meets, ?_⟩
        rw [start]
        exact here
      · obtain ⟨_, old, met⟩ := (behind id').mp ⟨left, met⟩
        exact ⟨id', old, met, first.reached_iff.mp reached⟩
    · rintro ⟨id', old, met, reached⟩
      by_cases same : id' = id
      · subst same
        rw [start] at reached
        exact Or.inl reached
      · obtain ⟨left, met⟩ := (behind id').mpr ⟨same, old, met⟩
        exact Or.inr ⟨id', left, met, first.reached_iff.mpr reached⟩

theorem exists_unmaps : ∀ (len : Nat) (s : Vmspace) (va : Nat), RegionsOk s.vmrList s.vmr →
    WholeRegions s.vmrList s.vmr va len → ∃ s', Unmaps s va len s' := by
  intro len
  induction len using Nat.strong_induction_on with
  | _ len ih =>
    intro s va ok whole
    cases found : findVmrForVa s va with
    | none => exact ⟨s, .nothing s va len found⟩
    | some id =>
      by_cases zero : len = 0
      · subst zero
        exact ⟨s, .done s va⟩
      obtain ⟨member, covers, size, bounded, next⟩ := region_of_find ok found
      have inside := whole.inside id member (by unfold Vmregion.Meets; omega)
      have start : (s.vmr id).start = va := by omega
      have small : (s.vmr id).size ≤ len := by omega
      obtain ⟨s', rest⟩ := ih (len - (s.vmr id).size) (by omega)
        (delVmrFromVmspace (unmapPages s va len) id) (va + (s.vmr id).size) (ok.erase id)
        ((wholeRegions_erase ok member start small size).mp whole)
      exact ⟨s', .whole s va len id s' found small zero (next start ▸ rest)⟩

end Pages

/-- `munmap` returns and is exact if and only if the regions it meets lie inside the range
without a gap before them and no mapped page of the range is jumped over. -/
theorem munmap_exact_iff (s : Vmspace) (addr len : Nat) (ok : RegionsOk s.vmrList s.vmr)
    (wf : WfTable s.pt.mem s.pgtbl) (flat : NoBlocks s.pt.mem s.pgtbl)
    (addrAligned : addr % pageSize = 0) (lenAligned : len % pageSize = 0) :
    MunmapExact s addr len ↔ WholeRegions s.vmrList s.vmr addr len ∧ PagesBehind s addr len := by
  have stop : (addr + len) % pageSize = 0 := by rw [Nat.add_mod, addrAligned, lenAligned]; rfl
  have call : sysHandleMunmap s addr len = unmapVmrs len s addr len := by
    simp [sysHandleMunmap, vmspaceMunmapWithAddr, addrAligned, lenAligned]
  unfold MunmapExact
  rw [call]
  constructor
  · rintro ⟨s', run, regions, unmapped⟩
    have unmaps := unmaps_of_run len s addr len run
    have whole := (unmaps.regionsExact_iff ok).mp regions
    obtain ⟨root, changed⟩ := unmaps.pages ok wf flat whole stop
    refine ⟨whole, ?_⟩
    intro x after before mapped
    have gone := unmapped x after before
    rw [root] at gone
    by_contra missed
    rw [changed.query_miss wf x] at gone
    · exact mapped gone
    · rintro ⟨id, member, meets, reached⟩
      exact missed ⟨id, member, meets, reached.behind (Nat.mul_mod_left _ _) stop⟩
  · rintro ⟨whole, pages⟩
    obtain ⟨s', unmaps⟩ := exists_unmaps len s addr ok whole
    obtain ⟨root, changed⟩ := unmaps.pages ok wf flat whole stop
    refine ⟨s', run_of_unmaps unmaps len (le_refl len), (unmaps.regionsExact_iff ok).mpr whole, ?_⟩
    intro x after before
    rw [root]
    by_cases mapped : queryInPgtbl s.pt.mem s.pgtbl x = none
    · by_cases reached : ∃ id ∈ s.vmrList, (s.vmr id).Meets addr len ∧
          Reached s.pt.mem s.pgtbl (roundDown (s.vmr id).start) (addr + len) (pageNo x)
      · exact changed.query_cleared flat reached
      · rw [changed.query_miss wf x reached]
        exact mapped
    · obtain ⟨id, member, meets, behind⟩ := pages x after before mapped
      exact changed.query_cleared flat ⟨id, member, meets, reached_of_behind wf flat mapped behind⟩

def twoPages : Vmspace :=
  { vmspaceInit (fun _ => ⟨mmapStart, 8192, 3, 1⟩) (fun _ => ⟨.anonym, 0, 8192⟩) 1 emptyTables with
    vmrList := [10] }

theorem twoPages_ok : RegionsOk twoPages.vmrList twoPages.vmr := by
  refine ⟨nodup_singleton 10, ?_, ?_⟩
  · intro id _
    exact show mmapStart + 8192 < 2 ^ 64 by decide
  · intro id member id' member' differ
    exact absurd ((mem_singleton.mp member).trans (mem_singleton.mp member').symm) differ

def twoMapped : Vmspace :=
  { twoPages with
    pt := (mapRangeInPgtbl emptyTables 1 mmapStart 0x40000000 8192 2).get (by decide +kernel) }

theorem twoMapped_wf : WfState twoMapped.pt 1 ∧ NoBlocks twoMapped.pt.mem 1 := by
  have returns : mapRangeInPgtbl emptyTables 1 mmapStart 0x40000000 8192 2 = some twoMapped.pt := by
    rw [twoMapped, Option.some_get]
  exact wf_of_map_empty (by decide) (by decide) (by decide) returns

theorem munmap_exact_two_pages : MunmapExact twoMapped mmapStart 8192 := by
  refine (munmap_exact_iff twoMapped mmapStart 8192 twoPages_ok twoMapped_wf.1.toWfTable
    twoMapped_wf.2 (by decide) (by decide)).mpr ⟨⟨?_, ?_⟩, ?_⟩
  · intro id _ _
    exact ⟨le_refl _, le_refl _⟩
  · intro id _ _ a after before
    exact absurd before (Nat.not_lt.mpr after)
  · -- both pages lie in the 2 MB region in which the running address starts
    intro x after before _
    refine ⟨10, mem_singleton_self 10, by unfold Vmregion.Meets; decide, mmapStart, x,
      Running.start, after, before, rfl, ?_⟩
    simp only [mmapStart] at after before ⊢
    omega

/-- When the first page is unmapped the second one is moved to the front of the pmo. -/
theorem munmap_moves_offsets :
    RegionsOk twoPages.vmrList twoPages.vmr ∧ WfTable twoPages.pt.mem twoPages.pgtbl ∧
      NoBlocks twoPages.pt.mem twoPages.pgtbl ∧ (sysHandleMunmap twoPages mmapStart 4096).isSome ∧
      ¬ MunmapExact twoPages mmapStart 4096 := by
  refine ⟨twoPages_ok, emptyTables_wf.toWfTable, emptyTables_noBlocks, by decide +kernel, ?_⟩
  rintro ⟨s', run, regions, _⟩
  have before : backing twoPages (mmapStart + 4096) = some ⟨3, 1, 4096⟩ := by decide +kernel
  have after : (sysHandleMunmap twoPages mmapStart 4096).bind (backing · (mmapStart + 4096)) =
      some ⟨3, 1, 0⟩ := by decide +kernel
  have kept := regions.kept (mmapStart + 4096) (by omega) _ before
  rw [run, bind_some, kept] at after
  cases after

end KernelLabs.ChCore
