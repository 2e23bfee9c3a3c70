import KernelLabs.Lib.Runs
import KernelLabs.ChCore.Mm.VmRegion
import Mathlib.Data.List.Nodup

/-!
# Regions over whole runs

`add_vmr_to_vmspace` compares a new region with those on the list, but `brk` enlarges the
heap region in place without looking, and every `brk(0)` makes one more heap region at
`HEAP_START`.  The comparison itself leaves two cases out: a region that runs past the end
of the address space, and one whose last byte is the first byte of a region on the list.
In every run without these the regions stay disjoint.
-/

set_option autoImplicit false

namespace KernelLabs.ChCore

open Lib Function List Option

def Vmregion.Covers (r : Vmregion) (a : Nat) : Prop := r.start ≤ a ∧ a < r.start + r.size

def Vmregion.Apart (r r' : Vmregion) : Prop :=
  r.size = 0 ∨ r'.size = 0 ∨ r.start + r.size ≤ r'.start ∨ r'.start + r'.size ≤ r.start

instance decidableCovers (r : Vmregion) (a : Nat) : Decidable (r.Covers a) :=
  inferInstanceAs (Decidable (_ ∧ _))

instance decidableApart : DecidableRel Vmregion.Apart :=
  fun _ _ => inferInstanceAs (Decidable (_ ∨ _))

theorem Vmregion.Apart.symm {r r' : Vmregion} (apart : r.Apart r') : r'.Apart r := by
  unfold Vmregion.Apart at *
  omega

theorem Vmregion.apart_iff (r r' : Vmregion) : r.Apart r' ↔ ∀ a, ¬ (r.Covers a ∧ r'.Covers a) := by
  unfold Vmregion.Apart Vmregion.Covers
  constructor
  · intro apart a both
    omega
  · intro never
    have left := never r.start
    have right := never r'.start
    omega

/-- The regions on a list: each at its own place and ending inside the address space, no two
with an address in common. -/
structure RegionsOk (list : List Nat) (vmr : Nat → Vmregion) : Prop where
  nodup : list.Nodup
  bounded : ∀ id ∈ list, (vmr id).start + (vmr id).size < 2 ^ 64
  apart : ∀ id ∈ list, ∀ id' ∈ list, id ≠ id' → (vmr id).Apart (vmr id')

section Changes
variable {list : List Nat} {vmr : Nat → Vmregion}

section
variable (ok : RegionsOk list vmr)
include ok

theorem RegionsOk.pairwise : (list.map vmr).Pairwise Vmregion.Apart := by
  rw [pairwise_map]
  exact ok.nodup.pairwise_of_forall_ne ok.apart

theorem RegionsOk.erase (id : Nat) : RegionsOk (list.erase id) vmr where
  nodup := ok.nodup.erase id
  bounded := fun i member => ok.bounded i (mem_of_mem_erase member)
  apart := fun i member j member' =>
    ok.apart i (mem_of_mem_erase member) j (mem_of_mem_erase member')

theorem RegionsOk.replace (id : Nat) (r : Vmregion)
    (bounded : id ∈ list → r.start + r.size < 2 ^ 64)
    (apart : id ∈ list → ∀ i ∈ list, i ≠ id → (vmr i).Apart r) :
    RegionsOk list (update vmr id r) := by
  refine ⟨ok.nodup, ?_, ?_⟩
  · intro i member
    by_cases same : i = id
    · subst same
      simpa using bounded member
    · rw [update_of_ne same]
      exact ok.bounded i member
  intro i member j member' differ
  by_cases same : i = id
  · subst same
    rw [update_self, update_of_ne differ.symm]
    exact (apart member j member' differ.symm).symm
  by_cases same' : j = id
  · subst same'
    rw [update_self, update_of_ne differ]
    exact apart member' i member differ
  · rw [update_of_ne same, update_of_ne same']
    exact ok.apart i member j member' differ

theorem RegionsOk.insert (id : Nat) (r : Vmregion) (fresh : id ∉ list)
    (bounded : r.start + r.size < 2 ^ 64) (apart : ∀ i ∈ list, (vmr i).Apart r) :
    RegionsOk (id :: list) (update vmr id r) := by
  have old := ok.replace id r (fun _ => bounded) (fun _ i member _ => apart i member)
  have kept : ∀ i ∈ list, update vmr id r i = vmr i := by
    intro i member
    apply update_of_ne
    rintro rfl
    exact fresh member
  refine ⟨nodup_cons.mpr ⟨fresh, ok.nodup⟩, ?_, ?_⟩
  · intro i member
    rcases mem_cons.mp member with rfl | member
    · simpa using bounded
    · exact old.bounded i member
  intro i member j member' differ
  rcases mem_cons.mp member with rfl | older
  · rcases mem_cons.mp member' with rfl | older'
    · exact absurd rfl differ
    · rw [update_self, kept j older']
      exact (apart j older').symm
  · rcases mem_cons.mp member' with rfl | older'
    · rw [update_self, kept i older]
      exact apart i older
    · exact old.apart i older j older' differ

end

end Changes

/-! ## The functions of the source -/

structure VmspaceOk (s : Vmspace) : Prop where
  regions : RegionsOk s.vmrList s.vmr
  heapBounded : s.userCurrentHeap < 2 ^ 64

/-- A new region that ends inside the address space and whose last byte is not the first
byte of another. -/
def Fits (s : Vmspace) (start size : Nat) : Prop :=
  start + size < 2 ^ 64 ∧ (size ≠ 0 → ∀ id ∈ s.vmrList,
    (s.vmr id).size ≠ 0 → (s.vmr id).start + 1 ≠ start + size)

instance decidableFits (s : Vmspace) (start size : Nat) : Decidable (Fits s start size) :=
  inferInstanceAs (Decidable (_ ∧ _))

theorem stop_eq {r : Vmregion} (bounded : r.start + r.size < 2 ^ 64) :
    r.stop = r.start + r.size := Nat.mod_eq_of_lt bounded

section Functions
variable {s s' : Vmspace} {mem : Option Nat} {new : Vmregion}

/-- `check_vmr_intersect` is right for a region that fits. -/
theorem apart_of_check (ok : RegionsOk s.vmrList s.vmr) (fits : Fits s new.start new.size)
    (passed : checkVmrIntersect s new = false) (id : Nat) (member : id ∈ s.vmrList) :
    (s.vmr id).Apart new := by
  obtain ⟨bounded, lastByte⟩ := fits
  unfold Vmregion.Apart
  by_cases empty : new.size = 0
  · omega
  have mine := lastByte empty id member
  rw [checkVmrIntersect, if_neg empty, List.any_eq_false] at passed
  have here := passed (s.vmr id) (List.mem_map_of_mem member)
  have newStop : addU64 new.stop (2 ^ 64 - 1) = new.start + new.size - 1 := by
    rw [stop_eq bounded, addU64]
    omega
  rw [stop_eq (ok.bounded id member), newStop] at here
  simp only [Bool.not_eq_true', Bool.or_eq_false_iff, decide_eq_false_iff_not, not_and_or,
    not_not] at here
  omega

theorem keep_addVmrToVmspace (ok : VmspaceOk s) {id : Nat} (fresh : id ∉ s.vmrList)
    (fits : Fits s new.start new.size) (run : addVmrToVmspace s id new = some s') :
    VmspaceOk s' := by
  obtain ⟨passed, rfl⟩ := addVmrToVmspace_eq run
  exact ⟨ok.regions.insert id new fresh fits.1 (apart_of_check ok.regions fits passed),
    ok.heapBounded⟩

theorem keep_vmspaceMapRange (ok : VmspaceOk s) {va len flags pmo : Nat}
    (fresh : ∀ id, mem = some id → id ∉ s.vmrList)
    (fits : Fits s (roundDown va) (if len < pageSize then pageSize else len))
    (run : vmspaceMapRange s va len flags pmo mem = some s') : VmspaceOk s' := by
  rcases vmspaceMapRange_cases run with ⟨_, rfl⟩ | ⟨id, s1, found, _, added, rest⟩
  · exact ok
  have kept := keep_addVmrToVmspace ok (fresh id found) fits added
  rcases rest with ⟨_, filled⟩ | ⟨_, rfl⟩
  · -- filling the page table leaves the regions alone
    unfold fillPageTable at filled
    obtain ⟨pt, _, rfl⟩ := map_eq_some_iff.mp filled
    exact ⟨kept.regions, kept.heapBounded⟩
  · exact kept

theorem keep_vmspaceMmapWithPmo (ok : VmspaceOk s) {pmo len perm : Nat}
    (fresh : ∀ id, mem = some id → id ∉ s.vmrList) (fits : Fits s s.userCurrentMmapAddr len)
    (run : vmspaceMmapWithPmo s pmo len perm mem = some s') : VmspaceOk s' := by
  rcases vmspaceMmapWithPmo_cases run with rfl | ⟨id, found, _, _, added⟩
  · exact ok
  · have moved : VmspaceOk { s with userCurrentMmapAddr := addU64 s.userCurrentMmapAddr len } :=
      ⟨ok.regions, ok.heapBounded⟩
    refine keep_addVmrToVmspace moved (fresh id found) ?_ added
    exact fits

theorem keep_initHeapVmr (ok : VmspaceOk s) {va pmo : Nat} (vaBound : va < 2 ^ 64)
    (fresh : ∀ id, mem = some id → id ∉ s.vmrList) (run : initHeapVmr s va pmo mem = some s') :
    VmspaceOk s' := by
  rcases initHeapVmr_cases run with rfl | ⟨id, s1, found, added, rfl⟩
  · exact ⟨ok.regions, ok.heapBounded⟩
  · have kept : VmspaceOk s1 := by
      refine keep_addVmrToVmspace ok (fresh id found) ?_ added
      exact ⟨vaBound, fun nonempty => absurd rfl nonempty⟩
    exact ⟨kept.regions, kept.heapBounded⟩

def grownHeap (s : Vmspace) (h addr : Nat) : Vmregion :=
  { s.vmr h with size := addr - (s.vmr h).start }

theorem keep_sysHandleBrk (ok : VmspaceOk s) {addr : Nat} {pmo : Option Nat}
    (fresh : ∀ id, mem = some id → id ∉ s.vmrList) (addrBound : addr < 2 ^ 64)
    (room : addr ≠ 0 → ∀ h ∈ s.heapVmr, h ∈ s.vmrList → ∀ id ∈ s.vmrList, id ≠ h →
      (s.vmr id).Apart (grownHeap s h addr)) (run : sysHandleBrk s addr pmo mem = some s') :
    VmspaceOk s' := by
  rcases sysHandleBrk_cases run with ⟨p, begun⟩ | ⟨grow, h, heap, above, pmos, rfl⟩
  · have made : VmspaceOk (newAnonymPmo s p 0) := ⟨ok.regions, ok.heapBounded⟩
    exact keep_initHeapVmr made ok.heapBounded fresh begun
  refine ⟨?_, ok.heapBounded⟩
  have grown : h ∈ s.vmrList →
      addU64 (s.vmr h).size (addr - (s.vmr h).stop) = addr - (s.vmr h).start := by
    intro member
    have bounded := ok.regions.bounded h member
    rw [stop_eq bounded] at above ⊢
    rw [addU64]
    omega
  apply ok.regions.replace h
  · intro member
    have bounded := ok.regions.bounded h member
    rw [stop_eq bounded] at above
    simp only [grown member]
    omega
  · intro member
    rw [grown member]
    exact room grow h heap member

theorem covers_of_find (ok : RegionsOk s.vmrList s.vmr) {a id : Nat}
    (found : findVmrForVa s a = some id) : id ∈ s.vmrList ∧ (s.vmr id).Covers a := by
  have member := mem_of_find?_eq_some found
  have test := find?_some found
  rw [stop_eq (ok.bounded id member)] at test
  simp only [Bool.and_eq_true, decide_eq_true_eq] at test
  exact ⟨member, test⟩

theorem RegionsOk.shrink (ok : RegionsOk s.vmrList s.vmr) {id len : Nat} (member : id ∈ s.vmrList)
    (part : len < (s.vmr id).size) : RegionsOk s.vmrList (update s.vmr id { s.vmr id with
      start := addU64 (s.vmr id).start len, size := (s.vmr id).size - len }) := by
  have bounded := ok.bounded id member
  have moved : addU64 (s.vmr id).start len = (s.vmr id).start + len := Nat.mod_eq_of_lt (by omega)
  rw [moved]
  apply ok.replace id
  · intro _
    simp only
    omega
  · intro _ i member' differ
    have apart := ok.apart i member' id member differ
    unfold Vmregion.Apart at apart ⊢
    simp only
    omega

theorem Unmaps.regionsOk {va len : Nat} (unmaps : Unmaps s va len s') :
    RegionsOk s.vmrList s.vmr → RegionsOk s'.vmrList s'.vmr := by
  induction unmaps with
  | done | nothing => exact id
  | shrink s va len id found part _ _ =>
    intro ok
    exact ok.shrink (covers_of_find ok found).1 part
  | whole s va len id s' _ _ _ _ ih =>
    intro ok
    exact ih (ok.erase id)

theorem Unmaps.userCurrentHeap {va len : Nat} (unmaps : Unmaps s va len s') :
    s'.userCurrentHeap = s.userCurrentHeap := by
  induction unmaps with
  | done | nothing | shrink => rfl
  | whole s va len id s' _ _ _ _ ih => exact ih

end Functions

/-! ## Runs -/

/-- `pmo` is the object behind the capability, or the one that is allocated; `mem` is what `kmalloc`
returns for the region. -/
inductive VmCall where
  | mapPmo (pmo : Option Nat) (addr perm : Nat) (mem : Option Nat)
  | mmap (length prot flags : Nat) (fd : Int) (pmo mem : Option Nat)
  | shmat (record : Option ShmRecord) (shmaddr shmflg : Nat) (mem : Option Nat)
  | brk (addr : Nat) (pmo mem : Option Nat)
  | munmap (addr length : Nat)
  deriving DecidableEq, Repr

def vmCall (s : Vmspace) : VmCall → Option Vmspace
  | .mapPmo pmo addr perm mem => sysMapPmo s pmo addr perm mem
  | .mmap length prot flags fd pmo mem => sysHandleMmap s length prot flags fd pmo mem
  | .shmat record shmaddr shmflg mem => sysShmat s record shmaddr shmflg mem
  | .brk addr pmo mem => sysHandleBrk s addr pmo mem
  | .munmap addr length => sysHandleMunmap s addr length

def vmStep (s : Option Vmspace) (call : VmCall) : Option Vmspace := s.bind (vmCall · call)

def VmCall.mem : VmCall → Option Nat
  | .mapPmo _ _ _ mem | .mmap _ _ _ _ _ mem | .shmat _ _ _ mem | .brk _ _ mem => mem
  | .munmap _ _ => none

/-- The memory `kmalloc` returns is not a region in use, and an address is 64-bit. -/
def Possible (s : Vmspace) (call : VmCall) : Prop :=
  (∀ id ∈ call.mem, id ∉ s.vmrList) ∧
    match call with
    | .brk addr _ _ => addr < 2 ^ 64
    | _ => True

def mapLength (len : Nat) : Nat := if len < pageSize then pageSize else len

def mmapLength (length : Nat) : Nat :=
  if length % pageSize ≠ 0 then roundUp length else length

/-- What the code leaves unchecked: that a new region fits, and that the heap grows into
free addresses. -/
def RoomForCall (s : Vmspace) : VmCall → Prop
  | .mapPmo pmo addr _ _ => ∀ p ∈ pmo, Fits s (roundDown addr) (mapLength (s.pmo p).size)
  | .mmap length _ _ _ _ _ => Fits s s.userCurrentMmapAddr (mmapLength length)
  | .shmat record _ _ _ => ∀ r ∈ record, Fits s s.userCurrentMmapAddr r.size
  | .brk addr _ _ => addr ≠ 0 → ∀ h ∈ s.heapVmr, h ∈ s.vmrList → ∀ id ∈ s.vmrList, id ≠ h →
      (s.vmr id).Apart (grownHeap s h addr)
  | .munmap _ _ => True

instance decidablePossible (s : Vmspace) : ∀ call, Decidable (Possible s call) := by
  rintro ⟨⟩ <;> dsimp only [Possible] <;> infer_instance

instance decidableRoomForCall (s : Vmspace) : ∀ call, Decidable (RoomForCall s call) := by
  rintro ⟨⟩ <;> dsimp only [RoomForCall] <;> infer_instance

theorem keep_vmCall {s s' : Vmspace} (ok : VmspaceOk s) {call : VmCall} (possible : Possible s call)
    (room : RoomForCall s call) (run : vmCall s call = some s') : VmspaceOk s' := by
  obtain ⟨fresh, address⟩ := possible
  cases call with
  | mapPmo pmo addr perm mem =>
    cases pmo with
    | none => cases run; exact ok
    | some p => exact keep_vmspaceMapRange ok fresh (room p rfl) run
  | mmap length prot flags fd pmo mem =>
    rcases sysHandleMmap_cases run with rfl | ⟨p, len, _, rfl, _, _, _, mapped⟩
    · exact ok
    · have made : VmspaceOk (newAnonymPmo s p (mmapLength length)) := ⟨ok.regions, ok.heapBounded⟩
      exact keep_vmspaceMmapWithPmo made fresh room mapped
  | shmat record shmaddr shmflg mem =>
    rcases sysShmat_cases run with rfl | ⟨r, perm, named, _, _, mapped⟩
    · exact ok
    · exact keep_vmspaceMmapWithPmo ok fresh (room r named) mapped
  | brk addr pmo mem => exact keep_sysHandleBrk ok fresh address room run
  | munmap addr length =>
    simp only [vmCall, sysHandleMunmap] at run
    split at run
    · cases run
      exact ok
    · have unmaps := unmaps_of_run length s addr length run
      exact ⟨unmaps.regionsOk ok.regions, unmaps.userCurrentHeap ▸ ok.heapBounded⟩

def Before (cond : Vmspace → VmCall → Prop) (s : Option Vmspace) (call : VmCall) : Prop :=
  ∀ t ∈ s, cond t call

instance decidableBefore (cond : Vmspace → VmCall → Prop) [∀ s call, Decidable (cond s call)]
    (s : Option Vmspace) (call : VmCall) : Decidable (Before cond s call) :=
  inferInstanceAs (Decidable (∀ t ∈ s, cond t call))

theorem keep_vmStep (s : Option Vmspace) (call : VmCall) (ok : ∀ t ∈ s, VmspaceOk t)
    (meets : Before Possible s call ∧ Before RoomForCall s call) :
    ∀ t ∈ vmStep s call, VmspaceOk t := by
  intro t after
  obtain ⟨s, rfl, run⟩ := bind_eq_some_iff.mp after
  exact keep_vmCall (ok s rfl) (meets.1 s rfl) (meets.2 s rfl) run

/-- In every run in which new regions fit and the heap grows into free addresses, the regions
are disjoint in every state. -/
theorem regions_disjoint_of_room (vmr : Nat → Vmregion) (pmo : Nat → Pmobject) (pgtbl : Nat)
    (pt : PtState) (calls : List VmCall)
    (possible : RunMeets vmStep (Before Possible) (some (vmspaceInit vmr pmo pgtbl pt)) calls)
    (room : RunMeets vmStep (Before RoomForCall) (some (vmspaceInit vmr pmo pgtbl pt)) calls) :
    ∀ s ∈ calls.foldl vmStep (some (vmspaceInit vmr pmo pgtbl pt)),
      s.regions.Pairwise Vmregion.Apart := by
  intro s final
  have kept : ∀ t ∈ calls.foldl vmStep (some (vmspaceInit vmr pmo pgtbl pt)), VmspaceOk t := by
    apply run_invariant vmStep _ (fun s => ∀ t ∈ s, VmspaceOk t) keep_vmStep calls _ ?_
      (possible.and room)
    intro t started
    cases started
    have empty : RegionsOk [] vmr := ⟨nodup_nil, by simp, by simp⟩
    exact ⟨empty, show heapStart < 2 ^ 64 by decide⟩
  exact (kept s final).regions.pairwise

/-- The heap is made and grown, two pages are mapped and the first one is unmapped. -/
theorem regions_disjoint_brk_mmap_munmap :
    let start := vmspaceInit (fun _ => ⟨0, 0, 0, 0⟩) (fun _ => ⟨.anonym, 0, 0⟩) 1
      ⟨fun _ _ => invalidPte, []⟩
    let calls := [.brk 0 (some 1) (some 10), .brk (heapStart + 4096) none none,
      .mmap 8000 3 mapAnonymousPrivate (-1) (some 2) (some 11), .munmap mmapStart 4096]
    ∃ s ∈ calls.foldl vmStep (some start), s.regions = [⟨mmapStart + 4096, 4096, 3, 2⟩,
      ⟨heapStart, 4096, 3, 1⟩] ∧ s.regions.Pairwise Vmregion.Apart := by
  intro start calls
  obtain ⟨s, final⟩ : ∃ s, calls.foldl vmStep (some start) = some s :=
    isSome_iff_exists.mp (by decide +kernel)
  refine ⟨s, final, ?_, regions_disjoint_of_room _ _ _ _ calls (by decide +kernel)
    (by decide +kernel) s final⟩
  have regions : (calls.foldl vmStep (some start)).map Vmspace.regions =
      some [⟨mmapStart + 4096, 4096, 3, 2⟩, ⟨heapStart, 4096, 3, 1⟩] := by decide +kernel
  simpa [final] using regions

/-- A second `brk(0)` makes a second heap region, which then grows over the first. -/
theorem heap_regions_overlap :
    let start := vmspaceInit (fun _ => ⟨0, 0, 0, 0⟩) (fun _ => ⟨.anonym, 0, 0⟩) 1
      ⟨fun _ _ => invalidPte, []⟩
    let calls := [.brk 0 (some 1) (some 10), .brk (heapStart + 4096) none none,
      .brk 0 (some 2) (some 11), .brk (heapStart + 4096) none none]
    RunMeets vmStep (Before Possible) (some start) calls ∧
      ∃ s ∈ calls.foldl vmStep (some start), ¬ s.regions.Pairwise Vmregion.Apart := by
  intro start calls
  refine ⟨by decide +kernel, ?_⟩
  obtain ⟨s, final⟩ : ∃ s, calls.foldl vmStep (some start) = some s :=
    isSome_iff_exists.mp (by decide +kernel)
  refine ⟨s, final, ?_⟩
  have regions : (calls.foldl vmStep (some start)).map Vmspace.regions =
      some [⟨heapStart, 4096, 3, 2⟩, ⟨heapStart, 4096, 3, 1⟩] := by decide +kernel
  rw [final, map_some, some_inj] at regions
  rw [regions]
  decide

end KernelLabs.ChCore
