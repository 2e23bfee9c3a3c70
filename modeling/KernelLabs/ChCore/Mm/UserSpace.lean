import Mathlib
import KernelLabs.ChCore.Mm.VmRegionRuns

/-!
# User mappings and the kernel's addresses

None of the calls that make or enlarge a region compares its end with `KBASE`, where the
kernel's part of the address space begins.  In every run in which the regions that are asked
for end at `KBASE` or below, all regions do, and so do all pages that `map_range_in_pgtbl` is
called for.
-/

set_option autoImplicit false

namespace KernelLabs.ChCore

open Lib Function List

def kbase : Nat := 0xFFFFFF0000000000

/-- `sys_handle_fmap` for the pmo behind `translated_aarray_cap`; the address hint and the offset are
not read, and other flags than `MAP_SHARED` are only warned about. -/
def sysHandleFmap (s : Vmspace) (length prot flags : Nat) (translatedAarrayCap : Int)
    (pmo mem : Option Nat) : Option Vmspace :=
  if translatedAarrayCap = 0 then some s
  else if 8 ≤ prot then some s
  -- MAP_ANONYMOUS
  else if flags.testBit 5 then some s
  else if length % pageSize ≠ 0 then some s
  else
    match pmo with
    | none => none
    | some pmo => vmspaceMmapWithPmo s pmo length (getVmrProt prot) mem

inductive UserCall where
  | vm (call : VmCall)
  | fmap (length prot flags : Nat) (translatedAarrayCap : Int) (pmo mem : Option Nat)
  deriving DecidableEq, Repr

def userCall (s : Vmspace) : UserCall → Option Vmspace
  | .vm call => vmCall s call
  | .fmap length prot flags cap pmo mem => sysHandleFmap s length prot flags cap pmo mem

/-- The address and length `map_range_in_pgtbl` is called with, if the call gets there. -/
def mapArgs (s : Vmspace) : UserCall → Option (Nat × Nat)
  | .vm (.mapPmo (some p) addr perm (some _)) =>
    if (s.pmo p).type ∈ [.data, .device] ∧
        checkVmrIntersect s (mapRegion s addr (s.pmo p).size perm p) = false then
      some (roundDown addr, (s.pmo p).size)
    else none
  | _ => none

/-- These are the arguments: the call leaves the page table that `map_range_in_pgtbl` returns. -/
theorem userCall_maps {s : Vmspace} {call : UserCall} {va len : Nat}
    (args : mapArgs s call = some (va, len)) : ∃ pa perm,
      (userCall s call).map Vmspace.pt = mapRangeInPgtbl s.pt s.pgtbl va pa len perm := by
  unfold mapArgs at args
  split at args
  · rename_i p addr perm id
    obtain ⟨⟨type, apart⟩, same⟩ := Option.ite_none_right_eq_some.mp args
    cases same
    refine ⟨(s.pmo p).start, (mapRegion s addr (s.pmo p).size perm p).perm, ?_⟩
    have known : (s.pmo p).type ∈ [.data, .anonym, .device, .shm] := by
      simp only [mem_cons, not_mem_nil, or_false] at type ⊢
      tauto
    simp only [userCall, vmCall, sysMapPmo, vmspaceMapRange, if_pos known, addVmrToVmspace, apart,
      Bool.false_eq_true, if_false, if_pos type, fillPageTable, Option.map_map]
    exact Option.map_id' ..
  · cases args

def pagesOf (va len : Nat) : List Nat :=
  (range (pageCount len)).map fun i => addU64 va (i * pageSize)

structure UserSys where
  vm : Option Vmspace
  installed : List Nat

def userStep (s : UserSys) (call : UserCall) : UserSys :=
  { vm := s.vm.bind (userCall · call)
    installed := s.installed ++ ((s.vm.bind (mapArgs · call)).elim [] fun a => pagesOf a.1 a.2) }

def startUser (vmr : Nat → Vmregion) (pmo : Nat → Pmobject) (pgtbl : Nat) (pt : PtState) :
    UserSys :=
  { vm := some (vmspaceInit vmr pmo pgtbl pt), installed := [] }

def UserCall.mem : UserCall → Option Nat
  | .vm call => call.mem
  | .fmap _ _ _ _ _ mem => mem

def FreshMem (s : UserSys) (call : UserCall) : Prop :=
  ∀ t ∈ s.vm, ∀ id ∈ call.mem, id ∉ t.vmrList

def EndsBelow (s : Vmspace) (start size : Nat) : Prop :=
  checkVmrIntersect s ⟨start, size, 0, 0⟩ = false → start + size ≤ kbase

/-- What the calls leave unchecked, for arguments that make or enlarge a region. -/
def AsksBelow (s : Vmspace) : UserCall → Prop
  | .vm (.mapPmo pmo addr _ mem) => ∀ p ∈ pmo, mem.isSome →
      (s.pmo p).type ∈ [.data, .anonym, .device, .shm] →
      EndsBelow s (roundDown addr) (mapLength (s.pmo p).size)
  | .vm (.mmap length prot flags fd pmo mem) => pmo.isSome → mem.isSome → fd = -1 → prot < 8 →
      flags = mapAnonymousPrivate → EndsBelow s s.userCurrentMmapAddr (mmapLength length)
  | .vm (.shmat record shmaddr shmflg mem) => ∀ r ∈ record, mem.isSome →
      ¬ (shmaddr ≠ 0 ∧ shmflg.testBit 13) → shmflg.testBit 14 = false → r.size % pageSize = 0 →
      (s.pmo r.pmo).type ∈ [.anonym, .shm, .file] →
      EndsBelow s s.userCurrentMmapAddr r.size
  | .vm (.brk addr _ _) => addr ≠ 0 → ∀ h ∈ s.heapVmr, h ∈ s.vmrList → (s.vmr h).stop ≤ addr →
      addr ≤ kbase
  | .vm (.munmap _ _) => True
  | .fmap length prot flags cap pmo mem => ∀ p ∈ pmo, mem.isSome → cap ≠ 0 → prot < 8 →
      flags.testBit 5 = false → length % pageSize = 0 →
      (s.pmo p).type ∈ [.anonym, .shm, .file] → EndsBelow s s.userCurrentMmapAddr length

def AsksBelowAt (s : UserSys) (call : UserCall) : Prop := ∀ t ∈ s.vm, AsksBelow t call

instance decidableFreshMem (s : UserSys) (call : UserCall) : Decidable (FreshMem s call) :=
  inferInstanceAs (Decidable (∀ t ∈ s.vm, ∀ id ∈ call.mem, id ∉ t.vmrList))

instance decidableEndsBelow (s : Vmspace) (start size : Nat) :
    Decidable (EndsBelow s start size) :=
  inferInstanceAs (Decidable (_ → _))

instance decidableAsksBelow (s : Vmspace) : ∀ call, Decidable (AsksBelow s call) := by
  rintro (⟨_ | _ | _ | _ | _⟩ | _) <;> dsimp only [AsksBelow] <;> infer_instance

instance decidableAsksBelowAt (s : UserSys) (call : UserCall) : Decidable (AsksBelowAt s call) :=
  inferInstanceAs (Decidable (∀ t ∈ s.vm, AsksBelow t call))

variable {mem pmo : Option Nat} {len : Nat}

theorem sysHandleFmap_cases {s s' : Vmspace} {length prot flags : Nat} {cap : Int}
    (run : sysHandleFmap s length prot flags cap pmo mem = some s') :
    s' = s ∨
      ∃ p, pmo = some p ∧ cap ≠ 0 ∧ prot < 8 ∧ flags.testBit 5 = false ∧ length % pageSize = 0 ∧
        vmspaceMmapWithPmo s p length (getVmrProt prot) mem = some s' := by
  unfold sysHandleFmap at run
  split at run
  · cases run
    exact .inl rfl
  rename_i named
  split at run
  · cases run
    exact .inl rfl
  rename_i prots
  split at run
  · cases run
    exact .inl rfl
  rename_i file
  split at run
  · cases run
    exact .inl rfl
  rename_i whole
  right
  cases pmo with
  | none => cases run
  | some p =>
    exact ⟨p, rfl, named, Nat.not_le.mp prots, Bool.not_eq_true _ ▸ file, not_not.mp whole, run⟩

/-! ## The regions -/

structure BelowKbase (s : Vmspace) : Prop where
  regions : ∀ id ∈ s.vmrList, (s.vmr id).start + (s.vmr id).size ≤ kbase
  heap : s.userCurrentHeap ≤ kbase

variable {call : UserCall}

section Functions
variable {s s' : Vmspace}

section
variable (below : BelowKbase s)
include below

theorem BelowKbase.add {id : Nat} {new : Vmregion} (fresh : id ∉ s.vmrList)
    (ends : EndsBelow s new.start new.size) (run : addVmrToVmspace s id new = some s') :
    BelowKbase s' := by
  obtain ⟨passed, rfl⟩ := addVmrToVmspace_eq run
  refine ⟨?_, below.heap⟩
  intro i member
  rcases mem_cons.mp member with rfl | old
  · simpa using ends passed
  · have other : i ≠ id := fun same => fresh (same ▸ old)
    simp only [update_of_ne other]
    exact below.regions i old

theorem BelowKbase.mmapWithPmo {pmo perm : Nat} (fresh : ∀ id ∈ mem, id ∉ s.vmrList)
    (ends : mem.isSome → len % pageSize = 0 → (s.pmo pmo).type ∈ [.anonym, .shm, .file] →
      EndsBelow s s.userCurrentMmapAddr len)
    (run : vmspaceMmapWithPmo s pmo len perm mem = some s') : BelowKbase s' := by
  rcases vmspaceMmapWithPmo_cases run with rfl | ⟨id, found, whole, type, added⟩
  · exact below
  · have moved : BelowKbase { s with userCurrentMmapAddr := addU64 s.userCurrentMmapAddr len } :=
      ⟨below.regions, below.heap⟩
    apply moved.add (fresh id found) _ added
    exact ends (by rw [found]; rfl) whole type

theorem BelowKbase.mapRange {va flags pmo : Nat} (fresh : ∀ id ∈ mem, id ∉ s.vmrList)
    (ends : mem.isSome → (s.pmo pmo).type ∈ [.data, .anonym, .device, .shm] →
      EndsBelow s (roundDown va) (mapLength len))
    (run : vmspaceMapRange s va len flags pmo mem = some s') : BelowKbase s' := by
  rcases vmspaceMapRange_cases run with ⟨_, rfl⟩ | ⟨id, s1, found, type, added, rest⟩
  · exact below
  have kept := below.add (fresh id found) (ends (by rw [found]; rfl) type) added
  rcases rest with ⟨_, filled⟩ | ⟨_, rfl⟩
  · unfold fillPageTable at filled
    obtain ⟨pt, _, rfl⟩ := Option.map_eq_some_iff.mp filled
    exact ⟨kept.regions, kept.heap⟩
  · exact kept

theorem BelowKbase.brk {addr : Nat} (fresh : ∀ id ∈ mem, id ∉ s.vmrList)
    (ends : addr ≠ 0 → ∀ h ∈ s.heapVmr, h ∈ s.vmrList → (s.vmr h).stop ≤ addr → addr ≤ kbase)
    (run : sysHandleBrk s addr pmo mem = some s') : BelowKbase s' := by
  rcases sysHandleBrk_cases run with ⟨p, begun⟩ | ⟨grow, h, heap, above, pmos, rfl⟩
  · have made : BelowKbase (newAnonymPmo s p 0) := ⟨below.regions, below.heap⟩
    rcases initHeapVmr_cases begun with rfl | ⟨id, s1, found, added, rfl⟩
    · exact ⟨below.regions, below.heap⟩
    · have kept : BelowKbase s1 := by
        apply made.add (fresh id found) _ added
        intro _
        exact below.heap
      exact ⟨kept.regions, kept.heap⟩
  · refine ⟨?_, below.heap⟩
    intro id member
    by_cases same : id = h
    · subst same
      have bound := below.regions id member
      have limit := ends grow id heap member above
      have small : kbase < 2 ^ 64 := by decide
      rw [stop_eq (by omega)] at above ⊢
      simp only [setVmr, update_self, addU64]
      omega
    · simp only [setVmr, update_of_ne same]
      exact below.regions id member

end

theorem Unmaps.belowKbase {va : Nat} (unmaps : Unmaps s va len s') :
    BelowKbase s → BelowKbase s' := by
  induction unmaps with
  | done | nothing => exact id
  | shrink s va len id found part _ _ =>
    intro below
    refine ⟨?_, below.heap⟩
    intro i member
    by_cases same : i = id
    · subst same
      have bound := below.regions i member
      simp only [shrinkVmr, unmapPages, setVmr, update_self, addU64]
      omega
    · simp only [shrinkVmr, unmapPages, setVmr, update_of_ne same]
      exact below.regions i member
  | whole s va len id s' _ _ _ _ ih =>
    intro below
    apply ih
    refine ⟨?_, below.heap⟩
    intro i member
    exact below.regions i (mem_of_mem_erase member)

theorem BelowKbase.userCall (below : BelowKbase s) (fresh : ∀ id ∈ call.mem, id ∉ s.vmrList)
    (asks : AsksBelow s call) (run : ChCore.userCall s call = some s') : BelowKbase s' := by
  cases call with
  | fmap length prot flags cap pmo mem =>
    rcases sysHandleFmap_cases run with rfl | ⟨p, named, cap, prots, file, whole, mapped⟩
    · exact below
    · apply below.mmapWithPmo fresh _ mapped
      intro allocated _ type
      exact asks p named allocated cap prots file whole type
  | vm call =>
    cases call with
    | mapPmo pmo addr perm mem =>
      cases pmo with
      | none => cases run; exact below
      | some p => exact below.mapRange fresh (asks p rfl) run
    | mmap length prot flags fd pmo mem =>
      rcases sysHandleMmap_cases run with rfl | ⟨p, len, made, rfl, fd, prots, flags, mapped⟩
      · exact below
      · have kept : BelowKbase (newAnonymPmo s p (mmapLength length)) := ⟨below.regions, below.heap⟩
        apply kept.mmapWithPmo fresh _ mapped
        intro allocated _ _
        exact asks (by rw [made]; rfl) allocated fd prots flags
    | shmat record shmaddr shmflg mem =>
      rcases sysShmat_cases run with rfl | ⟨r, perm, named, aligned, noRemap, mapped⟩
      · exact below
      · apply below.mmapWithPmo fresh _ mapped
        intro allocated whole type
        exact asks r named allocated aligned noRemap whole type
    | brk addr pmo mem => exact below.brk fresh asks run
    | munmap addr length =>
      simp only [ChCore.userCall, vmCall, sysHandleMunmap] at run
      split at run
      · cases run
        exact below
      · exact (unmaps_of_run length s addr length run).belowKbase below

end Functions

/-! ## The page table -/

section Pages
variable {s : Vmspace}

theorem pagesOf_below {va page : Nat} (aligned : va % pageSize = 0) (ends : va + len ≤ kbase)
    (member : page ∈ pagesOf va len) : page + pageSize ≤ kbase := by
  obtain ⟨i, inRange, rfl⟩ := mem_map.mp member
  have below := mem_range.mp inRange
  have limit : kbase % pageSize = 0 := by decide
  have first : i * pageSize < len := by
    rw [pageCount] at below
    by_cases part : len % pageSize > 0
    · rw [if_pos part] at below
      simp only [pageSize] at *
      omega
    · rw [if_neg part] at below
      simp only [pageSize] at *
      omega
  simp only [pageSize, addU64] at *
  omega

theorem mapArgs_below {va : Nat} (asks : AsksBelow s call)
    (args : mapArgs s call = some (va, len)) : va % pageSize = 0 ∧ va + len ≤ kbase := by
  unfold mapArgs at args
  split at args
  · rename_i p addr perm id
    obtain ⟨early, args⟩ := Option.ite_none_right_eq_some.mp args
    cases args
    have supported : (s.pmo p).type ∈ [.data, .anonym, .device, .shm] := by
      have type := early.1
      simp only [mem_cons, not_mem_nil, or_false] at type ⊢
      rcases type with data | device
      · exact .inl data
      · exact .inr (.inr (.inl device))
    have ends := asks p rfl rfl supported early.2
    constructor
    · exact Nat.mul_mod_left _ _
    · rw [mapLength] at ends
      split at ends <;> omega
  · cases args

end Pages

/-! ## Whole runs -/

structure UserOk (s : UserSys) : Prop where
  regions : ∀ t ∈ s.vm, BelowKbase t
  installed : ∀ page ∈ s.installed, page + pageSize ≤ kbase

theorem userStep_ok (s : UserSys) (call : UserCall) (ok : UserOk s)
    (meets : FreshMem s call ∧ AsksBelowAt s call) : UserOk (userStep s call) := by
  obtain ⟨fresh, asks⟩ := meets
  constructor
  · intro t after
    obtain ⟨u, before, run⟩ := Option.bind_eq_some_iff.mp after
    exact (ok.regions u before).userCall (fresh u before) (asks u before) run
  intro page member
  rcases mem_append.mp member with old | new
  · exact ok.installed page old
  rcases args : s.vm.bind (mapArgs · call) with _ | a
  · rw [args] at new
    cases new
  rw [args] at new
  obtain ⟨u, before, here⟩ := Option.bind_eq_some_iff.mp args
  obtain ⟨aligned, ends⟩ := mapArgs_below (asks u before) here
  exact pagesOf_below aligned ends new

/-- In every run in which the regions that are asked for end at `KBASE` or below, all regions
and all installed pages do. -/
theorem user_mappings_below_kbase (vmr : Nat → Vmregion) (pmo : Nat → Pmobject) (pgtbl : Nat)
    (pt : PtState) (calls : List UserCall)
    (fresh : RunMeets userStep FreshMem (startUser vmr pmo pgtbl pt) calls)
    (asks : RunMeets userStep AsksBelowAt (startUser vmr pmo pgtbl pt) calls) :
    (∀ s ∈ (calls.foldl userStep (startUser vmr pmo pgtbl pt)).vm, ∀ r ∈ s.regions,
      r.start + r.size ≤ kbase) ∧
    ∀ page ∈ (calls.foldl userStep (startUser vmr pmo pgtbl pt)).installed,
      page + pageSize ≤ kbase := by
  have start : UserOk (startUser vmr pmo pgtbl pt) := by
    constructor
    · intro t started
      cases started
      exact ⟨by simp [vmspaceInit], show heapStart ≤ kbase by decide⟩
    · intro page member
      cases member
  have final := run_invariant userStep _ UserOk userStep_ok calls _ start (fresh.and asks)
  refine ⟨?_, final.installed⟩
  intro s last r member
  obtain ⟨id, listed, rfl⟩ := mem_map.mp member
  exact (final.regions s last).regions id listed

def exampleUser : UserSys :=
  startUser (fun _ => ⟨0, 0, 0, 0⟩)
    (fun p => if p = 1 then ⟨.data, 0x100000, 4096⟩ else ⟨.file, 0, 8192⟩) 1
    ⟨fun _ _ => invalidPte, [2, 3, 4]⟩

theorem user_mappings_of_five_calls :
    let calls := [.vm (.mapPmo (some 1) 0x400123 3 (some 9)), .vm (.brk 0 (some 2) (some 10)),
      .vm (.brk (heapStart + 4096) none none),
      .vm (.mmap 8000 3 mapAnonymousPrivate (-1) (some 4) (some 11)),
      .fmap 8192 3 1 7 (some 5) (some 12), .vm (.shmat (some ⟨5, 8192⟩) 0 0 (some 13))]
    (calls.foldl userStep exampleUser).vm.isSome = true ∧
    (∀ s ∈ (calls.foldl userStep exampleUser).vm, ∀ r ∈ s.regions, r.start + r.size ≤ kbase) ∧
    ∀ page ∈ (calls.foldl userStep exampleUser).installed, page + pageSize ≤ kbase := by
  intro calls
  refine ⟨by decide +kernel, ?_⟩
  apply user_mappings_below_kbase
  · decide +kernel
  · decide +kernel

/-- `sys_map_pmo` of one page at `KBASE`. -/
theorem map_pmo_at_kbase : let calls := [.vm (.mapPmo (some 1) kbase 3 (some 9))]
    RunMeets userStep FreshMem exampleUser calls ∧
      ((calls.foldl userStep exampleUser).vm.map Vmspace.regions =
        some [⟨kbase, 4096, 3, 1⟩]) ∧
      (calls.foldl userStep exampleUser).installed = [kbase] ∧ ¬ kbase + 4096 ≤ kbase := by
  decide +kernel

end KernelLabs.ChCore
