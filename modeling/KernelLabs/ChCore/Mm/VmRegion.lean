import KernelLabs.ChCore.Mm.PageTable

/-!
# Virtual memory regions

Model of `kernel/mm/vmregion.c` and of the system calls of `kernel/object/memory.c` that
change a vmspace.  A pointer to a `struct vmregion` or a `struct pmobject` is a number,
and `vmr` and `pmo` are what the memory there holds; `kfree` leaves it as it is, so that a
stale `heap_vmr` reads the old fields, or those of the region that got the memory since.
What `kmalloc` and `obj_alloc` return is an argument, `none` for NULL.  Addresses and
sizes are 64-bit.  A `BUG_ON` that fires, and a NULL pointer that is read, is `none`: the
kernel does not go on.
-/

set_option autoImplicit false

namespace KernelLabs.ChCore

open Function

inductive PmoType where
  | anonym
  | data
  | file
  | shm
  | userPager
  | device
  | forbid
  deriving DecidableEq, Repr

/-- `struct pmobject`, without the pages already committed to it. -/
structure Pmobject where
  type : PmoType
  start : Nat
  size : Nat
  deriving DecidableEq, Repr

structure Vmregion where
  start : Nat
  size : Nat
  perm : Nat
  pmo : Nat
  deriving DecidableEq, Repr

structure Vmspace where
  vmrList : List Nat
  vmr : Nat → Vmregion
  pmo : Nat → Pmobject
  pgtbl : Nat
  pt : PtState
  heapVmr : Option Nat
  userCurrentHeap : Nat
  userCurrentMmapAddr : Nat

def heapStart : Nat := 0x600000000000

def mmapStart : Nat := 0x700000000000

def vmspaceInit (vmr : Nat → Vmregion) (pmo : Nat → Pmobject) (pgtbl : Nat) (pt : PtState) :
    Vmspace :=
  { vmrList := [], vmr := vmr, pmo := pmo, pgtbl := pgtbl, pt := pt, heapVmr := none
    userCurrentHeap := heapStart, userCurrentMmapAddr := mmapStart }

def roundDown (x : Nat) : Nat := x / pageSize * pageSize

def roundUp (x : Nat) : Nat := roundDown (addU64 x (pageSize - 1))

def vmrRead : Nat := 0

def Vmspace.regions (s : Vmspace) : List Vmregion := s.vmrList.map s.vmr

def Vmregion.stop (r : Vmregion) : Nat := addU64 r.start r.size

def checkVmrIntersect (s : Vmspace) (new : Vmregion) : Bool :=
  if new.size = 0 then false
  else s.regions.any fun r =>
    !(decide (r.stop ≤ new.start) || decide (addU64 new.stop (2 ^ 64 - 1) ≤ r.start))

/-- `add_vmr_to_vmspace` for the memory `id` with the fields `new`. -/
def addVmrToVmspace (s : Vmspace) (id : Nat) (new : Vmregion) : Option Vmspace :=
  if checkVmrIntersect s new then none
  else some { s with vmrList := id :: s.vmrList, vmr := update s.vmr id new }

def delVmrFromVmspace (s : Vmspace) (id : Nat) : Vmspace :=
  { s with vmrList := s.vmrList.erase id }

def findVmrForVa (s : Vmspace) (addr : Nat) : Option Nat :=
  s.vmrList.find? fun id => decide ((s.vmr id).start ≤ addr) && decide (addr < (s.vmr id).stop)

def fillPageTable (s : Vmspace) (vmr : Vmregion) : Option Vmspace :=
  let pmo := s.pmo vmr.pmo
  (mapRangeInPgtbl s.pt s.pgtbl vmr.start pmo.start pmo.size vmr.perm).map fun pt =>
    { s with pt := pt }

def mapRegion (s : Vmspace) (va len flags pmo : Nat) : Vmregion :=
  { start := roundDown va
    size := if len < pageSize then pageSize else len
    perm := if (s.pmo pmo).type = .device then flags ||| 2 ^ vmrDevice else flags
    pmo := pmo }

def vmspaceMapRange (s : Vmspace) (va len flags pmo : Nat) (mem : Option Nat) : Option Vmspace :=
  let type := (s.pmo pmo).type
  if type ∈ [.data, .anonym, .device, .shm] then
    match mem with
    | none => some s
    | some id =>
      let vmr := mapRegion s va len flags pmo
      match addVmrToVmspace s id vmr with
      | none => none
      | some s => if type ∈ [.data, .device] then fillPageTable s vmr else some s
  else none

/-- `init_heap_vmr`; `heap_vmr` is set to what it returns. -/
def initHeapVmr (s : Vmspace) (va pmo : Nat) (mem : Option Nat) : Option Vmspace :=
  match mem with
  | none => some { s with heapVmr := none }
  | some id =>
    (addVmrToVmspace s id
      { start := va, size := 0, perm := 2 ^ vmrRead ||| 2 ^ vmrWrite, pmo := pmo }).map fun s =>
        { s with heapVmr := some id }

def vmspaceMmapWithPmo (s : Vmspace) (pmo len perm : Nat) (mem : Option Nat) : Option Vmspace :=
  match mem with
  | none => some s
  | some id =>
    let start := s.userCurrentMmapAddr
    if len % pageSize ≠ 0 then none
    else if (s.pmo pmo).type ∈ [.anonym, .shm, .file] then
      addVmrToVmspace { s with userCurrentMmapAddr := addU64 start len } id
        { start := start, size := len, perm := perm, pmo := pmo }
    else none

def setVmr (s : Vmspace) (id : Nat) (r : Vmregion) : Vmspace :=
  { s with vmr := update s.vmr id r }

def unmapPages (s : Vmspace) (va len : Nat) : Vmspace :=
  { s with pt := { s.pt with mem := unmapRangeInPgtbl s.pt.mem s.pgtbl va len } }

/-- `unmap_vmrs`.  A region that contains `va` is not empty, so `len` goes down and a fuel
of `len` is enough. -/
def unmapVmrs : Nat → Vmspace → Nat → Nat → Option Vmspace
  | 0, s, _, len => if len = 0 then some s else none
  | fuel + 1, s, va, len =>
    if len = 0 then some s
    else
      match findVmrForVa s va with
      | none => some s
      | some id =>
        let r := s.vmr id
        if len < r.size then
          if (s.pmo r.pmo).type = .anonym then
            some (unmapPages
              (setVmr s id { r with start := addU64 r.start len, size := r.size - len }) va len)
          else none
        else
          unmapVmrs fuel (delVmrFromVmspace (unmapPages s va len) id) (addU64 va r.size)
            (len - r.size)

def vmspaceMunmapWithAddr (s : Vmspace) (va len : Nat) : Option Vmspace := unmapVmrs len s va len

/-! ### `unmap_vmrs` as a relation -/

/-- The vmspace after cutting `len` bytes off a region at its lower end. -/
def shrinkVmr (s : Vmspace) (id va len : Nat) : Vmspace :=
  unmapPages (setVmr s id { s.vmr id with
    start := addU64 (s.vmr id).start len, size := (s.vmr id).size - len }) va len

inductive Unmaps : Vmspace → Nat → Nat → Vmspace → Prop where
  | done (s : Vmspace) (va : Nat) : Unmaps s va 0 s
  | nothing (s : Vmspace) (va len : Nat) : findVmrForVa s va = none → Unmaps s va len s
  | shrink (s : Vmspace) (va len id : Nat) : findVmrForVa s va = some id →
      len < (s.vmr id).size → len ≠ 0 → (s.pmo (s.vmr id).pmo).type = .anonym →
      Unmaps s va len (shrinkVmr s id va len)
  | whole (s : Vmspace) (va len id : Nat) (s' : Vmspace) : findVmrForVa s va = some id →
      (s.vmr id).size ≤ len → len ≠ 0 →
      Unmaps (delVmrFromVmspace (unmapPages s va len) id) (addU64 va (s.vmr id).size)
        (len - (s.vmr id).size) s' → Unmaps s va len s'

theorem unmaps_of_run {s' : Vmspace} : ∀ (fuel : Nat) (s : Vmspace) (va len : Nat),
    unmapVmrs fuel s va len = some s' → Unmaps s va len s' := by
  intro fuel
  induction fuel with
  | zero =>
    intro s va len run
    simp only [unmapVmrs] at run
    obtain ⟨zero, run⟩ := Option.ite_none_right_eq_some.mp run
    cases run
    subst zero
    exact .done _ va
  | succ fuel ih =>
    intro s va len run
    simp only [unmapVmrs] at run
    split at run
    · rename_i zero
      cases run
      subst zero
      exact .done _ va
    rename_i pos
    split at run
    · rename_i found
      cases run
      exact .nothing _ va len found
    rename_i id found
    split at run
    · rename_i part
      obtain ⟨anonym, run⟩ := Option.ite_none_right_eq_some.mp run
      cases run
      exact .shrink s va len id found part pos anonym
    · rename_i large
      exact .whole s va len id s' found (Nat.not_lt.mp large) pos (ih _ _ _ run)

theorem size_pos_of_find {s : Vmspace} {va id : Nat} (found : findVmrForVa s va = some id) :
    (s.vmr id).size ≠ 0 := by
  intro empty
  have test := List.find?_some found
  simp only [Bool.and_eq_true, decide_eq_true_eq, Vmregion.stop, addU64, empty, Nat.add_zero] at test
  have := Nat.mod_le (s.vmr id).start (2 ^ 64)
  omega

/-- A region that is found is not empty, so a fuel of `len` is enough. -/
theorem run_of_unmaps {s s' : Vmspace} {va len : Nat} (unmaps : Unmaps s va len s') :
    ∀ fuel, len ≤ fuel → unmapVmrs fuel s va len = some s' := by
  induction unmaps with
  | done s va =>
    intro fuel _
    cases fuel <;> simp [unmapVmrs]
  | nothing s va len found =>
    intro fuel enough
    cases fuel with
    | zero => simp [unmapVmrs, Nat.le_zero.mp enough]
    | succ fuel => simp [unmapVmrs, found]
  | shrink s va len id found part pos anonym =>
    intro fuel enough
    cases fuel with
    | zero => exact absurd (Nat.le_zero.mp enough) pos
    | succ fuel => simp only [unmapVmrs, found, if_neg pos, if_pos part, if_pos anonym, shrinkVmr]
  | whole s va len id s' found small pos _ ih =>
    intro fuel enough
    cases fuel with
    | zero => exact absurd (Nat.le_zero.mp enough) pos
    | succ fuel =>
      simp only [unmapVmrs, found, if_neg pos, if_neg (Nat.not_lt.mpr small)]
      have size := size_pos_of_find found
      exact ih fuel (by omega)

/-! ## System calls -/

def sysMapPmo (s : Vmspace) (pmo : Option Nat) (addr perm : Nat) (mem : Option Nat) :
    Option Vmspace :=
  match pmo with
  | none => some s
  | some pmo => vmspaceMapRange s addr (s.pmo pmo).size perm pmo mem

/-- `obj_alloc` for an anonymous pmo and `pmo_init`.  Both callers stop the kernel when the
object or its capability cannot be allocated. -/
def newAnonymPmo (s : Vmspace) (pmo len : Nat) : Vmspace :=
  { s with pmo := update s.pmo pmo { type := .anonym, start := 0, size := roundUp len } }

def sysHandleBrk (s : Vmspace) (addr : Nat) (pmo mem : Option Nat) : Option Vmspace :=
  if addr = 0 then
    match pmo with
    | none => none
    | some pmo => initHeapVmr (newAnonymPmo s pmo 0) s.userCurrentHeap pmo mem
  else
    match s.heapVmr with
    | none => none
    | some id =>
      let r := s.vmr id
      if r.stop ≤ addr then
        let len := addr - r.stop
        let pmo := s.pmo r.pmo
        some { setVmr s id { r with size := addU64 r.size len } with
          pmo := update s.pmo r.pmo { pmo with size := addU64 pmo.size len } }
      else none

def getVmrProt (prot : Nat) : Nat :=
  (if prot.testBit 0 then 2 ^ vmrRead else 0) ||| (if prot.testBit 1 then 2 ^ vmrWrite else 0) |||
    (if prot.testBit 2 then 2 ^ vmrExec else 0)

def mapAnonymousPrivate : Nat := 0x22

/-- `sys_handle_mmap`; the address hint and the offset are not read. -/
def sysHandleMmap (s : Vmspace) (length prot flags : Nat) (fd : Int) (pmo mem : Option Nat) :
    Option Vmspace :=
  if fd ≠ -1 then none
  else if 8 ≤ prot then some s
  else if flags ≠ mapAnonymousPrivate then some s
  else
    let length := if length % pageSize ≠ 0 then roundUp length else length
    match pmo with
    | none => none
    | some pmo => vmspaceMmapWithPmo (newAnonymPmo s pmo length) pmo length (getVmrProt prot) mem

structure ShmRecord where
  pmo : Nat
  size : Nat
  deriving DecidableEq, Repr

def sysShmat (s : Vmspace) (record : Option ShmRecord) (shmaddr shmflg : Nat) (mem : Option Nat) :
    Option Vmspace :=
  match record with
  | none => some s
  | some record =>
    -- SHM_RDONLY, SHM_RND, SHM_REMAP and SHM_EXEC are the bits 12 to 15
    if shmaddr ≠ 0 ∧ shmflg.testBit 13 then some s
    else if shmflg.testBit 14 then some s
    else
      let perm :=
        if shmflg.testBit 12 then 2 ^ vmrRead
        else if shmflg.testBit 15 then 2 ^ vmrRead ||| 2 ^ vmrWrite ||| 2 ^ vmrExec
        else 2 ^ vmrRead ||| 2 ^ vmrWrite
      vmspaceMmapWithPmo s record.pmo record.size perm mem

def sysHandleMunmap (s : Vmspace) (addr length : Nat) : Option Vmspace :=
  if addr % pageSize ≠ 0 ∨ length % pageSize ≠ 0 then some s
  else vmspaceMunmapWithAddr s addr length

/-! ## What the functions can do -/

section Cases
variable {s s' : Vmspace} {mem : Option Nat}

theorem addVmrToVmspace_eq {id : Nat} {new : Vmregion} (run : addVmrToVmspace s id new = some s') :
    checkVmrIntersect s new = false ∧
      s' = { s with vmrList := id :: s.vmrList, vmr := update s.vmr id new } := by
  unfold addVmrToVmspace at run
  obtain ⟨hit, run⟩ := Option.ite_none_left_eq_some.mp run
  cases run
  exact ⟨Bool.not_eq_true _ ▸ hit, rfl⟩

theorem vmspaceMapRange_cases {va len flags pmo : Nat}
    (run : vmspaceMapRange s va len flags pmo mem = some s') : mem = none ∧ s' = s ∨
      ∃ id s1, mem = some id ∧ (s.pmo pmo).type ∈ [.data, .anonym, .device, .shm] ∧
        addVmrToVmspace s id (mapRegion s va len flags pmo) = some s1 ∧
        ((s.pmo pmo).type ∈ [.data, .device] ∧
            fillPageTable s1 (mapRegion s va len flags pmo) = some s' ∨
          (s.pmo pmo).type ∉ [.data, .device] ∧ s' = s1) := by
  unfold vmspaceMapRange at run
  dsimp only at run
  obtain ⟨type, run⟩ := Option.ite_none_right_eq_some.mp run
  cases mem with
  | none =>
    cases run
    exact .inl ⟨rfl, rfl⟩
  | some id =>
    right
    dsimp only at run
    split at run
    · cases run
    rename_i s1 added
    refine ⟨id, s1, rfl, type, added, ?_⟩
    split at run
    · rename_i early
      exact .inl ⟨early, run⟩
    · rename_i late
      cases run
      exact .inr ⟨late, rfl⟩

theorem initHeapVmr_cases {va pmo : Nat} (run : initHeapVmr s va pmo mem = some s') :
    s' = { s with heapVmr := none } ∨
      ∃ id s1, mem = some id ∧
        addVmrToVmspace s id ⟨va, 0, 2 ^ vmrRead ||| 2 ^ vmrWrite, pmo⟩ = some s1 ∧
        s' = { s1 with heapVmr := some id } := by
  cases mem with
  | none =>
    cases run
    exact .inl rfl
  | some id =>
    unfold initHeapVmr at run
    obtain ⟨s1, added, rfl⟩ := Option.map_eq_some_iff.mp run
    exact .inr ⟨id, s1, rfl, added, rfl⟩

theorem vmspaceMmapWithPmo_cases {pmo len perm : Nat}
    (run : vmspaceMmapWithPmo s pmo len perm mem = some s') : s' = s ∨
      ∃ id, mem = some id ∧ len % pageSize = 0 ∧ (s.pmo pmo).type ∈ [.anonym, .shm, .file] ∧
        addVmrToVmspace { s with userCurrentMmapAddr := addU64 s.userCurrentMmapAddr len } id
          ⟨s.userCurrentMmapAddr, len, perm, pmo⟩ = some s' := by
  cases mem with
  | none =>
    cases run
    exact .inl rfl
  | some id =>
    right
    unfold vmspaceMmapWithPmo at run
    dsimp only at run
    obtain ⟨whole, run⟩ := Option.ite_none_left_eq_some.mp run
    obtain ⟨type, run⟩ := Option.ite_none_right_eq_some.mp run
    exact ⟨id, rfl, not_not.mp whole, type, run⟩

theorem sysHandleBrk_cases {addr : Nat} {pmo : Option Nat}
    (run : sysHandleBrk s addr pmo mem = some s') :
    (∃ p, initHeapVmr (newAnonymPmo s p 0) s.userCurrentHeap p mem = some s') ∨
      addr ≠ 0 ∧ ∃ h, s.heapVmr = some h ∧ (s.vmr h).stop ≤ addr ∧ ∃ pmos,
        s' = { setVmr s h { s.vmr h with
          size := addU64 (s.vmr h).size (addr - (s.vmr h).stop) } with pmo := pmos } := by
  unfold sysHandleBrk at run
  split at run
  · split at run
    · cases run
    · rename_i p
      exact .inl ⟨p, run⟩
  rename_i grow
  split at run
  · cases run
  · rename_i h heap
    dsimp only at run
    obtain ⟨above, run⟩ := Option.ite_none_right_eq_some.mp run
    cases run
    exact .inr ⟨grow, h, heap, above, _, rfl⟩

theorem sysHandleMmap_cases {length prot flags : Nat} {fd : Int} {pmo : Option Nat}
    (run : sysHandleMmap s length prot flags fd pmo mem = some s') : s' = s ∨
      ∃ p len, pmo = some p ∧ len = (if length % pageSize ≠ 0 then roundUp length else length) ∧
        fd = -1 ∧ prot < 8 ∧ flags = mapAnonymousPrivate ∧
        vmspaceMmapWithPmo (newAnonymPmo s p len) p len (getVmrProt prot) mem = some s' := by
  unfold sysHandleMmap at run
  obtain ⟨anonymous, run⟩ := Option.ite_none_left_eq_some.mp run
  split at run
  · cases run
    exact .inl rfl
  rename_i prots
  split at run
  · cases run
    exact .inl rfl
  rename_i flagged
  right
  cases pmo with
  | none => cases run
  | some p =>
    exact ⟨p, _, rfl, rfl, not_not.mp anonymous, Nat.not_le.mp prots, not_not.mp flagged, run⟩

theorem sysShmat_cases {record : Option ShmRecord} {shmaddr shmflg : Nat}
    (run : sysShmat s record shmaddr shmflg mem = some s') : s' = s ∨
      ∃ r perm, record = some r ∧ ¬ (shmaddr ≠ 0 ∧ shmflg.testBit 13) ∧
        shmflg.testBit 14 = false ∧ vmspaceMmapWithPmo s r.pmo r.size perm mem = some s' := by
  cases record with
  | none =>
    cases run
    exact .inl rfl
  | some r =>
    unfold sysShmat at run
    dsimp only at run
    split at run
    · cases run
      exact .inl rfl
    rename_i aligned
    split at run
    · cases run
      exact .inl rfl
    · rename_i noRemap
      exact .inr ⟨r, _, rfl, aligned, Bool.not_eq_true _ ▸ noRemap, run⟩

end Cases

end KernelLabs.ChCore
