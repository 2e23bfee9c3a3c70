import KernelLabs.ChCore.Ipc.Connection
import KernelLabs.ChCore.Mm.Munmap

/-!
# The locks of a vmspace

The functions of `kernel/mm/vmregion.c` and `handle_trans_fault` with their calls of `lock` and
`unlock`.  Whoever takes a lock that is held waits for ever; that, and a `BUG_ON` that fires, is
`none`.  Two of the functions return without giving back the lock when no region is found.
-/

set_option autoImplicit false

namespace KernelLabs.ChCore.VmLocks

open Function

inductive Lock where
  | vmspace
  | pgtbl
  deriving DecidableEq, Repr

structure LockedVm where
  vm : Vmspace
  held : Lock → Bool

abbrev VmM := StateT LockedVm Option

def lock (l : Lock) : VmM Unit := fun s =>
  if s.held l then none else some ((), { s with held := update s.held l true })

def unlock (l : Lock) : VmM Unit := fun s =>
  some ((), { s with held := update s.held l false })

def bugOn (bug : Prop) [Decidable bug] : VmM Unit := fun s =>
  if bug then none else some ((), s)

def vmspace : VmM Vmspace := fun s => some (s.vm, s)

def change (f : Vmspace → Option Vmspace) : VmM Unit := fun s =>
  (f s.vm).map fun vm => ((), { s with vm := vm })

def locked {α : Type} (l : Lock) (body : VmM α) : VmM α := do
  lock l
  let a ← body
  unlock l
  pure a

def unmapLocked (va len : Nat) : VmM Unit :=
  locked .pgtbl (change fun s => some (unmapPages s va len))

def vmspaceMapRange (va len flags pmo : Nat) (mem : Option Nat) : VmM Int := do
  let s ← vmspace
  let type := (s.pmo pmo).type
  bugOn (type ∉ [.data, .anonym, .device, .shm])
  match mem with
  | none => pure (-eNOMEM)
  | some id =>
    let vmr := mapRegion s va len flags pmo
    locked .vmspace (change (addVmrToVmspace · id vmr))
    if type ∈ [.data, .device] then do
      locked .pgtbl (change (fillPageTable · vmr))
      pure 0
    else pure 0

/-- The start of the two functions that go on only if a region contains the address. -/
def withRegion (va : Nat) (missing : Int) (body : Vmspace → Nat → VmM Int) : VmM Int := do
  lock .vmspace
  let s ← vmspace
  match findVmrForVa s va with
  | none => pure missing
  | some id => body s id

def vmspaceUnmapRange (va len : Nat) : VmM Int :=
  withRegion va (-1) fun s id => do
    let r := s.vmr id
    bugOn ((va ≠ r.start ∨ len ≠ r.size) ∧ len ≠ 0)
    change fun s => some (delVmrFromVmspace s id)
    unlock .vmspace
    -- the pmo is 0 where the source has NULL
    if r.pmo = 0 ∨ len = 0 then pure 0
    else do
      unmapLocked va len
      pure 0

def vmspaceMmapWithPmo (pmo len perm : Nat) (mem : Option Nat) : VmM Int :=
  match mem with
  | none => pure (-1)
  | some _ => locked .vmspace do
    let s ← vmspace
    change (ChCore.vmspaceMmapWithPmo · pmo len perm mem)
    pure s.userCurrentMmapAddr

def unmapVmrs : Nat → Nat → Nat → VmM Int
  | 0, _, len => do
    bugOn (len ≠ 0)
    pure 0
  | fuel + 1, va, len => do
    let s ← vmspace
    match findVmrForVa s va with
    | none => pure 0
    | some id =>
      let r := s.vmr id
      if len = 0 then pure 0
      else if len < r.size then do
        bugOn ((s.pmo r.pmo).type ≠ .anonym)
        change fun s =>
          some (setVmr s id { r with start := addU64 r.start len, size := r.size - len })
        unmapLocked va len
        pure 0
      else do
        unmapLocked va len
        change fun s => some (delVmrFromVmspace s id)
        unmapVmrs fuel (addU64 va r.size) (len - r.size)

def vmspaceMunmapWithAddr (va len : Nat) : VmM Int := locked .vmspace (unmapVmrs len va len)

def vmspaceUnmapShmVmr (va : Nat) : VmM Int := locked .vmspace do
  let s ← vmspace
  match findVmrForVa s va with
  | none => pure (-eINVAL)
  | some id =>
    let r := s.vmr id
    bugOn ((s.pmo r.pmo).type ≠ .shm ∨ va ≠ r.start)
    unmapLocked r.start r.size
    change fun s => some (delVmrFromVmspace s id)
    pure 0

def eNOMAPPING : Int := 203

/-- `committed` is what `get_page_from_pmo` returns, `fresh` what `get_pages` does, 0 for none, and
`added` says whether the page could be committed. -/
def handleTransFault (faultAddr committed fresh : Nat) (added : Bool) : VmM Int :=
  withRegion faultAddr (-eNOMAPPING) fun s id => do
    let r := s.vmr id
    let pmo := s.pmo r.pmo
    let offset := subU64 (roundDown faultAddr) r.start
    bugOn (pmo.type ∉ [.file, .anonym, .shm] ∨ pmo.size ≤ offset ∧ pmo.type ≠ .file)
    bugOn (committed = 0 ∧ (fresh = 0 ∨ added = false))
    let pa := if committed = 0 then fresh else committed
    let perm := if pmo.size ≤ offset then 2 ^ vmrRead ||| 2 ^ vmrWrite ||| 2 ^ vmrExec else r.perm
    locked .pgtbl (change fun s =>
      (mapRangeInPgtbl s.pt s.pgtbl (roundDown faultAddr) pa pageSize perm).map fun pt =>
        { s with pt := pt })
    unlock .vmspace
    pure 0

/-! ## What the functions do to the locks -/

/-- Where `m` returns, the locks are as `f` makes them of the locks before. -/
def Leaves {α : Type} (m : VmM α) (f : (Lock → Bool) → Lock → Bool) : Prop :=
  ∀ s a s', m s = some (a, s') → s'.held = f s.held

section Rules
variable {α β : Type} {m : VmM α} {f g : (Lock → Bool) → Lock → Bool}

theorem leaves_pure (a : α) : Leaves (pure a : VmM α) id := by
  rintro s _ s' ⟨⟩
  rfl

theorem leaves_vmspace : Leaves vmspace id := by
  rintro s _ s' ⟨⟩
  rfl

theorem leaves_unlock (l : Lock) : Leaves (unlock l) (update · l false) := by
  rintro s _ s' ⟨⟩
  rfl

theorem leaves_bugOn (bug : Prop) [Decidable bug] : Leaves (bugOn bug) id := by
  intro s _ s' run
  rw [bugOn] at run
  split at run
  · cases run
  · cases run
    rfl

theorem leaves_change (step : Vmspace → Option Vmspace) : Leaves (change step) id := by
  intro s _ s' run
  obtain ⟨vm, _, same⟩ := Option.map_eq_some_iff.mp run
  cases same
  rfl

variable {k : α → VmM β}

theorem Leaves.comp (first : Leaves m f) (next : ∀ a, Leaves (k a) g) :
    Leaves (m >>= k) (g ∘ f) := by
  intro s b s' run
  obtain ⟨⟨a, s1⟩, ran, rest⟩ := Option.bind_eq_some_iff.mp run
  rw [next a s1 b s' rest, first s a s1 ran]
  rfl

theorem Leaves.bind (first : Leaves m id) (next : ∀ a, Leaves (k a) g) :
    Leaves (m >>= k) g := first.comp next

theorem Leaves.last (first : Leaves m f) (next : ∀ a, Leaves (k a) id) :
    Leaves (m >>= k) f := first.comp next

theorem Leaves.locked {l : Lock} (body : Leaves m id) : Leaves (locked l m) id := by
  intro s a s' run
  obtain ⟨⟨_, s1⟩, ran, rest⟩ := Option.bind_eq_some_iff.mp run
  rw [lock] at ran
  split at ran
  · cases ran
  rename_i free
  cases ran
  rw [(body.bind fun a => (leaves_unlock l).last fun _ => leaves_pure a) _ _ _ rest]
  have before : s.held l = false := by simpa using free
  dsimp only
  rw [update_idem, ← before, update_eq_self, id]

theorem leaves_unmapLocked (va len : Nat) : Leaves (unmapLocked va len) id :=
  (leaves_change _).locked

theorem leaves_unmapVmrs (fuel : Nat) : ∀ va len, Leaves (unmapVmrs fuel va len) id := by
  induction fuel with
  | zero => exact fun va len => (leaves_bugOn _).bind fun _ => leaves_pure 0
  | succ fuel ih =>
    intro va len
    rw [unmapVmrs]
    refine leaves_vmspace.bind fun s => ?_
    cases findVmrForVa s va with
    | none => exact leaves_pure 0
    | some id =>
      dsimp only
      split
      · exact leaves_pure 0
      · split
        · exact (leaves_bugOn _).bind fun _ => (leaves_change _).bind fun _ =>
            (leaves_unmapLocked va len).bind fun _ => leaves_pure 0
        · exact (leaves_unmapLocked va len).bind fun _ => (leaves_change _).bind fun _ => ih _ _

end Rules

def Releases (m : VmM Int) (s : Vmspace) : Prop :=
  ∀ ret s', m ⟨s, fun _ => false⟩ = some (ret, s') → ∀ l, s'.held l = false

theorem Leaves.releases {m : VmM Int} {s : Vmspace} (leaves : Leaves m id) : Releases m s := by
  intro ret s' run l
  rw [leaves _ _ _ run]
  rfl

/-- `withRegion` gives back the lock if there is a region, and only then. -/
theorem withRegion_releases {va : Nat} {missing : Int} {body : Vmspace → Nat → VmM Int}
    (gives : ∀ s id, Leaves (body s id) (update · .vmspace false)) (s : Vmspace) :
    Releases (withRegion va missing body) s ↔ findVmrForVa s va ≠ none := by
  rw [Releases]
  simp only [withRegion, bind, StateT.bind, lock, vmspace, Bool.false_eq_true, if_false,
    Option.bind_some]
  cases found : findVmrForVa s va with
  | none =>
    refine iff_of_false (fun free => ?_) (fun some_ => some_ rfl)
    cases free _ _ rfl .vmspace
  | some id =>
    refine iff_of_true (fun ret s' run l => ?_) (by simp)
    rw [gives s id _ _ _ run]
    cases l <;> rfl

/-- The functions release both locks wherever they return, `vmspace_unmap_range` and
`handle_trans_fault` exactly if a region contains the address they are given. -/
theorem locks_released_iff (s : Vmspace) :
    (∀ va len flags pmo mem, Releases (vmspaceMapRange va len flags pmo mem) s) ∧
    (∀ va len, Releases (vmspaceUnmapRange va len) s ↔ findVmrForVa s va ≠ none) ∧
    (∀ pmo len perm mem, Releases (vmspaceMmapWithPmo pmo len perm mem) s) ∧
    (∀ va len, Releases (vmspaceMunmapWithAddr va len) s) ∧
    (∀ va, Releases (vmspaceUnmapShmVmr va) s) ∧ ∀ va committed fresh added,
      Releases (handleTransFault va committed fresh added) s ↔ findVmrForVa s va ≠ none := by
  refine ⟨fun va len flags pmo mem => Leaves.releases ?_, fun va len => ?_,
    fun pmo len perm mem => Leaves.releases ?_,
    fun va len => (leaves_unmapVmrs len va len).locked.releases,
    fun va => Leaves.releases ?_, fun va committed fresh added => ?_⟩
  · refine leaves_vmspace.bind fun s => (leaves_bugOn _).bind fun _ => ?_
    cases mem with
    | none => exact leaves_pure _
    | some id =>
      refine (leaves_change _).locked.bind fun _ => ?_
      split
      · exact (leaves_change _).locked.bind fun _ => leaves_pure 0
      · exact leaves_pure 0
  · refine withRegion_releases (fun s id => ?_) s
    refine (leaves_bugOn _).bind fun _ => (leaves_change _).bind fun _ =>
      (leaves_unlock _).last fun _ => ?_
    split
    · exact leaves_pure 0
    · exact (leaves_unmapLocked va len).bind fun _ => leaves_pure 0
  · cases mem with
    | none => exact leaves_pure _
    | some id =>
      exact (leaves_vmspace.bind fun s => (leaves_change _).bind fun _ => leaves_pure _).locked
  · refine (leaves_vmspace.bind fun s => ?_).locked
    cases findVmrForVa s va with
    | none => exact leaves_pure _
    | some id =>
      exact (leaves_bugOn _).bind fun _ => (leaves_unmapLocked _ _).bind fun _ =>
        (leaves_change _).bind fun _ => leaves_pure 0
  · refine withRegion_releases (fun s id => ?_) s
    exact (leaves_bugOn _).bind fun _ => (leaves_bugOn _).bind fun _ =>
      (leaves_change _).locked.bind fun _ => (leaves_unlock _).last fun _ => leaves_pure 0

/-- A fault beside all regions returns `-ENOMAPPING` and keeps the lock of the vmspace. -/
theorem fault_keeps_lock : (handleTransFault 0 0 0 true ⟨twoPages, fun _ => false⟩).map
      (fun r => (r.1, r.2.held .vmspace)) = some (-203, true) := by
  decide +kernel

end KernelLabs.ChCore.VmLocks
