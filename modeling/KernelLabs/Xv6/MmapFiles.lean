import KernelLabs.Lib.Runs
import KernelLabs.Xv6.Mmap

/-!
# References to files in the mmap lab

Model of the reference counts of `struct file` under `sys_open`, `sys_dup`, `sys_close` (`sysfile.c`),
`sys_mmap`, `sys_munmap` (`vm.c`), `fork` and `exit` (`proc.c`).  `none` is a kernel that has
panicked: in `filedup` or `fileclose`, or in `sys_mmap` on a descriptor that is not open.
-/

set_option autoImplicit false

namespace KernelLabs.Xv6.Mmap

open Lib Function List Option

def nofile : Nat := 16
def nfile : Nat := 100
def nproc : Nat := 64

/-- A process that is neither a zombie nor unused. -/
structure Proc where
  ofile : List (Option Nat)
  vmas : List Vma
  sz : Nat

structure Files where
  ref : Nat → Nat
  writable : Nat → Bool
  procs : Fin nproc → Option Proc

/-! ## The functions of `file.c` -/

def filealloc (ref : Nat → Nat) : Option Nat := (range nfile).find? fun f => ref f = 0

def filedup (ref : Nat → Nat) (f : Nat) : Option (Nat → Nat) :=
  if ref f < 1 then none else some (update ref f (ref f + 1))

def fileclose (ref : Nat → Nat) (f : Nat) : Option (Nat → Nat) :=
  if ref f < 1 then none else some (update ref f (ref f - 1))

def dupFiles : List (Option Nat) → (Nat → Nat) → Option (Nat → Nat)
  | [], ref => some ref
  | none :: rest, ref => dupFiles rest ref
  | some f :: rest, ref => (filedup ref f).bind (dupFiles rest)

def closeFiles : List (Option Nat) → (Nat → Nat) → Option (Nat → Nat)
  | [], ref => some ref
  | none :: rest, ref => closeFiles rest ref
  | some f :: rest, ref => (fileclose ref f).bind (closeFiles rest)

def fdalloc (ofile : List (Option Nat)) : Option Nat := ofile.findIdx? fun entry => entry.isNone

/-! ## System calls -/

/-- How `fork` ends: `allocproc` fails, `uvmcopy` fails, or it succeeds. -/
inductive ForkEnd where
  | noProc
  | noMemory
  | done
  deriving DecidableEq, Repr

/-- `opened` tells whether `sys_open` finds the inode. -/
inductive FileCall where
  | open (p : Fin nproc) (opened : Bool) (writable : Bool)
  | dup (p : Fin nproc) (fd : Nat)
  | close (p : Fin nproc) (fd : Nat)
  | mmap (p : Fin nproc) (length : Int) (prot : Prot) (shared : Bool) (fd : Nat)
  | munmap (p : Fin nproc) (addr : Nat) (length : Int)
  | fork (p np : Fin nproc) (ended : ForkEnd)
  | exit (p : Fin nproc)

def Files.setProc (s : Files) (p : Fin nproc) (proc : Option Proc) : Files :=
  { s with procs := update s.procs p proc }

/-- If `fdalloc` fails, `fileclose` takes the reference of `filealloc` back. -/
def sysOpen (s : Files) (p : Fin nproc) (proc : Proc) (opened writable : Bool) : Option Files :=
  if opened = false then some s
  else
    match filealloc s.ref with
    | none => some s
    | some f =>
      let ref := update s.ref f 1
      match fdalloc proc.ofile with
      | none => (fileclose ref f).map fun ref => { s with ref := ref }
      | some fd =>
        some ({ s with ref := ref, writable := update s.writable f writable }.setProc p
          (some { proc with ofile := proc.ofile.set fd (some f) }))

def sysDup (s : Files) (p : Fin nproc) (proc : Proc) (fd : Nat) : Option Files :=
  match proc.ofile[fd]?.join with
  | none => some s
  | some f =>
    match fdalloc proc.ofile with
    | none => some s
    | some fd =>
      (filedup s.ref f).map fun ref => { s with ref := ref }.setProc p
        (some { proc with ofile := proc.ofile.set fd (some f) })

def sysClose (s : Files) (p : Fin nproc) (proc : Proc) (fd : Nat) : Option Files :=
  match proc.ofile[fd]?.join with
  | none => some s
  | some f =>
    (fileclose s.ref f).map fun ref => { s with ref := ref }.setProc p
      (some { proc with ofile := proc.ofile.set fd none })

/-- With an `fd` behind `ofile` the source reads past the array; the run ends here. -/
def sysMmap (s : Files) (p : Fin nproc) (proc : Proc) (length : Int) (prot : Prot) (shared : Bool)
    (fd : Nat) : Option Files :=
  match proc.ofile[fd]?.join with
  | none => none
  | some f =>
    if s.writable f = false ∧ prot.write = true ∧ shared = true then some s
    else
      match freeVma proc.vmas with
      | none => some s
      | some i =>
        let v := newVma proc.sz length prot shared f
        (filedup s.ref f).map fun ref => { s with ref := ref }.setProc p
          (some { proc with vmas := proc.vmas.set i v, sz := proc.sz + v.sz })

def sysMunmap (s : Files) (p : Fin nproc) (proc : Proc) (addr : Nat) (length : Int) :
    Option Files :=
  match (findVma proc.vmas addr).bind fun i => (proc.vmas[i]?).map fun v => (i, v) with
  | none => some s
  | some (i, v) =>
    let s' := s.setProc p (some { proc with vmas := proc.vmas.set i (unmapVma v length) })
    if (unmapVma v length).used then some s'
    else
      match v.f with
      | none => none
      | some f => (fileclose s.ref f).map fun ref => { s' with ref := ref }

def fork (s : Files) (proc : Proc) (np : Fin nproc) (ended : ForkEnd) : Option Files :=
  if ended = .noProc ∨ s.procs np ≠ none then some s
  else
    (dupFiles (proc.vmas.map Vma.f) s.ref).bind fun ref =>
      if ended = .noMemory then some { s with ref := ref }
      else (dupFiles proc.ofile ref).map fun ref => { s with ref := ref }.setProc np (some proc)

def exit (s : Files) (p : Fin nproc) (proc : Proc) : Option Files :=
  (closeFiles proc.ofile s.ref).map fun ref => { s with ref := ref }.setProc p none

def call (s : Files) (p : Fin nproc) (run : Proc → Option Files) : Option Files :=
  match s.procs p with
  | none => some s
  | some proc => run proc

def fileCall (s : Files) : FileCall → Option Files
  | .open p opened writable => call s p fun proc => sysOpen s p proc opened writable
  | .dup p fd => call s p fun proc => sysDup s p proc fd
  | .close p fd => call s p fun proc => sysClose s p proc fd
  | .mmap p length prot shared fd => call s p fun proc => sysMmap s p proc length prot shared fd
  | .munmap p addr length => call s p fun proc => sysMunmap s p proc addr length
  | .fork p np ended => call s p fun proc => fork s proc np ended
  | .exit p => call s p fun proc => exit s p proc

def fileStep (s : Option Files) (c : FileCall) : Option Files := s.bind fun s => fileCall s c

/-! ## References -/

def Proc.files (proc : Proc) : List (Option Nat) :=
  proc.ofile ++ proc.vmas.map fun v => if v.used then v.f else none

open Proc

def refsTo (f : Nat) (proc : Option Proc) : Nat := proc.elim 0 fun proc => proc.files.count (some f)

def Files.held (s : Files) (f : Nat) : Nat := total (refsTo f) s.procs

/-- Every count is the number of references, and the files that are closed are those to which no
live process refers. -/
def Referenced (s : Files) : Prop :=
  ∀ f, s.ref f = s.held f ∧
    (s.ref f = 0 ↔ ∀ p proc, s.procs p = some proc → some f ∉ proc.files)

/-- Between two calls a region has a file exactly if it is in use. -/
structure Inv (s : Files) : Prop where
  counted : ∀ f, s.ref f = s.held f
  regions : ∀ p proc, s.procs p = some proc → ∀ v ∈ proc.vmas, v.used = v.f.isSome

variable {ref : Nat → Nat} {f i : Nat} {old : Option Nat}

section Lists
variable {entries : List (Option Nat)}

theorem count_set (here : entries[i]? = some old) (new a : Option Nat) :
    (entries.set i new).count a + (if old = a then 1 else 0) =
      entries.count a + if new = a then 1 else 0 := by
  obtain ⟨within, rfl⟩ := List.getElem?_eq_some_iff.mp here
  rw [List.count_set within]
  by_cases was : entries[i] = a
  · have positive : 0 < entries.count a := count_pos_iff.mpr (was ▸ getElem_mem within)
    by_cases same : new = a
    · simp only [was, same, beq_self_eq_true, ↓reduceIte]
      omega
    · simp only [was, beq_self_eq_true, ↓reduceIte, beq_iff_eq, same]
      omega
  · simp [was]

theorem dupFiles_eq (counted : ∀ f, some f ∈ entries → 0 < ref f) :
    dupFiles entries ref = some fun f => ref f + entries.count (some f) := by
  induction entries generalizing ref with
  | nil => rfl
  | cons entry rest ih =>
    cases entry with
    | none =>
      rw [dupFiles, ih fun f member => counted f (mem_cons_of_mem _ member)]
      simp
    | some g =>
      have positive := counted g mem_cons_self
      have open_ : filedup ref g = some (update ref g (ref g + 1)) := if_neg (by omega)
      have later : ∀ f, some f ∈ rest → 0 < update ref g (ref g + 1) f := by
        intro f member
        rw [update_apply]
        split
        · omega
        · exact counted f (mem_cons_of_mem _ member)
      rw [dupFiles, open_, bind_some, ih later]
      congr 1
      funext f
      rw [update_apply, count_cons]
      by_cases same : f = g
      · subst same
        simp
        omega
      · simp [same, Ne.symm same]

theorem closeFiles_eq (counted : ∀ f, entries.count (some f) ≤ ref f) :
    closeFiles entries ref = some fun f => ref f - entries.count (some f) := by
  induction entries generalizing ref with
  | nil => rfl
  | cons entry rest ih =>
    cases entry with
    | none =>
      have later : ∀ f, rest.count (some f) ≤ ref f := fun f => by simpa using counted f
      rw [closeFiles, ih later]
      simp
    | some g =>
      have here := counted g
      rw [count_cons_self] at here
      have open_ : fileclose ref g = some (update ref g (ref g - 1)) := if_neg (by omega)
      have later : ∀ f, rest.count (some f) ≤ update ref g (ref g - 1) f := by
        intro f
        rw [update_apply]
        split
        · subst_vars
          omega
        · exact (count_le_count_cons).trans (counted f)
      rw [closeFiles, open_, bind_some, ih later]
      congr 1
      funext f
      rw [update_apply, count_cons]
      by_cases same : f = g
      · subst same
        simp
        omega
      · simp [same, Ne.symm same]

end Lists

section Counts
variable {s : Files} {p : Fin nproc} {proc : Proc}

theorem count_le_ref (inv : Inv s) (here : s.procs p = some proc) (f : Nat) :
    proc.files.count (some f) ≤ s.ref f := by
  rw [inv.counted f]
  have part := le_total (refsTo f) s.procs p
  rwa [here] at part

theorem ref_pos (inv : Inv s) (here : s.procs p = some proc) (member : some f ∈ proc.files) :
    0 < s.ref f :=
  Nat.lt_of_lt_of_le (count_pos_iff.mpr member) (count_le_ref inv here f)

theorem held_setProc (proc' : Option Proc) (ref : Nat → Nat) (f : Nat) :
    ({ s with ref := ref }.setProc p proc').held f + refsTo f (s.procs p) =
      s.held f + refsTo f proc' :=
  total_update (refsTo f) s.procs p proc'

theorem Inv.put (inv : Inv s) {proc' : Option Proc}
    (counts : ∀ f, ref f + refsTo f (s.procs p) = s.ref f + refsTo f proc')
    (regions : ∀ proc, proc' = some proc → ∀ v ∈ proc.vmas, v.used = v.f.isSome) :
    Inv ({ s with ref := ref }.setProc p proc') := by
  constructor
  · intro f
    have moved := held_setProc (s := s) (p := p) proc' ref f
    have change := counts f
    have before := inv.counted f
    change ref f = _
    omega
  · exact (forall_update_iff s.procs fun _ entry => ∀ proc, entry = some proc →
      ∀ v ∈ proc.vmas, v.used = v.f.isSome).mpr ⟨regions, fun q _ => inv.regions q⟩

section
variable (inv : Inv s) (here : s.procs p = some proc)
include inv here

variable {proc' : Proc}

theorem Inv.setProc
    (counts : ∀ f, ref f + proc.files.count (some f) = s.ref f + proc'.files.count (some f))
    (regions : ∀ v ∈ proc'.vmas, v.used = v.f.isSome) :
    Inv ({ s with ref := ref }.setProc p (some proc')) := by
  refine inv.put (fun f => ?_) fun _ same => Option.some.inj same ▸ regions
  rw [here]
  exact counts f

theorem Inv.addRef
    (gains : ∀ g, proc'.files.count (some g) = proc.files.count (some g) + if f = g then 1 else 0)
    (regions : ∀ v ∈ proc'.vmas, v.used = v.f.isSome) :
    Inv ({ s with ref := update s.ref f (s.ref f + 1) }.setProc p (some proc')) := by
  refine inv.setProc here (fun g => ?_) regions
  have gained := gains g
  rw [update_apply]
  by_cases same : f = g
  · subst same
    simp only [↓reduceIte] at gained ⊢
    omega
  · simp only [same, Ne.symm same, ↓reduceIte] at gained ⊢
    omega

theorem Inv.dropRef
    (loses : ∀ g, proc'.files.count (some g) + (if f = g then 1 else 0) = proc.files.count (some g))
    (regions : ∀ v ∈ proc'.vmas, v.used = v.f.isSome) :
    Inv ({ s with ref := update s.ref f (s.ref f - 1) }.setProc p (some proc')) := by
  refine inv.setProc here (fun g => ?_) regions
  have lost := loses g
  have referenced := count_le_ref inv here g
  rw [update_apply]
  by_cases same : f = g
  · subst same
    simp only [↓reduceIte] at lost ⊢
    omega
  · simp only [same, Ne.symm same, ↓reduceIte] at lost ⊢
    omega

end

theorem Inv.referenced (inv : Inv s) : Referenced s := by
  intro f
  refine ⟨inv.counted f, fun closed q other there member => ?_, fun unused => ?_⟩
  · have positive := ref_pos inv there member
    omega
  · rw [inv.counted f]
    refine total_eq_zero fun q => ?_
    cases there : s.procs q with
    | none => rfl
    | some other => exact count_eq_zero.mpr (unused q other there)

end Counts

/-! ## The calls keep the counts -/

variable {np : Fin nproc} {ended : ForkEnd}

section Calls
variable {s s' : Files} {p : Fin nproc} {proc : Proc} {fd : Nat}

theorem fdalloc_some {ofile : List (Option Nat)} (free : fdalloc ofile = some fd) :
    ofile[fd]? = some none := by
  obtain ⟨within, holds, _⟩ := findIdx?_eq_some_iff_getElem.mp free
  rw [getElem?_eq_getElem within, isNone_iff_eq_none.mp holds]

theorem count_files_ofile (here : proc.ofile[fd]? = some old) (new : Option Nat) (f : Nat) :
    ({ proc with ofile := proc.ofile.set fd new }.files).count (some f) +
        (if old = some f then 1 else 0) =
      proc.files.count (some f) + if new = some f then 1 else 0 := by
  have changed := count_set here new (some f)
  simp only [files, count_append]
  omega

theorem count_files_vmas {v : Vma} (here : proc.vmas[i]? = some v) (v' : Vma) (sz f : Nat) :
    ({ proc with vmas := proc.vmas.set i v', sz := sz }.files).count (some f) +
        (if (if v.used then v.f else none) = some f then 1 else 0) =
      proc.files.count (some f) + if (if v'.used then v'.f else none) = some f then 1 else 0 := by
  have mapped : (proc.vmas.map fun v => if v.used then v.f else none)[i]? =
      some (if v.used then v.f else none) := by
    rw [getElem?_map, here]
    rfl
  have changed := count_set mapped (if v'.used then v'.f else none) (some f)
  simp only [files, count_append, map_set]
  omega

theorem ofile_mem_files (here : proc.ofile[fd]?.join = some f) :
    proc.ofile[fd]? = some (some f) ∧ some f ∈ proc.files := by
  have entry := join_eq_some_iff.mp here
  exact ⟨entry, mem_append_left _ (mem_of_getElem? entry)⟩

theorem filedup_open (positive : 0 < ref f) : filedup ref f = some (update ref f (ref f + 1)) :=
  if_neg (by omega)

theorem fileclose_open (positive : 0 < ref f) : fileclose ref f = some (update ref f (ref f - 1)) :=
  if_neg (by omega)

theorem count_files_fdalloc (free : fdalloc proc.ofile = some fd) (f g : Nat) :
    ({ proc with ofile := proc.ofile.set fd (some f) }.files).count (some g) =
      proc.files.count (some g) + if f = g then 1 else 0 := by
  simpa using count_files_ofile (fdalloc_some free) (some f) g

variable (inv : Inv s) (here : s.procs p = some proc)
include inv here

theorem sysOpen_inv {opened writable : Bool}
    (ran : sysOpen s p proc opened writable = some s') : Inv s' := by
  unfold sysOpen at ran
  split at ran
  · cases ran
    exact inv
  split at ran
  · cases ran
    exact inv
  rename_i f allocated
  have closed : s.ref f = 0 := by simpa using find?_some allocated
  simp only at ran
  split at ran
  · have positive : 0 < update s.ref f 1 f := by simp
    have back : update s.ref f 0 = s.ref := by rw [← closed, update_eq_self]
    rw [fileclose_open positive, update_self, update_idem, Nat.sub_self, back] at ran
    cases ran
    exact inv
  rename_i fd free
  cases ran
  have inv' : Inv { s with writable := update s.writable f writable } :=
    ⟨inv.counted, inv.regions⟩
  have added := inv'.addRef here (count_files_fdalloc free f) (inv.regions p proc here)
  simpa only [closed] using added

theorem sysDup_inv (ran : sysDup s p proc fd = some s') : Inv s' := by
  unfold sysDup at ran
  split at ran
  · cases ran
    exact inv
  rename_i f entry
  split at ran
  · cases ran
    exact inv
  rename_i new free
  rw [filedup_open (ref_pos inv here (ofile_mem_files entry).2)] at ran
  cases ran
  exact inv.addRef here (count_files_fdalloc free f) (inv.regions p proc here)

theorem sysClose_inv (ran : sysClose s p proc fd = some s') : Inv s' := by
  unfold sysClose at ran
  split at ran
  · cases ran
    exact inv
  rename_i f entry
  obtain ⟨there, member⟩ := ofile_mem_files entry
  rw [fileclose_open (ref_pos inv here member)] at ran
  cases ran
  refine inv.dropRef here (fun g => ?_) (inv.regions p proc here)
  simpa using count_files_ofile there none g

variable {vmas : List Vma} {length : Int}

omit inv here in
theorem regions_set {v : Vma} (regions : ∀ u ∈ vmas, u.used = u.f.isSome)
    (new : v.used = v.f.isSome) : ∀ u ∈ vmas.set i v, u.used = u.f.isSome := by
  intro u member
  rcases mem_or_eq_of_mem_set member with old | rfl
  · exact regions u old
  · exact new

theorem sysMmap_inv {prot : Prot} {shared : Bool}
    (ran : sysMmap s p proc length prot shared fd = some s') : Inv s' := by
  unfold sysMmap at ran
  split at ran
  · cases ran
  rename_i f entry
  split at ran
  · cases ran
    exact inv
  split at ran
  · cases ran
    exact inv
  rename_i i free
  obtain ⟨v, there, unused⟩ := findIdx_some free
  have notUsed : v.used = false := by simpa using unused
  rw [filedup_open (ref_pos inv here (ofile_mem_files entry).2)] at ran
  cases ran
  refine inv.addRef here (fun g => ?_) (regions_set (inv.regions p proc here) rfl)
  simpa [notUsed, newVma] using
    count_files_vmas there (newVma proc.sz length prot shared f) (proc.sz + roundLength length) g

theorem sysMunmap_inv {addr : Nat} (ran : sysMunmap s p proc addr length = some s') : Inv s' := by
  unfold sysMunmap at ran
  split at ran
  · cases ran
    exact inv
  rename_i i v found
  obtain ⟨j, hit, mapped⟩ := bind_eq_some_iff.mp found
  obtain ⟨w, there, same⟩ := map_eq_some_iff.mp mapped
  cases same
  obtain ⟨_, also, covers⟩ := findIdx_some hit
  cases there.symm.trans also
  have used : v.used = true := by
    rw [Vma.covers, Bool.and_eq_true] at covers
    exact covers.1
  have hasFile := inv.regions p proc here v (mem_of_getElem? there)
  rw [used] at hasFile
  obtain ⟨f, file⟩ := isSome_iff_exists.mp hasFile.symm
  have counts (g : Nat) := count_files_vmas there (unmapVma v length) proc.sz g
  simp only [used, file, ↓reduceIte, Option.some.injEq] at counts
  simp only at ran
  split at ran
  · rename_i still
    cases ran
    have kept : unmapVma v length = { v with npages := takePages v.npages (munmapPages length) } := by
      rw [unmapVma] at still ⊢
      split at still
      · cases still
      · rename_i left
        rw [if_neg left]
    refine inv.setProc here (fun g => ?_) (regions_set (inv.regions p proc here) ?_)
    · have same := counts g
      rw [kept] at same ⊢
      simp only [used, file, ↓reduceIte, Option.some.injEq] at same ⊢
      omega
    · rw [kept]
      simp [used, file]
  · rename_i gone
    have cleared : unmapVma v length = unusedVma := by
      rw [unmapVma] at gone ⊢
      split at gone
      · rename_i none
        rw [if_pos none]
      · exact absurd used gone
    have member : some f ∈ proc.files := by
      refine mem_append_right _ (List.mem_map.mpr ⟨v, mem_of_getElem? there, ?_⟩)
      rw [if_pos used, file]
    rw [file] at ran
    simp only [fileclose_open (ref_pos inv here member), map_some] at ran
    cases ran
    refine inv.dropRef here (fun g => ?_) (regions_set (inv.regions p proc here) ?_)
    · have lost := counts g
      rw [cleared] at lost ⊢
      simpa [unusedVma] using lost
    · rw [cleared]
      rfl

omit inv here in
theorem map_file_eq (regions : ∀ v ∈ vmas, v.used = v.f.isSome) :
    vmas.map Vma.f = vmas.map fun v => if v.used then v.f else none := by
  refine map_congr_left fun v member => ?_
  have same := regions v member
  cases file : v.f with
  | none => simp
  | some f => simp [same, file]

theorem ref_pos_vmas (f : Nat) (member : some f ∈ proc.vmas.map Vma.f) : 0 < s.ref f := by
  rw [map_file_eq (inv.regions p proc here)] at member
  exact ref_pos inv here (mem_append_right _ member)

/-- A fork that fails in `uvmcopy` leaves the references that it took for the regions. -/
theorem fork_noMemory (free : s.procs np = none) : fork s proc np .noMemory =
      some { s with ref := fun f => s.ref f + (proc.vmas.map Vma.f).count (some f) } := by
  simp [fork, free, dupFiles_eq (ref_pos_vmas inv here)]

theorem fork_cases (ran : fork s proc np ended = some s') :
    s' = s ∨ (ended = .noMemory ∧ s.procs np = none ∧
      s' = { s with ref := fun f => s.ref f + (proc.vmas.map Vma.f).count (some f) }) ∨
    (ended = .done ∧ s.procs np = none ∧
      s' = { s with ref := fun f => s.ref f + proc.files.count (some f) }.setProc np
        (some proc)) := by
  unfold fork at ran
  split at ran
  · cases ran
    exact .inl rfl
  rename_i taken
  simp only [not_or, not_not] at taken
  have ofiles : ∀ f, some f ∈ proc.ofile →
      0 < s.ref f + (proc.vmas.map Vma.f).count (some f) := fun f member =>
    Nat.add_pos_left (ref_pos inv here (mem_append_left _ member)) _
  rw [dupFiles_eq (ref_pos_vmas inv here), bind_some] at ran
  split at ran
  · rename_i failed
    cases ran
    exact .inr (.inl ⟨failed, taken.2, rfl⟩)
  rename_i copied
  rw [dupFiles_eq ofiles] at ran
  cases ran
  have done : ended = .done := by
    cases ended
    · exact absurd rfl taken.1
    · exact absurd rfl copied
    · rfl
  refine .inr (.inr ⟨done, taken.2, ?_⟩)
  congr 2
  funext f
  rw [files, count_append, map_file_eq (inv.regions p proc here)]
  omega

theorem exit_eq :
    exit s p proc = some ({ s with ref := fun f => s.ref f - proc.ofile.count (some f) }.setProc p
      none) := by
  have within : ∀ f, proc.ofile.count (some f) ≤ s.ref f := by
    intro f
    have all := count_le_ref inv here f
    rw [files, count_append] at all
    omega
  rw [exit, closeFiles_eq within]
  rfl

omit inv here

def Unmapped (s : Files) (p : Fin nproc) : Prop :=
  ∀ proc, s.procs p = some proc → ∀ v ∈ proc.vmas, v.used = false

theorem unmapped_iff (regions : ∀ v ∈ vmas, v.used = v.f.isSome) :
    (∀ v ∈ vmas, v.used = false) ↔ ∀ f, (vmas.map Vma.f).count (some f) = 0 := by
  constructor
  · intro unused f
    refine count_eq_zero.mpr fun member => ?_
    obtain ⟨v, inList, file⟩ := List.mem_map.mp member
    have same := regions v inList
    rw [unused v inList, file] at same
    cases same
  · intro none v inList
    rw [regions v inList]
    cases file : v.f with
    | none => rfl
    | some f =>
      have member : some f ∈ vmas.map Vma.f := List.mem_map.mpr ⟨v, inList, file⟩
      exact absurd member (count_eq_zero.mp (none f))

end Calls

/-! ## Runs -/

/-- A process exits, and a fork fails in `uvmcopy`, only while the process has no mapped region. -/
def MayCall (s : Files) : FileCall → Prop
  | .exit p => Unmapped s p
  | .fork p np .noMemory => s.procs np = none → Unmapped s p
  | _ => True

section Steps
variable {s s' : Files} {p : Fin nproc}

theorem call_inv {run : Proc → Option Files} (inv : Inv s)
    (keeps : ∀ {proc}, s.procs p = some proc → run proc = some s' → Inv s')
    (ran : call s p run = some s') : Inv s' := by
  unfold call at ran
  split at ran
  · cases ran
    exact inv
  · rename_i proc here
    exact keeps here ran

variable {proc : Proc}

section
variable (inv : Inv s) (here : s.procs p = some proc)
include inv here

theorem fork_inv (may : MayCall s (.fork p np ended)) (ran : fork s proc np ended = some s') :
    Inv s' := by
  rcases fork_cases inv here ran with rfl | ⟨rfl, free, rfl⟩ | ⟨rfl, free, rfl⟩
  · exact inv
  · have none := (unmapped_iff (inv.regions p proc here)).mp (may free proc here)
    refine ⟨fun f => ?_, inv.regions⟩
    change s.ref f + _ = s.held f
    rw [none f, inv.counted f, Nat.add_zero]
  · refine inv.put (fun f => ?_) fun _ same => Option.some.inj same ▸ inv.regions p proc here
    rw [free]
    rfl

/-- What `exit` leaves: the references of the regions that were in use. -/
theorem exit_surplus (ran : exit s p proc = some s') (f : Nat) :
    s'.ref f = s'.held f + (proc.vmas.map Vma.f).count (some f) := by
  rw [exit_eq inv here] at ran
  cases ran
  have moved := held_setProc (s := s) (p := p) none (fun f => s.ref f - proc.ofile.count (some f)) f
  have before := inv.counted f
  have all := count_le_ref inv here f
  rw [here] at moved
  rw [map_file_eq (inv.regions p proc here)]
  simp only [refsTo, Option.elim, files, count_append] at moved all
  change s.ref f - _ = _
  omega

theorem exit_inv (may : Unmapped s p) (ran : exit s p proc = some s') : Inv s' := by
  have none := (unmapped_iff (inv.regions p proc here)).mp (may proc here)
  rw [exit_eq inv here] at ran
  cases ran
  refine inv.put (fun f => ?_) nofun
  have all := count_le_ref inv here f
  rw [here]
  simp only [refsTo, Option.elim, files, count_append,
    ← map_file_eq (inv.regions p proc here), none f] at all ⊢
  omega

end

variable {c : FileCall}

theorem fileCall_inv (inv : Inv s) (may : MayCall s c) (ran : fileCall s c = some s') : Inv s' := by
  cases c with
  | «open» p opened writable => exact call_inv inv (fun here => sysOpen_inv inv here) ran
  | dup p fd => exact call_inv inv (fun here => sysDup_inv inv here) ran
  | close p fd => exact call_inv inv (fun here => sysClose_inv inv here) ran
  | mmap p length prot shared fd => exact call_inv inv (fun here => sysMmap_inv inv here) ran
  | munmap p addr length => exact call_inv inv (fun here => sysMunmap_inv inv here) ran
  | fork p np ended => exact call_inv inv (fun here => fork_inv inv here may) ran
  | exit p => exact call_inv inv (fun here => exit_inv inv here may) ran

theorem mayCall_of_referenced (inv : Inv s) (good : ∀ s', fileCall s c = some s' → Referenced s') :
    MayCall s c := by
  cases c with
  | exit p =>
    intro proc here
    have ran : fileCall s (.exit p) = exit s p proc := by simp [fileCall, call, here]
    have done := exit_eq inv here
    refine (unmapped_iff (inv.regions p proc here)).mpr fun f => ?_
    have surplus := exit_surplus inv here done f
    have right := (good _ (ran.trans done) f).1
    omega
  | fork p np ended =>
    cases ended with
    | noMemory =>
      intro free proc here
      have ran : fileCall s (.fork p np .noMemory) = fork s proc np .noMemory := by
        simp [fileCall, call, here]
      have done := fork_noMemory inv here free
      refine (unmapped_iff (inv.regions p proc here)).mpr fun f => ?_
      have before := inv.counted f
      have right := (good _ (ran.trans done) f).1
      change s.ref f + _ = s.held f at right
      omega
    | noProc | done => trivial
  | _ => trivial

end Steps

/-- The calls meet the condition exactly if the counts are right in every state that the run
reaches. -/
theorem file_refs_iff (s : Files) (start : Inv s) (calls : List FileCall) :
    RunMeets fileStep (fun s c => ∀ t, s = some t → MayCall t c) (some s) calls ↔
      ∀ pre, pre <+: calls → ∀ t, pre.foldl fileStep (some s) = some t → Referenced t := by
  refine run_exact fileStep _ (fun s => ∀ t, s = some t → Inv t)
    (fun s => ∀ t, s = some t → Referenced t) (fun s inv t here => (inv t here).referenced)
    ?_ ?_ calls (some s) (fun t here => Option.some.inj here ▸ start)
  · intro s c inv may t ran
    obtain ⟨before, rfl, ran⟩ := bind_eq_some_iff.mp ran
    exact fileCall_inv (inv before rfl) (may before rfl) ran
  · rintro s c inv good t rfl
    exact mayCall_of_referenced (inv t rfl) good

def bootFiles : Files :=
  { ref := fun _ => 0, writable := fun _ => false,
    procs := fun p => if p.val = 0 then
      some ⟨replicate nofile none, replicate nvma unusedVma, pgSize⟩ else none }

theorem bootFiles_inv : Inv bootFiles where
  counted := by
    intro f
    refine (total_eq_zero fun p => ?_).symm
    simp only [bootFiles]
    split
    · simp [refsTo, files, map_replicate, unusedVma, count_replicate]
    · rfl
  regions := by
    intro p proc here v member
    simp only [bootFiles] at here
    split at here
    · cases here
      rw [eq_of_mem_replicate member]
      rfl
    · cases here

theorem one_lt_nproc : 1 < nproc := by decide

def initproc : Fin nproc := ⟨0, Nat.lt_of_succ_lt one_lt_nproc⟩

def child : Fin nproc := ⟨1, one_lt_nproc⟩

def mapFile : List FileCall :=
  [.fork initproc child .done, .open child true true,
    .mmap child 4096 ⟨true, true, false⟩ true 0]

def mapAndUnmap : List FileCall := mapFile ++ [.munmap child 4096 4096, .exit child]

theorem file_refs_mapAndUnmap : Inv bootFiles ∧
      ∃ t, mapAndUnmap.foldl fileStep (some bootFiles) = some t ∧ Referenced t := by
  have meets : RunMeets fileStep (fun s c => ∀ t, s = some t → MayCall t c) (some bootFiles)
      mapAndUnmap := by
    refine ⟨fun _ _ => trivial, fun _ _ => trivial, fun _ _ => trivial, fun _ _ => trivial,
      fun t here proc there v member => ?_, trivial⟩
    have unmapped : ((mapFile ++ [FileCall.munmap child 4096 4096]).foldl fileStep
        (some bootFiles)).all
        (fun t => (t.procs child).all fun proc => proc.vmas.all fun v => !v.used) = true := by
      decide +kernel
    have ran : (mapFile ++ [FileCall.munmap child 4096 4096]).foldl fileStep (some bootFiles) =
        some t := here
    rw [ran] at unmapped
    simp only [all_some, there, List.all_eq_true, Bool.not_eq_true'] at unmapped
    exact unmapped v member
  have runs : (mapAndUnmap.foldl fileStep (some bootFiles)).isSome = true := by decide +kernel
  obtain ⟨t, run⟩ := isSome_iff_exists.mp runs
  exact ⟨bootFiles_inv, t, run,
    (file_refs_iff bootFiles bootFiles_inv _).mp meets mapAndUnmap prefix_rfl t run⟩

/-- A child maps a file and exits: the count stays at 1 and nobody refers to the file. -/
theorem exit_keeps_reference :
    ((mapFile ++ [FileCall.exit child]).foldl fileStep (some bootFiles)).map
      (fun t => (t.ref 0, t.held 0)) = some (1, 0) := by
  decide +kernel

end KernelLabs.Xv6.Mmap
