import KernelLabs.Xv6.LazySafety

/-!
# Lazy and eager allocation

Processes that access their memory, change their size, have the kernel copy from and to it and fork,
on the machine of the lazy-allocation lab and on one that maps zeroed pages in `growproc` and kills a
process at every fault.  `kalloc` does not fail.  Both machines give the same answers as long as no
page that is still to be mapped is used at or below the stack pointer or beyond the size.
-/

set_option autoImplicit false

namespace KernelLabs.Xv6.Lazy

open Lib Function Option Proc

/-! ## The two machines -/

structure Paging where
  access : Access → Proc → Nat → Nat → Option (Proc × Attempt)
  grow : Proc → Int → Proc
  walk : Nat → Proc → Nat → Option (Proc × Option Page)

def lazyAccess (access : Access) (p : Proc) (addr sp : Nat) : Option (Proc × Attempt) :=
  (userAccess access p addr sp .granted).bind fun (p, attempt) =>
    if attempt = .again then userAccess access p addr sp .granted else some (p, attempt)

def lazyPaging : Paging where
  access := lazyAccess
  grow := growproc
  walk sp := walkaddr sp fun _ => .granted

def eagerAccess (access : Access) (p : Proc) (addr : Nat) : Proc × Attempt :=
  match p.userPage (addr / pgSize) with
  | some page =>
    let (page, byte) := access.perform page (addr % pgSize)
    (p.setPage (addr / pgSize) page, .done byte)
  | none => (p, .killed)

def eagerGrow (p : Proc) (n : Int) : Proc :=
  if 0 < n then
    let newsz := ((p.sz + n) % uintRange).toNat
    { sz := newsz
      pages := fun v =>
        if pageCount p.sz ≤ v ∧ v < pageCount newsz then some zeroPage else p.pages v }
  else growproc p n

def eagerWalk (p : Proc) (va : Nat) : Option Page :=
  if maxva ≤ va then none else p.userPage (va / pgSize)

def eagerPaging : Paging where
  access access p addr _ := some (eagerAccess access p addr)
  grow := eagerGrow
  walk _ p va := some (p, eagerWalk p va)

/-- `uvmcopy`: the pages below the size that are mapped. -/
def uvmcopy (p : Proc) : Proc :=
  { p with pages := fun v => if v < pageCount p.sz then p.pages v else none }

inductive Call where
  | access (access : Access) (addr sp : Nat)
  | sbrk (n : Int)
  | copyin (srcva len sp : Nat)
  | copyout (dstva : Nat) (src : List UInt8) (sp : Nat)
  /-- `child` is the process that `allocproc` finds. -/
  | fork (child : Option Nat)

/-- What the user sees: the byte, the end of the process, or the result of the system call; `none`
if the process does not run or the kernel has panicked. -/
inductive Answer where
  | done (byte : UInt8)
  | killed
  | brk (addr : Nat)
  | bytes (dst : Option (List UInt8))
  | copied (ok : Bool)
  | child (pid : Option Nat)
  | none
  deriving DecidableEq, Repr

/-- The processes; `none` is a kernel that has panicked. -/
abbrev System := Option (Nat → Option Proc)

def goOn {R : Type} (procs : Nat → Option Proc) (pid : Nat) (answer : R → Answer) :
    Option (Proc × R) → System × Answer
  | none => (none, .none)
  | some (p, r) => (some (update procs pid (some p)), answer r)

def kill (procs : Nat → Option Proc) (pid : Nat) (p : Proc) : System × Answer :=
  ((uvmfree p).map fun _ => update procs pid none, .killed)

def forkProc (procs : Nat → Option Proc) (p : Proc) : Option Nat → System × Answer
  | none => (some procs, .child none)
  | some child =>
    if (procs child).isSome then (some procs, .child none)
    else (some (update procs child (some (uvmcopy p))), .child (some child))

def answerCall (m : Paging) (procs : Nat → Option Proc) (pid : Nat) (p : Proc) :
    Call → System × Answer
  | .access access addr sp =>
    match m.access access p addr sp with
    | some (p, .killed) => kill procs pid p
    | some (p, .done byte) => (some (update procs pid (some p)), .done byte)
    | some (p, .again) => (some (update procs pid (some p)), .none)
    | none => (none, .none)
  | .sbrk n => (some (update procs pid (some (m.grow p n))), .brk p.sz)
  | .copyin srcva len sp => goOn procs pid .bytes (copyin (m.walk sp) p srcva len)
  | .copyout dstva src sp => goOn procs pid .copied (copyout (m.walk sp) p dstva src)
  | .fork child => forkProc procs p child

def systemStep (m : Paging) (s : System) (op : Nat × Call) : System × Answer :=
  match s with
  | none => (none, .none)
  | some procs =>
    match procs op.1 with
    | none => (some procs, .none)
    | some p => answerCall m procs op.1 p op.2

/-! ## The eager process that a lazy one stands for -/

def Proc.filled (p : Proc) : Proc :=
  { p with pages := fun v => (p.pages v).or (if v < pageCount p.sz then some zeroPage else none) }

def Full (p : Proc) : Prop := ∀ v, (p.pages v).isSome ↔ v < pageCount p.sz

theorem Full.filled {p : Proc} (full : Full p) : p.filled = p := by
  refine Proc.ext rfl (funext fun v => ?_)
  cases entry : p.pages v with
  | some page => simp [Proc.filled, entry]
  | none =>
    have above : ¬v < pageCount p.sz := by
      rw [← full v]
      simp [entry]
    simp [Proc.filled, entry, above]

theorem filled_setPage (p : Proc) (v : Nat) (page : Page) :
    (p.setPage v page).filled = p.filled.setPage v page := by
  refine Proc.ext rfl (funext fun w => ?_)
  by_cases here : w = v
  · subst here
    simp [filled, setPage]
  · simp only [filled, setPage, update_of_ne here]
    rfl

variable {addr sp v : Nat}

theorem filled_map {p : Proc} (unmapped : p.pages v = none) (below : v < pageCount p.sz) :
    (p.setPage v zeroPage).filled = p.filled := by
  have page : p.filled.pages v = some zeroPage := by simp [filled, unmapped, below]
  have same : update p.filled.pages v (some zeroPage) = p.filled.pages := by
    rw [← page, update_eq_self]
  rw [filled_setPage, setPage, same]

theorem filled_userPage {p : Proc} (entry : p.pages v = none) :
    p.filled.userPage v = if v < pageCount p.sz then some zeroPage else none := by
  by_cases below : v < pageCount p.sz <;> simp [userPage, filled, entry, below, zeroPage]

variable {page : Page}

theorem filled_userPage_of_some {p : Proc} (entry : p.pages v = some page) :
    p.filled.userPage v = p.userPage v := by
  simp [userPage, filled, entry]

/-! ## What may be used -/

/-- A page that is still to be mapped is accessed above the stack pointer and below the size, and the
guard page is not accessed there. -/
def AccessAllowed (p : Proc) (addr sp : Nat) : Prop :=
  match p.pages (addr / pgSize) with
  | none => addr / pgSize < pageCount p.sz → sp < addr ∧ addr < p.sz
  | some page => page.user = false → ¬(sp < addr ∧ addr < p.sz)

theorem accessAllowed_user {p : Proc} (found : p.userPage (addr / pgSize) = some page) :
    AccessAllowed p addr sp := by
  obtain ⟨entry, mapped, user⟩ := bind_eq_some_iff.mp found
  simp only [AccessAllowed, mapped]
  intro notUser
  simp [notUser] at user

def Usable (p : Proc) (v : Nat) : Prop :=
  (p.userPage v).isSome ∨ p.pages v = none ∧ v < pageCount p.sz

def CopyAllowed (p : Proc) (sp va len : Nat) : Prop :=
  ∀ v, va / pgSize ≤ v → v * pgSize < va + len → (∀ u, va / pgSize ≤ u → u < v → Usable p u) →
    p.pages v = none → v < pageCount p.sz → sp < v * pgSize

def CallAllowed (p : Proc) : Call → Prop
  | .access _ addr sp => AccessAllowed p addr sp
  | .copyin srcva len sp => CopyAllowed p sp srcva len
  | .copyout dstva src sp => CopyAllowed p sp dstva src.length
  | .sbrk _ => True
  | .fork _ => True

def CallSized (p : Proc) : Call → Prop
  | .sbrk n => 0 ≤ p.sz + n ∧ p.sz + n < 2147483648
  | _ => True

def OfCaller (cond : Proc → Call → Prop) (s : System) (op : Nat × Call) : Prop :=
  ∀ p, (s.bind fun procs => procs op.1) = some p → cond p op.2

/-! ## One process -/

theorem uvmdealloc_filled {p : Proc} {newsz : Nat} (less : newsz < p.sz) :
    filled ⟨newsz, (uvmdealloc p.pages p.sz newsz).1⟩ =
      ⟨newsz, (uvmdealloc p.filled.pages p.sz newsz).1⟩ := by
  refine Proc.ext rfl (funext fun v => ?_)
  have mono : pageCount newsz ≤ pageCount p.sz := pageCount_mono (Nat.le_of_lt less)
  simp only [uvmdealloc, if_neg (Nat.not_le.mpr less), pgRoundUp_eq]
  by_cases fewer : pageCount newsz * pgSize < pageCount p.sz * pgSize
  · simp only [if_pos fewer, filled, uvmunmap]
    have count : (pageCount p.sz * pgSize - pageCount newsz * pgSize) / pgSize =
        pageCount p.sz - pageCount newsz := by
      simp only [pgSize]
      omega
    rw [count]
    by_cases freed : pageCount newsz ≤ v ∧ v < pageCount newsz + (pageCount p.sz - pageCount newsz)
    · rw [if_pos freed, if_pos freed, if_neg (by omega)]
      rfl
    · rw [if_neg freed, if_neg freed]
      have same : v < pageCount newsz ↔ v < pageCount p.sz := by omega
      simp only [same]
  · have same : pageCount newsz = pageCount p.sz := by
      simp only [pgSize] at fewer
      omega
    simp only [if_neg fewer]
    simp only [filled, same]

theorem eagerGrow_filled {p : Proc} (bounded : Bounded p) (small : p.sz < uintRange) {n : Int}
    (range : 0 ≤ p.sz + n) (range' : p.sz + n < 2147483648) :
    (growproc p n).filled = eagerGrow p.filled n := by
  have newsz : ((p.sz + n) % uintRange).toNat = (p.sz + n).toNat := by
    simp only [uintRange]
    omega
  have size : p.filled.sz = p.sz := rfl
  have sz : p.sz % uintRange = p.sz := Nat.mod_eq_of_lt small
  unfold eagerGrow growproc
  rw [size, newsz, sz]
  by_cases grows : 0 < n
  · simp only [if_pos grows]
    refine Proc.ext rfl (funext fun v => ?_)
    have more : p.sz < (p.sz + n).toNat := by omega
    cases entry : p.pages v with
    | some page =>
      have below := bounded v (by simp [entry])
      simp only [filled, entry, some_or]
      rw [if_neg (by omega)]
    | none =>
      simp only [filled, entry, none_or, lt_pageCount, ← Nat.not_lt]
      by_cases below : v * pgSize < p.sz
      · have within : v * pgSize < (p.sz + n).toNat := by omega
        simp [below, within]
      · simp [below]
  · simp only [if_neg grows]
    by_cases shrinks : n < 0
    · simp only [if_pos shrinks]
      have less : (p.sz + n).toNat < p.sz := by omega
      have sizes : ∀ pages : PageTable,
          (uvmdealloc pages p.sz (p.sz + n).toNat).2 = (p.sz + n).toNat := by
        intro pages
        unfold uvmdealloc
        rw [if_neg (Nat.not_le.mpr less)]
        split <;> rfl
      rw [sizes, sizes]
      exact uvmdealloc_filled less
    · simp only [if_neg shrinks]
      rfl

theorem mapZero_granted {p : Proc} {va : Nat} (unmapped : p.pages (va / pgSize) = none) :
    mapZero p va .granted = some (p.setPage (va / pgSize) zeroPage, true) := by
  simp [mapZero, mappages, unmapped, setPage]

variable {access : Access}

theorem userAccess_user {p : Proc} {grant : Grant}
    (found : p.userPage (addr / pgSize) = some page) : userAccess access p addr sp grant =
      some (p.setPage (addr / pgSize) (access.perform page (addr % pgSize)).1,
        .done (access.perform page (addr % pgSize)).2) := by
  simp only [userAccess, found]

theorem eagerAccess_user {p : Proc} (found : p.userPage (addr / pgSize) = some page) :
    eagerAccess access p addr =
      (p.setPage (addr / pgSize) (access.perform page (addr % pgSize)).1,
        .done (access.perform page (addr % pgSize)).2) := by
  simp only [eagerAccess, found]

theorem lazyAccess_killed {p : Proc} (missing : p.userPage (addr / pgSize) = none)
    (outside : p.sz ≤ addr ∨ addr ≤ sp) (access : Access) :
    lazyAccess access p addr sp = some (p, .killed) := by
  simp [lazyAccess, userAccess, missing, usertrap, outside]

theorem lazyAccess_filled {p : Proc} (bounded : Bounded p) (allowed : AccessAllowed p addr sp)
    (access : Access) :
    ∃ p' attempt, lazyAccess access p addr sp = some (p', attempt) ∧ p'.sz = p.sz ∧ Bounded p' ∧
      eagerAccess access p.filled addr = (p'.filled, attempt) := by
  unfold AccessAllowed at allowed
  cases entry : p.pages (addr / pgSize) with
  | some page =>
    have filled := filled_userPage_of_some entry
    have below := bounded (addr / pgSize) (by simp [entry])
    cases user : page.user with
    | true =>
      have found : p.userPage (addr / pgSize) = some page := by simp [userPage, entry, user]
      refine ⟨p.setPage (addr / pgSize) (access.perform page (addr % pgSize)).1,
        .done (access.perform page (addr % pgSize)).2, ?_, rfl,
        setPage_bounded bounded below _, ?_⟩
      · rw [lazyAccess, userAccess_user found]
        rfl
      · rw [eagerAccess_user (filled.trans found), filled_setPage]
    | false =>
      have missing : p.userPage (addr / pgSize) = none := by simp [userPage, entry, user]
      simp only [entry] at allowed
      have outside : p.sz ≤ addr ∨ addr ≤ sp := by
        have := allowed user
        omega
      refine ⟨p, .killed, lazyAccess_killed missing outside access, rfl, bounded, ?_⟩
      simp only [eagerAccess, filled, missing]
  | none =>
    have missing : p.userPage (addr / pgSize) = none := by simp [userPage, entry]
    simp only [entry] at allowed
    by_cases below : addr / pgSize < pageCount p.sz
    · -- the page is mapped and the instruction tried again
      obtain ⟨above, within⟩ := allowed below
      have page : pgRoundDown addr / pgSize = addr / pgSize := pgRoundDown_page addr
      have mapped : mapZero p (pgRoundDown addr) .granted =
          some (p.setPage (addr / pgSize) zeroPage, true) := by
        rw [mapZero_granted (by rw [page, entry]), page]
      have inside : ¬(p.sz ≤ addr ∨ addr ≤ sp) := by omega
      have trapped : userAccess access p addr sp .granted =
          some (p.setPage (addr / pgSize) zeroPage, .again) := by
        simp [userAccess, missing, usertrap, inside, mapped]
      have found : (p.setPage (addr / pgSize) zeroPage).userPage (addr / pgSize) = some zeroPage := by
        simp [userPage, setPage, zeroPage]
      refine ⟨(p.setPage (addr / pgSize) zeroPage).setPage (addr / pgSize)
          (access.perform zeroPage (addr % pgSize)).1,
        .done (access.perform zeroPage (addr % pgSize)).2, ?_, rfl,
        setPage_bounded (setPage_bounded bounded below zeroPage) below _, ?_⟩
      · simp [lazyAccess, trapped, userAccess_user found]
      · rw [eagerAccess_user ((filled_userPage entry).trans (if_pos below)), filled_setPage,
          filled_map entry below]
    · have outside : p.sz ≤ addr := by
        by_contra within
        exact below (page_lt_pageCount (by omega))
      refine ⟨p, .killed, lazyAccess_killed missing (.inl outside) access, rfl, bounded, ?_⟩
      simp only [eagerAccess, filled_userPage entry, if_neg below]

theorem walkaddr_filled {p : Proc} (bounded : Bounded p)
    (allowed : p.pages v = none → v < pageCount p.sz → sp < v * pgSize) :
    ∃ q, walkaddr sp (fun _ => .granted) p (v * pgSize) = some (q, eagerWalk p.filled (v * pgSize)) ∧
      q.filled = p.filled ∧ q.sz = p.sz ∧ Bounded q ∧ (∀ u, u ≠ v → q.pages u = p.pages u) ∧
      ∀ page, eagerWalk p.filled (v * pgSize) = some page → v < pageCount p.sz ∧ Usable p v := by
  have page : v * pgSize / pgSize = v := Nat.mul_div_cancel v (by decide)
  simp only [walkaddr, eagerWalk, page]
  by_cases high : maxva ≤ v * pgSize
  · refine ⟨p, by simp [high], rfl, rfl, bounded, fun _ _ => rfl, fun found same => ?_⟩
    simp [high] at same
  rw [if_neg high, if_neg high]
  cases entry : p.pages v with
  | some found =>
    refine ⟨p, ?_, rfl, rfl, bounded, fun _ _ => rfl, fun other same => ?_⟩
    · rw [filled_userPage_of_some entry]
      simp [userPage, entry]
    · rw [filled_userPage_of_some entry] at same
      exact ⟨bounded v (by simp [entry]), .inl (by simp [same])⟩
  | none =>
    rw [filled_userPage entry]
    by_cases below : v < pageCount p.sz
    · have inside : ¬(p.sz ≤ v * pgSize ∨ v * pgSize ≤ sp) := by
        have above := allowed entry below
        have within := lt_pageCount.mp below
        omega
      refine ⟨p.setPage v zeroPage, ?_, filled_map entry below, rfl,
        setPage_bounded bounded below zeroPage, fun u other => ?_,
        fun _ _ => ⟨below, .inr ⟨entry, below⟩⟩⟩
      · have unmapped : p.pages (v * pgSize / pgSize) = none := by rw [page, entry]
        have mapped := mapZero_granted unmapped
        rw [page] at mapped
        simp [inside, mapped, below]
      · exact setPage_ne other p zeroPage
    · have outside : p.sz ≤ v * pgSize := by
        rw [lt_pageCount] at below
        omega
      refine ⟨p, by simp [outside, below], rfl, rfl, bounded, fun _ _ => rfl, fun _ same => ?_⟩
      simp [below] at same

section Copy
variable {R : Type} (piece : Page → Nat → Nat → R → Page × R × Bool)

theorem CopyAllowed.rest {p q : Proc} {va len : Nat} (allowed : CopyAllowed p sp va len)
    (size : q.sz = p.sz) (usable : Usable p (va / pgSize))
    (others : ∀ u, u ≠ va / pgSize → q.pages u = p.pages u) :
    CopyAllowed q sp (pgRoundDown va + pgSize) (len - min (pgSize - va % pgSize) len) := by
  intro v low high before unmapped below
  have next : (pgRoundDown va + pgSize) / pgSize = va / pgSize + 1 := by
    simp only [pgRoundDown, pgSize]
    omega
  rw [next] at low before
  have within : v * pgSize < va + len := by
    simp only [pgRoundDown, pgSize] at low high ⊢
    omega
  rw [others v (by omega)] at unmapped
  rw [size] at below
  refine allowed v (by omega) within (fun u least less => ?_) unmapped below
  by_cases first : u = va / pgSize
  · rw [first]
    exact usable
  · have same := before u (by omega) less
    simpa [Usable, userPage, others u first, size] using same

theorem copyLoop_filled (rounds : Nat) {p : Proc} (bounded : Bounded p) {va len : Nat}
    (allowed : CopyAllowed p sp va len) (r : R) :
    ∃ p' r' last, copyLoop (lazyPaging.walk sp) piece rounds p va len r = some (p', r', last) ∧
      copyLoop (eagerPaging.walk sp) piece rounds p.filled va len r = some (p'.filled, r', last) ∧
      p'.sz = p.sz ∧ Bounded p' := by
  induction rounds generalizing p va len r with
  | zero => exact ⟨p, r, .finished, rfl, rfl, rfl, bounded⟩
  | succ rounds ih =>
    rw [copyLoop, copyLoop]
    by_cases empty : len = 0
    · rw [if_pos empty, if_pos empty]
      exact ⟨p, r, .finished, rfl, rfl, rfl, bounded⟩
    rw [if_neg empty, if_neg empty]
    have first : p.pages (va / pgSize) = none → va / pgSize < pageCount p.sz →
        sp < va / pgSize * pgSize := by
      refine allowed (va / pgSize) (Nat.le_refl _) ?_ fun u low high => by omega
      simp only [pgSize]
      omega
    obtain ⟨q, run, filled, size, kept, others, usable⟩ := walkaddr_filled bounded first
    have lazyRun : lazyPaging.walk sp p (pgRoundDown va) =
        some (q, eagerWalk p.filled (pgRoundDown va)) := run
    have eagerRun : eagerPaging.walk sp p.filled (pgRoundDown va) =
        some (p.filled, eagerWalk p.filled (pgRoundDown va)) := rfl
    rw [lazyRun, eagerRun, bind_some, bind_some]
    cases found : eagerWalk p.filled (pgRoundDown va) with
    | none => exact ⟨q, r, .refused, rfl, by rw [filled], size, kept⟩
    | some page =>
      obtain ⟨below, use⟩ := usable page found
      have below' : va / pgSize < pageCount q.sz := by rw [size]; exact below
      have next := setPage_bounded kept below'
      simp only [← filled, ← filled_setPage]
      by_cases stop : (piece page (va % pgSize) (min (pgSize - va % pgSize) len) r).2.2 = true
      · simp only [if_pos stop]
        exact ⟨_, _, .stopped, rfl, rfl, size, next _⟩
      simp only [if_neg stop]
      have rest : ∀ page', CopyAllowed (q.setPage (va / pgSize) page') sp
          (pgRoundDown va + pgSize) (len - min (pgSize - va % pgSize) len) := by
        refine fun page' => allowed.rest size use fun u other => ?_
        rw [setPage_ne other, others u other]
      obtain ⟨p', r', last, lazyLoop, eagerLoop, sizes, final⟩ := ih (next _) (rest _) _
      exact ⟨p', r', last, lazyLoop, eagerLoop, sizes.trans size, final⟩

end Copy

/-! ## All processes -/

theorem filled_bounded {p : Proc} (bounded : Bounded p) : Bounded p.filled := by
  intro v mapped
  cases entry : p.pages v with
  | some page => exact bounded v (by simp [entry])
  | none =>
    by_contra above
    have above' : ¬v < pageCount p.sz := above
    simp [filled, entry, above'] at mapped

theorem uvmcopy_bounded (p : Proc) : Bounded (uvmcopy p) := by
  intro v mapped
  by_contra above
  have above' : ¬v < pageCount p.sz := above
  simp [uvmcopy, above'] at mapped

theorem uvmcopy_filled (p : Proc) : (uvmcopy p).filled = uvmcopy p.filled := by
  refine Proc.ext rfl (funext fun v => ?_)
  by_cases below : v < pageCount p.sz <;> simp [uvmcopy, Proc.filled, below]

def filledProcs (procs : Nat → Option Proc) : Nat → Option Proc := fun i => (procs i).map Proc.filled

theorem filledProcs_update (procs : Nat → Option Proc) (pid : Nat) (p : Option Proc) :
    filledProcs (update procs pid p) =
      update (filledProcs procs) pid (p.map filled) := by
  funext i
  by_cases here : i = pid
  · subst here
    simp [filledProcs]
  · simp [filledProcs, here]

def AllBounded (procs : Nat → Option Proc) : Prop :=
  ∀ i p, procs i = some p → Bounded p ∧ p.sz < uintRange

theorem AllBounded.set {procs : Nat → Option Proc} (all : AllBounded procs) {p : Option Proc}
    (bounded : ∀ q, p = some q → Bounded q ∧ q.sz < uintRange) (pid : Nat) :
    AllBounded (update procs pid p) :=
  (forall_update_iff procs fun _ p => ∀ q, p = some q → Bounded q ∧ q.sz < uintRange).mpr
    ⟨bounded, fun i _ => all i⟩

/-- The eager machine is the lazy one with every page mapped. -/
def Related (s t : System) : Prop :=
  ∃ procs, s = some procs ∧ t = some (filledProcs procs) ∧ AllBounded procs

theorem related_update {procs : Nat → Option Proc} (all : AllBounded procs) (pid : Nat) {p : Proc}
    (bounded : Bounded p) (small : p.sz < uintRange) : Related (some (update procs pid (some p)))
      (some (update (filledProcs procs) pid (some p.filled))) := by
  refine ⟨_, rfl, by rw [filledProcs_update]; rfl, all.set (fun q same => ?_) pid⟩
  cases same
  exact ⟨bounded, small⟩

def Alike (lazy eager : System × Answer) : Prop := Related lazy.1 eager.1 ∧ lazy.2 = eager.2

section Caller
variable {procs : Nat → Option Proc} {p : Proc}

section
variable (all : AllBounded procs)
include all

theorem kill_alike (bounded : Bounded p) (pid : Nat) :
    Alike (kill procs pid p) (kill (filledProcs procs) pid p.filled) := by
  unfold kill
  rw [uvmfree_of_bounded bounded, uvmfree_of_bounded (filled_bounded bounded)]
  exact ⟨⟨_, rfl, by rw [filledProcs_update]; rfl, all.set (p := none) nofun pid⟩, rfl⟩

theorem access_alike (bounded : Bounded p) (small : p.sz < uintRange)
    (allowed : AccessAllowed p addr sp) (access : Access) (pid : Nat) :
    Alike (answerCall lazyPaging procs pid p (.access access addr sp))
      (answerCall eagerPaging (filledProcs procs) pid p.filled (.access access addr sp)) := by
  obtain ⟨p', attempt, lazyRun, size, kept, eagerRun⟩ := lazyAccess_filled bounded allowed access
  have small' : p'.sz < uintRange := by omega
  simp only [answerCall, lazyPaging, eagerPaging, lazyRun, eagerRun]
  cases attempt with
  | done | again => exact ⟨related_update all pid kept small', rfl⟩
  | killed => exact kill_alike all kept pid

theorem copy_alike {R T : Type} (bounded : Bounded p) (small : p.sz < uintRange)
    (piece : Page → Nat → Nat → R → Page × R × Bool) (rounds : Nat) {va len : Nat}
    (allowed : CopyAllowed p sp va len) (r : R) (result : R → CopyEnd → T) (answer : T → Answer)
    (pid : Nat) :
    Alike (goOn procs pid answer ((copyLoop (lazyPaging.walk sp) piece rounds p va len r).map
        fun (p, r, last) => (p, result r last)))
      (goOn (filledProcs procs) pid answer ((copyLoop (eagerPaging.walk sp) piece rounds p.filled va
        len r).map fun (p, r, last) => (p, result r last))) := by
  obtain ⟨p', r', last, lazyRun, eagerRun, size, kept⟩ := copyLoop_filled piece rounds bounded allowed r
  have small' : p'.sz < uintRange := by omega
  rw [lazyRun, eagerRun]
  exact ⟨related_update all pid kept small', rfl⟩

theorem fork_alike (small : p.sz < uintRange) (child : Option Nat) :
    Alike (forkProc procs p child) (forkProc (filledProcs procs) p.filled child) := by
  cases child with
  | none => exact ⟨⟨procs, rfl, rfl, all⟩, rfl⟩
  | some child =>
    have used : (filledProcs procs child).isSome = (procs child).isSome := by simp [filledProcs]
    simp only [forkProc, used]
    by_cases taken : (procs child).isSome = true
    · rw [if_pos taken, if_pos taken]
      exact ⟨⟨procs, rfl, rfl, all⟩, rfl⟩
    · rw [if_neg taken, if_neg taken, ← uvmcopy_filled]
      exact ⟨related_update all child (uvmcopy_bounded p) small, rfl⟩

theorem answerCall_alike (bounded : Bounded p) (small : p.sz < uintRange)
    {call : Call} (sized : CallSized p call) (allowed : CallAllowed p call) (pid : Nat) :
    Alike (answerCall lazyPaging procs pid p call)
      (answerCall eagerPaging (filledProcs procs) pid p.filled call) := by
  cases call with
  | access access addr sp => exact access_alike all bounded small allowed access pid
  | sbrk n =>
    obtain ⟨small', kept⟩ := growproc_inv bounded small n
    have within : p.sz + n < uintRange := by
      simp only [uintRange]
      have := sized.2
      omega
    have grown := eagerGrow_filled bounded small sized.1 sized.2
    simp only [answerCall, lazyPaging, eagerPaging, ← grown]
    exact ⟨related_update all pid (kept.mpr fun _ => .inl within) small', rfl⟩
  | copyin srcva len sp =>
    exact copy_alike all bounded small readPiece len allowed []
      (fun dst last => if last = .finished then some dst else none) .bytes pid
  | copyout dstva src sp =>
    exact copy_alike all bounded small writePiece src.length allowed src
      (fun _ last => decide (last = .finished)) .copied pid
  | fork child => exact fork_alike all small child

end

end Caller

theorem systemStep_alike {s t : System} {op : Nat × Call} (related : Related s t)
    (sized : OfCaller CallSized s op) (allowed : OfCaller CallAllowed s op) :
    Alike (systemStep lazyPaging s op) (systemStep eagerPaging t op) := by
  obtain ⟨procs, rfl, rfl, all⟩ := related
  cases caller : procs op.1 with
  | none =>
    have absent : filledProcs procs op.1 = none := by simp [filledProcs, caller]
    simp only [systemStep, caller, absent]
    exact ⟨⟨procs, rfl, rfl, all⟩, rfl⟩
  | some p =>
    have present : filledProcs procs op.1 = some p.filled := by simp [filledProcs, caller]
    obtain ⟨bounded, small⟩ := all op.1 p caller
    simp only [systemStep, caller, present]
    exact answerCall_alike all bounded small (sized p caller) (allowed p caller) op.1

/-- From processes whose pages are all mapped, both machines give the same answers. -/
theorem lazy_answers_eager (procs : Nat → Option Proc)
    (full : ∀ i p, procs i = some p → Full p ∧ p.sz < uintRange) (ops : List (Nat × Call))
    (sized : RunMeets (fun s op => (systemStep lazyPaging s op).1) (OfCaller CallSized) (some procs) ops)
    (allowed : RunMeets (fun s op => (systemStep lazyPaging s op).1) (OfCaller CallAllowed) (some procs)
      ops) :
    outputs (systemStep lazyPaging) (some procs) ops =
      outputs (systemStep eagerPaging) (some procs) ops := by
  refine outputs_eq _ _ _ Related (fun s t op related met => ?_) ops _ _ ?_ (sized.and allowed)
  · exact systemStep_alike related met.1 met.2
  refine ⟨procs, rfl, congrArg some (funext fun i => ?_), fun i p found => ?_⟩
  · cases found : procs i with
    | none => simp [filledProcs, found]
    | some p => simp [filledProcs, found, (full i p found).1.filled]
  · obtain ⟨all, small⟩ := full i p found
    exact ⟨fun v mapped => (all v).mp mapped, small⟩

def oneProc : Nat → Option Proc := fun i => if i = 0 then some smallImage else none

theorem oneProc_full (i : Nat) (p : Proc) (found : oneProc i = some p) :
    Full p ∧ p.sz < uintRange := by
  have image : smallImage = p := by
    unfold oneProc at found
    split at found
    · exact Option.some.inj found
    · cases found
  subst image
  refine ⟨fun v => ⟨smallImage_bounded v, fun below => ?_⟩, by decide⟩
  have cases : v = 0 ∨ v = 1 ∨ v = 2 := by
    have := lt_pageCount.mp below
    simp only [smallImage, pgSize] at this
    omega
  rcases cases with rfl | rfl | rfl <;> rfl

def growAndFork : List (Nat × Call) :=
  [(0, .sbrk 8192), (0, .access (.store 7) 16400 12000), (0, .fork (some 1)),
    (1, .access .load 16400 12000)]

theorem lazy_answers_growAndFork : outputs (systemStep lazyPaging) (some oneProc) growAndFork =
        [.brk 12288, .done 7, .child (some 1), .done 7] ∧
      outputs (systemStep lazyPaging) (some oneProc) growAndFork =
        outputs (systemStep eagerPaging) (some oneProc) growAndFork := by
  refine ⟨by decide +kernel, lazy_answers_eager oneProc oneProc_full growAndFork ?_ ?_⟩
  · refine ⟨fun p caller => ?_, fun _ _ => trivial, fun _ _ => trivial, fun _ _ => trivial, trivial⟩
    have image : smallImage = p := Option.some.inj caller
    subst image
    exact ⟨by decide, by decide⟩
  refine ⟨fun _ _ => trivial, fun p caller => ?_, fun _ _ => trivial, fun p caller => ?_, trivial⟩
  · have grown : growproc smallImage 8192 = p := Option.some.inj caller
    subst grown
    exact fun _ => ⟨by decide, by decide⟩
  · have user : ∃ page, p.userPage (16400 / pgSize) = some page := by
      rw [← Option.some.inj caller]
      exact ⟨_, rfl⟩
    obtain ⟨page, found⟩ := user
    exact accessAllowed_user found

/-- A byte of the last page beyond the size, and a byte of a new page below the stack pointer. -/
theorem lazy_kills :
    outputs (systemStep lazyPaging) (some oneProc) [(0, .sbrk 100), (0, .access .load 12400 12000)] =
        [.brk 12288, .killed] ∧
      outputs (systemStep eagerPaging) (some oneProc) [(0, .sbrk 100), (0, .access .load 12400 12000)] =
        [.brk 12288, .done 0] ∧
      outputs (systemStep lazyPaging) (some oneProc) [(0, .sbrk 8192), (0, .copyin 12288 1 16000)] =
        [.brk 12288, .bytes none] ∧
      outputs (systemStep eagerPaging) (some oneProc) [(0, .sbrk 8192), (0, .copyin 12288 1 16000)] =
        [.brk 12288, .bytes (some [0])] := by
  decide +kernel

end KernelLabs.Xv6.Lazy
