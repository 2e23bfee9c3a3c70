import KernelLabs.Xv6.Lazy

/-!
# Panics of the lazy-allocation lab

One process that accesses its memory, changes its size, has the kernel copy from and to it, and
exits, with every address, size and stack pointer of its choice.  Its mapped pages stay below
`PGROUNDUP(p->sz)` and the kernel does not panic, unless it faults on the guard page above its stack
pointer or `growproc` wraps around.
-/

set_option autoImplicit false

namespace KernelLabs.Xv6.Lazy

open Lib Function Option

inductive Machine where
  | panicked
  | exited
  | running (p : Proc)

inductive Op where
  | access (access : Access) (addr sp : Nat) (grant : Grant)
  | sbrk (n : Int)
  | copyin (srcva len sp : Nat) (grant : Nat → Grant)
  | copyout (dstva : Nat) (src : List UInt8) (sp : Nat) (grant : Nat → Grant)
  | copyinstr (srcva max sp : Nat) (grant : Nat → Grant)
  | exit

/-- `exit`, up to the `freeproc` of the parent. -/
def exit (p : Proc) : Machine := (uvmfree p).elim .panicked fun _ => .exited

def afterCall {R : Type} : Option (Proc × R) → Machine
  | none => .panicked
  | some (p, _) => .running p

def runOp (p : Proc) : Op → Machine
  | .access access addr sp grant =>
    match userAccess access p addr sp grant with
    | none => .panicked
    | some (p, .killed) => exit p
    | some (p, _) => .running p
  | .sbrk n => .running (growproc p n)
  | .copyin srcva len sp grant => afterCall (copyin (walkaddr sp grant) p srcva len)
  | .copyout dstva src sp grant => afterCall (copyout (walkaddr sp grant) p dstva src)
  | .copyinstr srcva max sp grant => afterCall (copyinstr (walkaddr sp grant) p srcva max)
  | .exit => exit p

def step : Machine → Op → Machine
  | .running p, op => runOp p op
  | .panicked, _ => .panicked
  | .exited, _ => .exited

/-! ## The invariant -/

def Bounded (p : Proc) : Prop := ∀ v, (p.pages v).isSome → v < pageCount p.sz

def Safe : Machine → Prop
  | .panicked => False
  | .exited => True
  | .running p => Bounded p

def Inv : Machine → Prop
  | .panicked => False
  | .exited => True
  | .running p => Bounded p ∧ p.sz < uintRange

/-- A fault on the guard page is not between the stack pointer and the size while there is memory; a
size that wraps around stays above the mapped pages. -/
def Guarded : Machine → Op → Prop
  | .running p, .access _ addr sp grant =>
    ∀ page, p.pages (addr / pgSize) = some page → page.user = false → sp < addr → addr < p.sz →
      grant = .noPage
  | .running p, .sbrk n =>
    0 < n → p.sz + n < uintRange ∨
      ∀ v, (p.pages v).isSome → v < pageCount ((p.sz + n) % uintRange).toNat
  | _, _ => True

variable {pages : PageTable}

theorem uvmunmap_isSome {first npages v : Nat} :
    (uvmunmap pages first npages v).isSome ↔ ¬(first ≤ v ∧ v < first + npages) ∧ (pages v).isSome := by
  unfold uvmunmap
  split <;> simp [*]

theorem uvmdealloc_isSome {oldsz newsz v : Nat}
    (mapped : ((uvmdealloc pages oldsz newsz).1 v).isSome) :
    (pages v).isSome ∧ (v < pageCount oldsz → v < pageCount (uvmdealloc pages oldsz newsz).2) := by
  unfold uvmdealloc at mapped ⊢
  by_cases grows : oldsz ≤ newsz
  · rw [if_pos grows] at mapped ⊢
    exact ⟨mapped, id⟩
  rw [if_neg grows] at mapped ⊢
  by_cases fewer : pgRoundUp newsz < pgRoundUp oldsz
  · rw [if_pos fewer] at mapped ⊢
    obtain ⟨outside, mapped⟩ := uvmunmap_isSome.mp mapped
    refine ⟨mapped, fun below => ?_⟩
    simp only [pgRoundUp_eq, pgSize] at outside ⊢
    omega
  · rw [if_neg fewer] at mapped ⊢
    refine ⟨mapped, fun below => ?_⟩
    simp only [pgRoundUp_eq, pgSize] at fewer ⊢
    omega

theorem uvmdealloc_size_le (pages : PageTable) (oldsz newsz : Nat) :
    (uvmdealloc pages oldsz newsz).2 ≤ oldsz := by
  unfold uvmdealloc
  split
  · exact Nat.le_refl oldsz
  · split <;> exact Nat.le_of_not_le ‹_›

theorem freewalk_empty (empty : ∀ v, ¬(pages v).isSome) (n : Nat) : freewalk pages n = some () := by
  refine if_neg fun leaf => ?_
  obtain ⟨v, -, mapped⟩ := hasLeaf_iff.mp leaf
  exact empty v mapped

variable {p : Proc}

theorem uvmfree_of_bounded (bounded : Bounded p) : uvmfree p = some () := by
  rw [uvmfree]
  refine freewalk_empty (fun v mapped => ?_) _
  split at mapped
  · obtain ⟨outside, mapped⟩ := uvmunmap_isSome.mp mapped
    have below := bounded v mapped
    omega
  · have below := lt_pageCount.mp (bounded v mapped)
    omega

theorem exit_of_bounded (bounded : Bounded p) : exit p = .exited := by
  rw [exit, uvmfree_of_bounded bounded, elim_some]

/-! ## What each step keeps -/

theorem mapZero_mapped {va : Nat} {page : Page} (mapped : p.pages (va / pgSize) = some page)
    (grant : Grant) : mapZero p va grant = none := by
  simp [mapZero, mappages, mapped]

theorem mapZero_unmapped {va : Nat} (unmapped : p.pages (va / pgSize) = none)
    (below : va / pgSize < pageCount p.sz) (bounded : Bounded p) (grant : Grant) :
    ∃ p' mapped, mapZero p va grant = some (p', mapped) ∧ p'.sz = p.sz ∧ Bounded p' ∧
      (mapped = true → p'.pages (va / pgSize) = some zeroPage) := by
  by_cases granted : grant = .granted
  · refine ⟨{ p with pages := update p.pages (va / pgSize) (some zeroPage) }, true, ?_, rfl,
      fun v mapped => ?_, fun _ => by simp⟩
    · simp [mapZero, mappages, unmapped, granted]
    · by_cases here : v = va / pgSize
      · rw [here]
        exact below
      · simp only [update_of_ne here] at mapped
        exact bounded v mapped
  · refine ⟨{ p with pages := (uvmdealloc p.pages (va + pgSize) va).1 }, false, ?_, rfl,
      fun v mapped => bounded v (uvmdealloc_isSome mapped).1, nofun⟩
    simp [mapZero, mappages, unmapped, granted]

/-- What a copy needs of `walkaddr`: it does not panic, and the page that it finds is mapped. -/
def Walks (walk : Proc → Nat → Option (Proc × Option Page)) : Prop :=
  ∀ p va, Bounded p → ∃ p' found, walk p va = some (p', found) ∧ p'.sz = p.sz ∧ Bounded p' ∧
    ∀ page, found = some page → va / pgSize < pageCount p.sz

theorem walkaddr_walks (sp : Nat) (grant : Nat → Grant) : Walks (walkaddr sp grant) := by
  intro p va bounded
  unfold walkaddr
  by_cases high : maxva ≤ va
  · exact ⟨p, none, by rw [if_pos high], rfl, bounded, nofun⟩
  rw [if_neg high]
  cases entry : p.pages (va / pgSize) with
  | some page =>
    refine ⟨p, if page.user then some page else none, rfl, rfl, bounded, fun _ _ => ?_⟩
    exact bounded (va / pgSize) (by simp [entry])
  | none =>
    by_cases outside : p.sz ≤ va ∨ va ≤ sp
    · exact ⟨p, none, by simp [outside], rfl, bounded, nofun⟩
    by_cases empty : grant (va / pgSize) = .noPage
    · exact ⟨p, none, by simp [outside, empty], rfl, bounded, nofun⟩
    · have below : va / pgSize < pageCount p.sz := page_lt_pageCount (by omega)
      obtain ⟨p', mapped, run, size, kept, -⟩ :=
        mapZero_unmapped entry below bounded (grant (va / pgSize))
      refine ⟨p', if mapped then some zeroPage else none, ?_, size, kept, fun _ _ => below⟩
      simp [outside, empty, run]

theorem setPage_ne {v w : Nat} (other : w ≠ v) (p : Proc) (page : Page) :
    (p.setPage v page).pages w = p.pages w :=
  update_of_ne other _ _

theorem setPage_bounded (bounded : Bounded p) {v : Nat} (below : v < pageCount p.sz) (page : Page) :
    Bounded (p.setPage v page) := by
  intro w mapped
  by_cases here : w = v
  · rw [here]
    exact below
  · rw [setPage_ne here] at mapped
    exact bounded w mapped

theorem copyLoop_bounded {R : Type} {walk : Proc → Nat → Option (Proc × Option Page)}
    (walks : Walks walk) (piece : Page → Nat → Nat → R → Page × R × Bool) (rounds : Nat)
    (bounded : Bounded p) (va len : Nat) (r : R) :
    ∃ p' r' last, copyLoop walk piece rounds p va len r = some (p', r', last) ∧ p'.sz = p.sz ∧
      Bounded p' := by
  induction rounds generalizing p va len r with
  | zero => exact ⟨p, r, .finished, rfl, rfl, bounded⟩
  | succ rounds ih =>
    rw [copyLoop]
    split
    · exact ⟨p, r, .finished, rfl, rfl, bounded⟩
    obtain ⟨q, found, run, size, kept, mapped⟩ := walks p (pgRoundDown va) bounded
    rw [run, bind_some]
    cases found with
    | none => exact ⟨q, r, .refused, rfl, size, kept⟩
    | some page =>
      have below : va / pgSize < pageCount q.sz := by
        rw [size, ← pgRoundDown_page]
        exact mapped page rfl
      simp only
      split
      · exact ⟨_, _, .stopped, rfl, size, setPage_bounded kept below _⟩
      · obtain ⟨last, r', ended, result, sizes, final⟩ := ih (setPage_bounded kept below _) _ _ _
        exact ⟨last, r', ended, result, sizes.trans size, final⟩

theorem growproc_inv (bounded : Bounded p) (small : p.sz < uintRange) (n : Int) :
    (growproc p n).sz < uintRange ∧
      (Bounded (growproc p n) ↔ (0 < n → p.sz + n < uintRange ∨
        ∀ v, (p.pages v).isSome → v < pageCount ((p.sz + n) % uintRange).toNat)) := by
  unfold growproc
  by_cases grows : 0 < n
  · rw [if_pos grows]
    have range : ((p.sz + n) % uintRange).toNat < uintRange := by
      simp only [uintRange]
      omega
    refine ⟨range, fun kept _ => .inr kept, fun allowed v mapped => ?_⟩
    rcases allowed grows with within | above
    · have same : ((p.sz + n) % uintRange).toNat = p.sz + n.toNat := by
        simp only [uintRange] at *
        omega
      have below := lt_pageCount.mp (bounded v mapped)
      refine lt_pageCount.mpr ?_
      simp only [same]
      omega
    · exact above v mapped
  · rw [if_neg grows]
    have size : p.sz % uintRange = p.sz := Nat.mod_eq_of_lt small
    by_cases shrinks : n < 0
    · rw [if_pos shrinks, size]
      refine ⟨?_, fun _ positive => absurd positive grows, fun _ v mapped => ?_⟩
      · exact Nat.lt_of_le_of_lt (uvmdealloc_size_le _ _ _) small
      · obtain ⟨before, below⟩ := uvmdealloc_isSome mapped
        exact below (bounded v before)
    · rw [if_neg shrinks, size]
      exact ⟨small, fun _ positive => absurd positive grows, fun _ => bounded⟩

variable {access : Access}

theorem usertrap_inv (bounded : Bounded p) (small : p.sz < uintRange) {addr : Nat}
    (missing : p.userPage (addr / pgSize) = none) (sp : Nat) (grant : Grant) :
    Inv (runOp p (.access access addr sp grant)) ↔
      (sp < addr → addr < p.sz → (p.pages (addr / pgSize)).isSome → grant = .noPage) := by
  have killed : Inv (exit p) := by
    rw [exit_of_bounded bounded]
    trivial
  simp only [runOp, userAccess, missing, usertrap]
  by_cases outside : p.sz ≤ addr ∨ addr ≤ sp
  · simp only [if_pos outside, map_some, if_true]
    refine iff_of_true killed fun above within => ?_
    omega
  by_cases empty : grant = .noPage
  · simp only [if_neg outside, if_pos empty, map_some, if_true]
    exact iff_of_true killed fun _ _ _ => empty
  simp only [if_neg outside, if_neg empty]
  have page : pgRoundDown addr / pgSize = addr / pgSize := pgRoundDown_page addr
  cases entry : p.pages (addr / pgSize) with
  | some other =>
    have mapped : p.pages (pgRoundDown addr / pgSize) = some other := by rw [page, entry]
    rw [mapZero_mapped mapped]
    refine iff_of_false id fun all => empty (all ?_ ?_ rfl) <;> omega
  | none =>
    have below : pgRoundDown addr / pgSize < pageCount p.sz := by
      rw [page]
      exact page_lt_pageCount (by omega)
    obtain ⟨p', mapped, run, size, kept, -⟩ :=
      mapZero_unmapped (by rw [page, entry]) below bounded grant
    have small' : p'.sz < uintRange := by omega
    rw [run]
    exact iff_of_true ⟨kept, small'⟩ nofun

theorem userAccess_inv (bounded : Bounded p) (small : p.sz < uintRange) (access : Access)
    (addr sp : Nat) (grant : Grant) : Inv (runOp p (.access access addr sp grant)) ↔
      Guarded (.running p) (.access access addr sp grant) := by
  cases entry : p.pages (addr / pgSize) with
  | none =>
    rw [usertrap_inv bounded small (by simp [Proc.userPage, entry])]
    exact iff_of_true (by simp [entry]) (by simp [Guarded, entry])
  | some page =>
    cases user : page.user with
    | false =>
      rw [usertrap_inv bounded small (by simp [Proc.userPage, entry, user])]
      simp [Guarded, entry, user]
    | true =>
      have found : p.userPage (addr / pgSize) = some page := by simp [Proc.userPage, entry, user]
      have below := bounded (addr / pgSize) (by simp [entry])
      simp only [runOp, userAccess, found]
      exact iff_of_true ⟨setPage_bounded bounded below _, small⟩ (by simp [Guarded, entry, user])

theorem copy_inv {R T : Type} (bounded : Bounded p) (small : p.sz < uintRange) (sp : Nat)
    (grant : Nat → Grant) (piece : Page → Nat → Nat → R → Page × R × Bool) (rounds va len : Nat)
    (r : R) (result : R → CopyEnd → T) :
    Inv (afterCall ((copyLoop (walkaddr sp grant) piece rounds p va len r).map
      fun (p, r, last) => (p, result r last))) := by
  obtain ⟨p', r', last, run, size, kept⟩ :=
    copyLoop_bounded (walkaddr_walks sp grant) piece rounds bounded va len r
  have small' : p'.sz < uintRange := by omega
  rw [run]
  exact ⟨kept, small'⟩

variable {m : Machine}

theorem step_inv (inv : Inv m) (op : Op) : Inv (step m op) ↔ Guarded m op := by
  cases m with
  | panicked => exact inv.elim
  | exited => exact iff_of_true trivial trivial
  | running p =>
    obtain ⟨bounded, small⟩ := inv
    cases op with
    | access access addr sp grant => exact userAccess_inv bounded small access addr sp grant
    | sbrk n =>
      obtain ⟨small', kept⟩ := growproc_inv bounded small n
      exact ⟨fun inv => kept.mp inv.1, fun guarded => ⟨kept.mpr guarded, small'⟩⟩
    | copyin srcva len sp grant =>
      exact iff_of_true (copy_inv bounded small sp grant readPiece len srcva len []
        fun dst last => if last = .finished then some dst else none) trivial
    | copyout dstva src sp grant =>
      exact iff_of_true (copy_inv bounded small sp grant writePiece src.length dstva src.length src
        fun _ last => decide (last = .finished)) trivial
    | copyinstr srcva max sp grant =>
      exact iff_of_true (copy_inv bounded small sp grant stringPiece max srcva max []
        fun dst last => if last = .stopped then some dst else none) trivial
    | exit =>
      have gone : step (.running p) .exit = .exited := exit_of_bounded bounded
      rw [gone]
      exact iff_of_true trivial trivial

theorem Inv.safe (inv : Inv m) : Safe m := by
  cases m with
  | panicked => exact inv
  | exited => trivial
  | running p => exact inv.1

theorem userAccess_size {p' : Proc} {addr sp : Nat} {grant : Grant} {attempt : Attempt}
    (run : userAccess access p addr sp grant = some (p', attempt)) : p'.sz = p.sz := by
  unfold userAccess at run
  split at run
  · cases run
    rfl
  obtain ⟨⟨q, killed⟩, trap, same⟩ := map_eq_some_iff.mp run
  cases same
  unfold usertrap at trap
  split at trap
  · cases trap
    rfl
  split at trap
  · cases trap
    rfl
  · obtain ⟨⟨r, mapped⟩, map, same⟩ := map_eq_some_iff.mp trap
    cases same
    obtain ⟨⟨pages, done⟩, -, same⟩ := map_eq_some_iff.mp map
    cases done <;> cases same <;> rfl

theorem exit_inv (safe : Safe (exit p)) : Inv (exit p) := by
  rw [exit] at safe ⊢
  generalize uvmfree p = freed at safe ⊢
  cases freed with
  | none => exact safe
  | some _ => trivial

theorem step_safe (inv : Inv m) {op : Op} (safe : Safe (step m op)) : Guarded m op := by
  cases m with
  | panicked => exact inv.elim
  | exited => trivial
  | running p =>
    cases op with
    | access access addr sp grant =>
      refine (userAccess_inv inv.1 inv.2 access addr sp grant).mp ?_
      simp only [step, runOp] at safe ⊢
      split at safe
      · exact safe.elim
      · exact exit_inv safe
      · rename_i q attempt notKilled run
        refine ⟨safe, ?_⟩
        rw [userAccess_size run]
        exact inv.2
    | sbrk n => exact (growproc_inv inv.1 inv.2 n).2.mp safe
    | copyin | copyout | copyinstr | exit => trivial

/-- The kernel does not panic and the pages stay bounded in exactly the runs whose steps are
guarded. -/
theorem lazy_safe_iff (p : Proc) (bounded : Bounded p) (small : p.sz < uintRange) (ops : List Op) :
    RunMeets step Guarded (.running p) ops ↔ ∀ pre, pre <+: ops → Safe (pre.foldl step (.running p)) := by
  refine run_exact step Guarded Inv Safe (fun m inv => inv.safe) (fun m op inv met => ?_)
    (fun m op inv safe => ?_) ops (.running p) ⟨bounded, small⟩
  · exact (step_inv inv op).mpr met
  · exact step_safe inv safe

def smallImage : Proc where
  sz := 12288
  pages v := if v = 0 ∨ v = 2 then some zeroPage else if v = 1 then some ⟨false, fun _ => 0⟩ else none

theorem smallImage_bounded : Bounded smallImage := by
  intro v mapped
  have below : v < 3 := by
    by_contra above
    have missing : smallImage.pages v = none := by
      simp only [smallImage]
      rw [if_neg (by omega), if_neg (by omega)]
    simp [missing] at mapped
  exact below

theorem guarded_exit (m : Machine) : Guarded m .exit := by
  cases m <;> trivial

/-- It grows, uses a new page, shrinks and exits. -/
theorem smallImage_grows : RunMeets step Guarded (.running smallImage)
        [.sbrk 8192, .access (.store 7) 16400 12000 .granted, .sbrk (-8192), .exit] ∧
      ∀ pre, pre <+: [.sbrk 8192, .access (.store 7) 16400 12000 .granted, .sbrk (-8192), .exit] →
        Safe (pre.foldl step (.running smallImage)) := by
  have guarded : RunMeets step Guarded (.running smallImage)
      [.sbrk 8192, .access (.store 7) 16400 12000 .granted, .sbrk (-8192), .exit] := by
    refine ⟨fun _ => .inl (by decide), fun page mapped => ?_, nofun, guarded_exit _, trivial⟩
    cases mapped
  exact ⟨guarded, (lazy_safe_iff smallImage smallImage_bounded (by decide) _).mp guarded⟩

/-- A store to the guard page with a stack pointer below it panics, and two calls of `sbrk` that add up
to 4 GiB leave pages above size 0. -/
theorem smallImage_unsafe :
    [Op.access (.store 7) 4096 0 .granted].foldl step (.running smallImage) = .panicked ∧
      ¬Safe ([Op.sbrk 2147483647, .sbrk 2147471361].foldl step (.running smallImage)) := by
  refine ⟨rfl, fun safe => ?_⟩
  have below : 0 < pageCount 0 := safe 0 rfl
  exact absurd below (by decide)

end KernelLabs.Xv6.Lazy
