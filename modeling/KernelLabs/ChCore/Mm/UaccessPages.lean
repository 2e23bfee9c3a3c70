import KernelLabs.ChCore.Mm.Uaccess

/-!
# The pages a copy touches

`transform_vaddr` commits a page to an anonymous pmo where none was, and maps it at the page it
was called for.  Over a whole range, the translations move no byte of any pmo and change none:
what they commit is zero.  They succeed if and only if the range stays inside the pmos and there
are pages enough, one for each page of a pmo that is missing.
-/

set_option autoImplicit false

namespace KernelLabs.ChCore

open Lib Function List Option UserVm

/-- Where the byte `off` of the pmo `p` stands in memory.  The registers behind a device pmo are
not in memory. -/
def byteAddr (s : UserVm) (p off : Nat) : Option Nat :=
  match (s.pmo p).type with
  | .data => if off < (s.pmo p).size then some ((s.pmo p).start + off) else none
  | .anonym | .shm | .file =>
    if (s.pmo p).radix (off / pageSize) = 0 then none
    else some ((s.pmo p).radix (off / pageSize) + off % pageSize)
  | _ => none

/-- The byte `off` of the pmo `p`; where no page is committed it is 0. -/
def pmoByte (s : UserVm) (p off : Nat) : UInt8 := (byteAddr s p off).elim 0 s.mem

def Private (s : UserVm) (p : Nat) : Prop := (s.pmo p).type = .data ∨ (s.pmo p).type = .anonym

/-- Regions begin at pages and are disjoint; data regions fit their pmos; each byte of a data or
anonymous pmo has its own place; free pages are pages, and not in use. -/
structure UserVmOk (s : UserVm) : Prop where
  regions : PageRegions s.regions
  backed : ∀ r ∈ s.regions, (s.pmo r.pmo).type = .data → r.size ≤ (s.pmo r.pmo).size
  single : ∀ p q off off' x, Private s p → Private s q → byteAddr s p off = some x →
    byteAddr s q off' = some x → p = q ∧ off = off'
  nodup : s.freePages.Nodup
  aligned : ∀ pa ∈ s.freePages, pa % pageSize = 0
  nonzero : ∀ pa ∈ s.freePages, pa ≠ 0
  unused : ∀ pa ∈ s.freePages, ∀ p off x, byteAddr s p off = some x →
    ¬ (pa ≤ x ∧ x < pa + pageSize)
  unmapped : ∀ pa ∈ s.freePages, ∀ va, s.pgtbl va ≠ some pa

/-! ## One translation -/

theorem byteAddr_of_anonym {s : UserVm} {p : Nat} (type : (s.pmo p).type = .anonym) (off : Nat) :
    byteAddr s p off = if (s.pmo p).radix (off / pageSize) = 0 then none
      else some ((s.pmo p).radix (off / pageSize) + off % pageSize) := by
  simp only [byteAddr, type]

theorem byteAddr_commit {s : UserVm} {va p index pa : Nat} {rest : List Nat}
    (type : (s.pmo p).type = .anonym) (nonzero : pa ≠ 0) (q off : Nat) :
    byteAddr (s.commit va p index pa rest) q off =
      if q = p ∧ off / pageSize = index then some (pa + off % pageSize) else byteAddr s q off := by
  by_cases same : q = p
  · subst same
    have type' : ((s.commit va q index pa rest).pmo q).type = .anonym := (commit_type ..).trans type
    rw [byteAddr_of_anonym type', byteAddr_of_anonym type]
    by_cases here : off / pageSize = index
    · simp [here, commit_radix, nonzero]
    · have other : ((s.commit va q index pa rest).pmo q).radix (off / pageSize) =
          (s.pmo q).radix (off / pageSize) := by
        simp [commit, commitPageToPmo, update_of_ne here]
      have apart : ¬ (q = q ∧ off / pageSize = index) := fun both => here both.2
      rw [other, if_neg apart]
  · have apart : ¬ (q = p ∧ off / pageSize = index) := fun both => same both.1
    rw [if_neg apart]
    simp only [byteAddr, commit, update_of_ne same]

theorem private_commit {s : UserVm} {va p index pa : Nat} {rest : List Nat} {q : Nat} :
    Private (s.commit va p index pa rest) q ↔ Private s q := by
  unfold Private
  rw [commit_type]

theorem UserVmOk.commit {s : UserVm} (ok : UserVmOk s) {va p index pa : Nat} {rest : List Nat}
    (type : (s.pmo p).type = .anonym) (free : s.freePages = pa :: rest) :
    UserVmOk (s.commit va p index pa rest) := by
  have member : pa ∈ s.freePages := by simp [free]
  have nonzero := ok.nonzero pa member
  have still : ∀ pa' ∈ rest, pa' ∈ s.freePages := fun pa' inside => by simp [free, inside]
  have fresh : pa ∉ rest ∧ rest.Nodup := nodup_cons.mp (free ▸ ok.nodup)
  have inPage : ∀ off, pa ≤ pa + off % pageSize ∧ pa + off % pageSize < pa + pageSize := fun off =>
    ⟨Nat.le_add_right _ _, Nat.add_lt_add_left (Nat.mod_lt _ (by decide)) _⟩
  refine ⟨ok.regions, ?_, ?_, fresh.2, fun pa' inside => ok.aligned pa' (still pa' inside),
    fun pa' inside => ok.nonzero pa' (still pa' inside), ?_, ?_⟩
  · intro r inside data
    rw [commit_size]
    exact ok.backed r inside ((commit_type ..).symm.trans data)
  · intro q q' off off' x first second one other
    rw [private_commit] at first second
    rw [byteAddr_commit type nonzero] at one other
    by_cases here : q = p ∧ off / pageSize = index
    · rw [if_pos here] at one
      by_cases there : q' = p ∧ off' / pageSize = index
      · rw [if_pos there] at other
        have equal : off % pageSize = off' % pageSize := by
          simp only [Option.some.injEq] at one other
          omega
        refine ⟨here.1.trans there.1.symm, ?_⟩
        rw [← Nat.div_add_mod off pageSize, ← Nat.div_add_mod off' pageSize, here.2, there.2, equal]
      · rw [if_neg there] at other
        cases one
        exact absurd (inPage off) (ok.unused pa member q' off' _ other)
    · rw [if_neg here] at one
      by_cases there : q' = p ∧ off' / pageSize = index
      · rw [if_pos there] at other
        cases other
        exact absurd (inPage off') (ok.unused pa member q off _ one)
      · rw [if_neg there] at other
        exact ok.single q q' off off' x first second one other
  · intro pa' inside q off x stands overlap
    rw [byteAddr_commit type nonzero] at stands
    by_cases here : q = p ∧ off / pageSize = index
    · rw [if_pos here] at stands
      cases stands
      have apart : pa' ≠ pa := fun same => fresh.1 (same ▸ inside)
      have first := ok.aligned pa member
      have second := ok.aligned pa' (still pa' inside)
      have within := inPage off
      simp only [pageSize] at *
      omega
    · rw [if_neg here] at stands
      exact ok.unused pa' (still pa' inside) q off x stands overlap
  · intro pa' inside va' mapped
    have apart : pa' ≠ pa := fun same => fresh.1 (same ▸ inside)
    by_cases here : va' = va
    · subst here
      simp only [UserVm.commit, update_self, Option.some.injEq] at mapped
      exact apart mapped.symm
    · simp only [UserVm.commit, update_of_ne here] at mapped
      exact ok.unmapped pa' (still pa' inside) va' mapped

/-- The pmo and the index of the page that a translation of `a` has to commit. -/
def missing (s : UserVm) (a : Nat) : Option (Nat × Nat) :=
  (findVmr s.regions a).bind fun r =>
    if (s.pmo r.pmo).type = .anonym ∧ (s.pmo r.pmo).radix ((a - r.start) / pageSize) = 0 then
      some (r.pmo, (a - r.start) / pageSize)
    else none

section Region
variable {s s₁ : UserVm} {a x : Nat} {r : Vmregion}

theorem pageIndex_eq (aligned : r.start % pageSize = 0) (start : r.start ≤ a) (small : a < 2 ^ 64) :
    subU64 (roundDown a) r.start = roundDown a - r.start ∧
      pageIndex r a = (a - r.start) / pageSize ∧ (a - r.start) % pageSize = a % pageSize := by
  have below : r.start ≤ roundDown a := by
    unfold roundDown pageSize at *
    omega
  have sub : subU64 (roundDown a) r.start = roundDown a - r.start := by
    have upper : roundDown a ≤ a := Nat.div_mul_le_self ..
    unfold subU64
    omega
  refine ⟨sub, ?_, ?_⟩
  · rw [pageIndex, sub]
    unfold roundDown pageSize at *
    omega
  · unfold pageSize at *
    omega

structure UserAt (s : UserVm) (a : Nat) (r : Vmregion) : Prop where
  found : findVmr s.regions a = some r
  type : Private s r.pmo
  small : a < 2 ^ 64

/-- An anonymous region does not reach beyond the pages of its pmo there. -/
def InsidePmo (s : UserVm) (a : Nat) (r : Vmregion) : Prop :=
  (s.pmo r.pmo).type = .anonym → roundDown a - r.start < (s.pmo r.pmo).size

theorem missing_of_data (found : findVmr s.regions a = some r)
    (type : (s.pmo r.pmo).type = .data) : missing s a = none := by
  simp [missing, found, type]

theorem missing_of_anonym (found : findVmr s.regions a = some r)
    (type : (s.pmo r.pmo).type = .anonym) :
    missing s a = if (s.pmo r.pmo).radix ((a - r.start) / pageSize) = 0 then
      some (r.pmo, (a - r.start) / pageSize) else none := by
  simp [missing, found, type]

inductive Touch (s : UserVm) (a : Nat) (r : Vmregion) : UserVm → Prop
  | stays (present : missing s a = none) : Touch s a r s
  | commits (pa : Nat) (rest : List Nat) (anonym : (s.pmo r.pmo).type = .anonym)
      (absent : missing s a = some (r.pmo, (a - r.start) / pageSize))
      (free : s.freePages = pa :: rest) :
      Touch s a r (s.commit (roundDown a) r.pmo ((a - r.start) / pageSize) pa rest)

theorem transformVaddr_touch (ok : UserVmOk s) (user : UserAt s a r)
    (done : transformVaddr s a = some (s₁, x)) :
    InsidePmo s a r ∧ Touch s a r s₁ ∧ byteAddr s₁ r.pmo (a - r.start) = some x := by
  obtain ⟨member, covers⟩ := findVmr_eq_some user.found
  obtain ⟨sub, index, mod⟩ := pageIndex_eq (ok.regions.aligned r member) covers.1 user.small
  rcases user.type with data | anonym
  · rw [transformVaddr_data user.found data] at done
    cases done
    have within : a - r.start < (s.pmo r.pmo).size := by
      have size := ok.backed r member data
      have upper := covers.2
      have lower := covers.1
      omega
    refine ⟨fun anonym => by simp [data] at anonym, .stays (missing_of_data user.found data), ?_⟩
    simp only [byteAddr, data, if_pos within]
  · obtain ⟨inside, rest⟩ := transformVaddr_anonym user.found anonym done
    rw [index] at rest
    refine ⟨fun _ => sub ▸ inside, ?_⟩
    rcases rest with ⟨present, rfl, rfl⟩ | ⟨absent, pa, rest, free, nonzero, rfl, rfl⟩
    · refine ⟨.stays ?_, ?_⟩
      · rw [missing_of_anonym user.found anonym, if_neg present]
      · rw [byteAddr_of_anonym anonym, if_neg present, mod]
    · refine ⟨.commits pa rest anonym ?_ free, ?_⟩
      · rw [missing_of_anonym user.found anonym, if_pos absent]
      · rw [byteAddr_commit anonym nonzero, if_pos ⟨rfl, rfl⟩, mod]

theorem transformVaddr_isSome (ok : UserVmOk s) (user : UserAt s a r) (inside : InsidePmo s a r)
    (room : missing s a = none ∨ s.freePages ≠ []) : ∃ p, transformVaddr s a = some p := by
  obtain ⟨member, covers⟩ := findVmr_eq_some user.found
  obtain ⟨sub, index, mod⟩ := pageIndex_eq (ok.regions.aligned r member) covers.1 user.small
  rcases user.type with data | anonym
  · exact ⟨_, transformVaddr_data user.found data⟩
  have within := inside anonym
  rw [← sub] at within
  by_cases absent : (s.pmo r.pmo).radix (pageIndex r a) = 0
  · rw [missing_of_anonym user.found anonym, ← index, if_pos absent] at room
    rcases room with never | some
    · cases never
    · obtain ⟨pa, rest, free⟩ := exists_cons_of_ne_nil some
      have nonzero := ok.nonzero pa (by simp [free])
      rw [transformVaddr_missing user.found anonym within absent, allocUserPage, free]
      simp [nonzero]
  · exact ⟨_, transformVaddr_committed user.found anonym within absent⟩

/-- A translation does not read memory: with other contents it does the same, and zeroes the same
page. -/
theorem transformVaddr_withMem (m : Nat → UInt8) (user : UserAt s a r)
    (done : transformVaddr s a = some (s₁, x)) :
    ∃ m', transformVaddr (s.withMem m) a = some (s₁.withMem m', x) ∧
      ∀ y, (m' y = m y ∧ s₁.mem y = s.mem y) ∨
        (m' y = s₁.mem y ∧ ∃ pa ∈ s.freePages, pa ≤ y ∧ y < pa + pageSize) := by
  rcases user.type with data | anonym
  · rw [transformVaddr_data user.found data] at done
    cases done
    exact ⟨m, transformVaddr_data (s := s.withMem m) user.found data, fun y => .inl ⟨rfl, rfl⟩⟩
  obtain ⟨inside, ⟨present, rfl, rfl⟩ | ⟨absent, pa, rest, free, nonzero, rfl, rfl⟩⟩ :=
    transformVaddr_anonym user.found anonym done
  · exact ⟨m, transformVaddr_committed (s := s₁.withMem m) user.found anonym inside present,
      fun y => .inl ⟨rfl, rfl⟩⟩
  refine ⟨memcpy m pa (fun _ => 0) 0 pageSize, ?_, ?_⟩
  · rw [transformVaddr_missing (s := s.withMem m) user.found anonym inside absent,
      allocUserPage, withMem_freePages, free]
    simp only [if_neg nonzero, map_some]
    rfl
  intro y
  by_cases inPage : pa ≤ y ∧ y < pa + pageSize
  · refine .inr ⟨?_, pa, by simp [free], inPage⟩
    simp only [commit, memcpy, if_pos inPage]
  · refine .inl ⟨?_, ?_⟩
    · simp only [memcpy, if_neg inPage]
    · simp only [commit, memcpy, if_neg inPage]

theorem transformVaddr_withMem_none (m : Nat → UInt8) (user : UserAt s a r)
    (stuck : transformVaddr s a = none) : transformVaddr (s.withMem m) a = none := by
  cases done : transformVaddr (s.withMem m) a with
  | none => rfl
  | some p =>
    have user' : UserAt (s.withMem m) a r := ⟨user.found, user.type, user.small⟩
    obtain ⟨m', again, _⟩ := transformVaddr_withMem s.mem user' done
    rw [withMem_withMem, withMem_self, stuck] at again
    cases again

theorem missing_commit {va p index pa : Nat} {rest : List Nat} (nonzero : pa ≠ 0) (b : Nat)
    (key : Nat × Nat) : missing (s.commit va p index pa rest) b = some key ↔
      missing s b = some key ∧ key ≠ (p, index) := by
  have regions : (s.commit va p index pa rest).regions = s.regions := rfl
  unfold missing
  rw [regions]
  cases found : findVmr s.regions b with
  | none => simp
  | some r' =>
    simp only [bind_some, commit_type]
    by_cases same : r'.pmo = p ∧ (b - r'.start) / pageSize = index
    · obtain ⟨rfl, rfl⟩ := same
      rw [commit_radix, if_neg (fun both => nonzero both.2)]
      constructor
      · intro never
        cases never
      intro both
      obtain ⟨now, other⟩ := both
      split at now
      · cases now
        exact absurd rfl other
      · cases now
    · have radix : ((s.commit va p index pa rest).pmo r'.pmo).radix ((b - r'.start) / pageSize) =
          (s.pmo r'.pmo).radix ((b - r'.start) / pageSize) := by
        by_cases pmo : r'.pmo = p
        · subst pmo
          have index' : (b - r'.start) / pageSize ≠ index := fun equal => same ⟨rfl, equal⟩
          simp [commit, commitPageToPmo, update_of_ne index']
        · simp [commit, update_of_ne pmo]
      rw [radix]
      constructor
      · intro now
        refine ⟨now, ?_⟩
        split at now
        · cases now
          intro equal
          cases equal
          exact same ⟨rfl, rfl⟩
        · cases now
      · exact fun both => both.1

end Region

/-! ## The translations of a whole range -/

def missingKeys (s : UserVm) (userBuf : Nat) : Nat → List (Nat × Nat)
  | 0 => []
  | n + 1 =>
    (missing s (userBuf + n)).elim (missingKeys s userBuf n) (missingKeys s userBuf n).insert

theorem mem_missingKeys (s : UserVm) (userBuf n : Nat) (key : Nat × Nat) :
    key ∈ missingKeys s userBuf n ↔ ∃ i, i < n ∧ missing s (userBuf + i) = some key := by
  induction n with
  | zero => simp [missingKeys]
  | succ n hyp =>
    rw [missingKeys]
    cases here : missing s (userBuf + n) with
    | none =>
      rw [elim_none, hyp]
      constructor
      · intro earlier
        obtain ⟨i, below, equal⟩ := earlier
        exact ⟨i, by omega, equal⟩
      · intro some
        obtain ⟨i, below, equal⟩ := some
        have apart : i ≠ n := fun same => by simp [same, here] at equal
        exact ⟨i, by omega, equal⟩
    | some key' =>
      rw [elim_some, mem_insert_iff, hyp]
      constructor
      · intro either
        rcases either with rfl | ⟨i, below, equal⟩
        · exact ⟨n, by omega, here⟩
        · exact ⟨i, by omega, equal⟩
      intro some
      obtain ⟨i, below, equal⟩ := some
      by_cases same : i = n
      · subst same
        rw [here] at equal
        exact .inl (Option.some.inj equal).symm
      · exact .inr ⟨i, by omega, equal⟩

def regionAt (s : UserVm) (a : Nat) : Vmregion := (findVmr s.regions a).getD ⟨0, 0, 0, 0⟩

def target (s s₁ : UserVm) (a : Nat) : Option Nat :=
  byteAddr s₁ (regionAt s a).pmo (a - (regionAt s a).start)

def FirstIn (s : UserVm) (userBuf i : Nat) : Prop :=
  ∀ j, j < i → missing s (userBuf + j) = missing s (userBuf + i) →
    roundDown (userBuf + j) = roundDown (userBuf + i)

section Commit
variable {s : UserVm} {va p index pa : Nat} {rest : List Nat}

theorem UserVmOk.commit_kept (ok : UserVmOk s) (type : (s.pmo p).type = .anonym)
    (free : s.freePages = pa :: rest) (absent : (s.pmo p).radix index = 0) {q off x : Nat}
    (stands : byteAddr s q off = some x) : byteAddr (s.commit va p index pa rest) q off = some x ∧
      (s.commit va p index pa rest).mem x = s.mem x := by
  have member : pa ∈ s.freePages := by simp [free]
  constructor
  · rw [byteAddr_commit type (ok.nonzero pa member)]
    by_cases here : q = p ∧ off / pageSize = index
    · obtain ⟨rfl, rfl⟩ := here
      rw [byteAddr_of_anonym type, if_pos absent] at stands
      cases stands
    · rw [if_neg here]
      exact stands
  · have outside := ok.unused pa member q off x stands
    simp only [UserVm.commit, memcpy, if_neg outside]

theorem commit_fresh (type : (s.pmo p).type = .anonym) (nonzero : pa ≠ 0) {q off x : Nat}
    (absent : byteAddr s q off = none)
    (stands : byteAddr (s.commit va p index pa rest) q off = some x) :
    (s.commit va p index pa rest).mem x = 0 ∧ x = pa + off % pageSize ∧ q = p := by
  rw [byteAddr_commit type nonzero] at stands
  by_cases here : q = p ∧ off / pageSize = index
  · rw [if_pos here] at stands
    cases stands
    have upper : off % pageSize < pageSize := Nat.mod_lt _ (by decide)
    have inPage : pa ≤ pa + off % pageSize ∧ pa + off % pageSize < pa + pageSize := by omega
    exact ⟨by simp only [commit, memcpy, if_pos inPage], rfl, here.1⟩
  · rw [if_neg here, absent] at stands
    cases stands

end Commit

structure Touched (s : UserVm) (userBuf n : Nat) (s₁ : UserVm) : Prop where
  ok : UserVmOk s₁
  regions : s₁.regions = s.regions
  types : ∀ q, (s₁.pmo q).type = (s.pmo q).type
  sizes : ∀ q, (s₁.pmo q).size = (s.pmo q).size
  kept : ∀ q off x, byteAddr s q off = some x →
    byteAddr s₁ q off = some x ∧ s₁.mem x = s.mem x
  fresh : ∀ q off x, byteAddr s q off = none → byteAddr s₁ q off = some x →
    s₁.mem x = 0 ∧ Private s q ∧ ∃ pa ∈ s.freePages, x = pa + off % pageSize
  left : ∀ pa ∈ s₁.freePages, pa ∈ s.freePages
  placed : ∀ i, i < n → target s s₁ (userBuf + i) ≠ none
  room : s₁.freePages.length + (missingKeys s userBuf n).length = s.freePages.length
  absent : ∀ a key, missing s₁ a = some key ↔
    missing s a = some key ∧ key ∉ missingKeys s userBuf n
  pgtbl : ∀ va,
    (s₁.pgtbl va = s.pgtbl va ∧ ∀ i, i < n → roundDown (userBuf + i) = va →
      missing s (userBuf + i) ≠ none → ¬ FirstIn s userBuf i) ∨
    ∃ i, i < n ∧ va = roundDown (userBuf + i) ∧ missing s (userBuf + i) ≠ none ∧
      FirstIn s userBuf i ∧ ∃ pa, s₁.pgtbl va = some pa ∧
        target s s₁ (userBuf + i) = some (pa + (userBuf + i) % pageSize)

theorem Touched.start {s : UserVm} (ok : UserVmOk s) (userBuf : Nat) : Touched s userBuf 0 s where
  ok := ok
  regions := rfl
  types := fun _ => rfl
  sizes := fun _ => rfl
  kept := fun _ _ _ stands => ⟨stands, rfl⟩
  fresh := fun _ _ _ absent stands => by simp [absent] at stands
  left := fun _ member => member
  placed := fun _ below => by omega
  room := rfl
  absent := fun _ _ => by simp [missingKeys]
  pgtbl := fun _ => .inl ⟨rfl, fun _ below => by omega⟩

section Range
variable {s s₁ s2 : UserVm} {userBuf n x : Nat} {r : Vmregion}

theorem placed_succ (placed : ∀ i, i < n → target s s₁ (userBuf + i) ≠ none)
    (last : target s s₁ (userBuf + n) ≠ none) : ∀ i, i < n + 1 → target s s₁ (userBuf + i) ≠ none := by
  intro i below
  by_cases same : i = n
  · rwa [same]
  · exact placed i (by omega)

theorem Touched.stay (before : Touched s userBuf n s₁) (present : missing s₁ (userBuf + n) = none)
    (placed : target s s₁ (userBuf + n) ≠ none) : Touched s userBuf (n + 1) s₁ := by
  have known : ∀ key, missing s (userBuf + n) = some key → key ∈ missingKeys s userBuf n := by
    intro key here
    by_contra new
    have still := (before.absent (userBuf + n) key).mpr ⟨here, new⟩
    rw [present] at still
    cases still
  have keys : missingKeys s userBuf (n + 1) = missingKeys s userBuf n := by
    rw [missingKeys]
    cases here : missing s (userBuf + n) with
    | none => rfl
    | some key => exact insert_of_mem (known key here)
  refine { before with placed := placed_succ before.placed placed, room := ?_, absent := ?_, pgtbl := ?_ }
  · rw [keys]
    exact before.room
  · rw [keys]
    exact before.absent
  · intro va
    rcases before.pgtbl va with ⟨same, none⟩ | ⟨i, below, rest⟩
    · refine .inl ⟨same, ?_⟩
      intro i below page needed first
      by_cases last : i = n
      · subst last
        obtain ⟨key, here⟩ := ne_none_iff_exists'.mp needed
        obtain ⟨j, earlier, there⟩ := (mem_missingKeys s userBuf i key).mp (known key here)
        have samePage := first j earlier (there.trans here.symm)
        -- an earlier byte of the page with the same key comes first as well
        apply none j earlier (samePage.trans page) (by simp [there])
        intro j' sooner equal
        exact (first j' (by omega) (equal.trans (there.trans here.symm))).trans samePage.symm
      · exact none i (by omega) page needed first
    · exact .inr ⟨i, by omega, rest⟩

theorem regionAt_of_found {a : Nat} (found : findVmr s.regions a = some r) : regionAt s a = r := by
  rw [regionAt, found, getD_some]

section
variable (before : Touched s userBuf n s₁)
include before

theorem Touched.commit (found : findVmr s.regions (userBuf + n) = some r) {index pa : Nat}
    {rest : List Nat} {s₂ : UserVm} (anonym : (s₁.pmo r.pmo).type = .anonym)
    (empty : (s₁.pmo r.pmo).radix index = 0)
    (absent : missing s₁ (userBuf + n) = some (r.pmo, index)) (free : s₁.freePages = pa :: rest)
    (committed : s₂ = s₁.commit (roundDown (userBuf + n)) r.pmo index pa rest)
    (stands : byteAddr s₂ r.pmo (userBuf + n - r.start) = some (pa + (userBuf + n) % pageSize)) :
    Touched s userBuf (n + 1) s₂ := by
  have member : pa ∈ s₁.freePages := by simp [free]
  have nonzero := before.ok.nonzero pa member
  obtain ⟨here, new⟩ := (before.absent (userBuf + n) (r.pmo, index)).mp absent
  have keys : missingKeys s userBuf (n + 1) = (r.pmo, index) :: missingKeys s userBuf n := by
    rw [missingKeys, here, elim_some, insert_of_not_mem new]
  have moves : ∀ q off y, byteAddr s₁ q off = some y →
      byteAddr s₂ q off = some y ∧ s₂.mem y = s₁.mem y := by
    rw [committed]
    exact fun q off y => before.ok.commit_kept anonym free empty
  have last : target s s₂ (userBuf + n) = some (pa + (userBuf + n) % pageSize) := by
    rw [target, regionAt_of_found found]
    exact stands
  have table : ∀ {va}, va ≠ roundDown (userBuf + n) → s₂.pgtbl va = s₁.pgtbl va := by
    rw [committed]
    exact fun other => update_of_ne other ..
  subst committed
  refine ⟨before.ok.commit anonym free, before.regions, ?_, ?_, ?_, ?_, ?_, ?_, ?_, ?_, ?_⟩
  · exact fun q => (commit_type ..).trans (before.types q)
  · exact fun q => (commit_size ..).trans (before.sizes q)
  · intro q off y first
    obtain ⟨second, value⟩ := before.kept q off y first
    obtain ⟨third, value'⟩ := moves q off y second
    exact ⟨third, value'.trans value⟩
  · intro q off y none now
    cases middle : byteAddr s₁ q off with
    | none =>
      obtain ⟨zero, equal, rfl⟩ := commit_fresh anonym nonzero middle now
      have type : (s.pmo r.pmo).type = .anonym := (before.types r.pmo).symm.trans anonym
      exact ⟨zero, .inr type, pa, before.left pa member, equal⟩
    | some y' =>
      obtain ⟨third, value⟩ := moves q off y' middle
      obtain rfl : y' = y := by simpa [third] using now
      obtain ⟨zero, origin⟩ := before.fresh q off y' none middle
      exact ⟨value.trans zero, origin⟩
  · intro pa' inside
    have inside' : pa' ∈ rest := inside
    exact before.left pa' (by simp [free, inside'])
  · apply placed_succ
    · intro i below
      obtain ⟨y, placed⟩ := ne_none_iff_exists'.mp (before.placed i below)
      rw [target, (moves _ _ y placed).1]
      exact some_ne_none y
    · rw [last]
      exact some_ne_none _
  · have length := before.room
    rw [free, length_cons] at length
    rw [keys, length_cons]
    change rest.length + _ = _
    omega
  · intro a key
    rw [missing_commit nonzero, before.absent, keys, mem_cons, not_or, and_assoc,
      and_comm (a := key ∉ _)]
  · intro va
    by_cases this : va = roundDown (userBuf + n)
    · subst this
      refine .inr ⟨n, by omega, rfl, by simp [here], ?_, pa, ?_, last⟩
      · intro j below equal
        have known := (mem_missingKeys s userBuf n _).mpr ⟨j, below, equal.trans here⟩
        exact absurd known new
      · exact update_self ..
    rw [table this]
    rcases before.pgtbl va with ⟨same, none⟩ | ⟨i, below, page, needed, first, pa', entry, placed⟩
    · refine .inl ⟨same, ?_⟩
      intro i below page
      have apart : i ≠ n := fun equal => this (by rw [← page, equal])
      exact none i (by omega) page
    · exact .inr ⟨i, by omega, page, needed, first, pa', entry, (moves _ _ _ placed).1⟩

theorem Touched.userAt (user : UserAt s (userBuf + n) r) : UserAt s₁ (userBuf + n) r := by
  refine ⟨?_, ?_, user.small⟩
  · rw [before.regions]
    exact user.found
  · unfold Private
    rw [before.types]
    exact user.type

theorem Touched.transform (user : UserAt s (userBuf + n) r)
    (done : transformVaddr s₁ (userBuf + n) = some (s2, x)) :
    Touched s userBuf (n + 1) s2 ∧ target s s2 (userBuf + n) = some x := by
  have user' := before.userAt user
  have region := regionAt_of_found user.found
  obtain ⟨_, touch, stands⟩ := transformVaddr_touch before.ok user' done
  have placed : target s s2 (userBuf + n) = some x := by
    rw [target, region]
    exact stands
  refine ⟨?_, placed⟩
  cases touch with
  | stays present => exact before.stay present (by simp [placed])
  | commits pa rest anonym absent free =>
    have nonzero := before.ok.nonzero pa (by simp [free])
    have empty : (s₁.pmo r.pmo).radix ((userBuf + n - r.start) / pageSize) = 0 := by
      by_contra present
      rw [missing_of_anonym user'.found anonym, if_neg present] at absent
      cases absent
    apply before.commit user.found anonym empty absent free rfl
    obtain ⟨member, covers⟩ := findVmr_eq_some user'.found
    obtain ⟨_, _, mod⟩ := pageIndex_eq (before.ok.regions.aligned r member) covers.1 user.small
    rw [byteAddr_commit anonym nonzero, if_pos ⟨rfl, rfl⟩, mod]

end

theorem Served.userAt {size : Nat} (served : Served s userBuf size)
    (small : userBuf + size ≤ 2 ^ 64) {i : Nat} (below : i < size) :
    UserAt s (userBuf + i) (regionAt s (userBuf + i)) := by
  obtain ⟨r, found, type⟩ := served i below
  rw [regionAt_of_found found]
  exact ⟨found, type, by omega⟩

def touchByte (userBuf i : Nat) (s : UserVm) : Option UserVm :=
  (transformVaddr s (userBuf + i)).map (·.1)

theorem insidePmo_congr {a : Nat} (types : ∀ q, (s₁.pmo q).type = (s.pmo q).type)
    (sizes : ∀ q, (s₁.pmo q).size = (s.pmo q).size) : InsidePmo s₁ a r ↔ InsidePmo s a r := by
  unfold InsidePmo
  rw [types, sizes]

variable {size : Nat}

section
variable (ok : UserVmOk s) (served : Served s userBuf size) (small : userBuf + size ≤ 2 ^ 64)
  (within : n ≤ size)
include ok served small within

theorem touches_spec (done : steps (touchByte userBuf) n s = some s₁) : Touched s userBuf n s₁ ∧
      ∀ i, i < n → InsidePmo s (userBuf + i) (regionAt s (userBuf + i)) := by
  induction n generalizing s₁ with
  | zero =>
    cases done
    exact ⟨.start ok userBuf, fun i below => by omega⟩
  | succ n hyp =>
    obtain ⟨t, before, last⟩ := bind_eq_some_iff.mp done
    obtain ⟨⟨t', x⟩, moved, rfl⟩ := map_eq_some_iff.mp last
    obtain ⟨touched, inside⟩ := hyp (by omega) before
    have user := served.userAt small (i := n) (by omega)
    refine ⟨(touched.transform user moved).1, ?_⟩
    intro i below
    by_cases same : i = n
    · rw [same, ← insidePmo_congr touched.types touched.sizes]
      exact (transformVaddr_touch touched.ok (touched.userAt user) moved).1
    · exact inside i (by omega)

theorem touches_isSome
    (inside : ∀ i, i < size → InsidePmo s (userBuf + i) (regionAt s (userBuf + i)))
    (room : (missingKeys s userBuf n).length ≤ s.freePages.length) :
    ∃ s₁, steps (touchByte userBuf) n s = some s₁ := by
  induction n with
  | zero => exact ⟨s, rfl⟩
  | succ n hyp =>
    have fewer : (missingKeys s userBuf n).length ≤ (missingKeys s userBuf (n + 1)).length := by
      rw [missingKeys]
      cases missing s (userBuf + n) with
      | none => exact Nat.le_refl _
      | some key => exact length_le_length_insert
    obtain ⟨t, before⟩ := hyp (by omega) (by omega)
    obtain ⟨touched, _⟩ := touches_spec ok served small (by omega) before
    have user := served.userAt small (i := n) (by omega)
    have here := (insidePmo_congr touched.types touched.sizes).mpr (inside n (by omega))
    have left : missing t (userBuf + n) = none ∨ t.freePages ≠ [] := by
      cases absent : missing t (userBuf + n) with
      | none => exact .inl rfl
      | some key =>
        obtain ⟨needed, new⟩ := (touched.absent _ key).mp absent
        have count := touched.room
        rw [missingKeys, needed, elim_some, insert_of_not_mem new, length_cons] at room
        right
        intro empty
        rw [empty, length_nil] at count
        omega
    obtain ⟨p, moved⟩ := transformVaddr_isSome touched.ok (touched.userAt user) here left
    refine ⟨p.1, ?_⟩
    rw [steps, before, bind_some, touchByte, moved, map_some]

end

end Range

end KernelLabs.ChCore
