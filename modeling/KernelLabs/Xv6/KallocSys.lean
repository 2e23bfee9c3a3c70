import KernelLabs.Xv6.KallocCalls

/-!
# Interleaved calls of `kalloc` and `kfree`

Any number of callers run `kalloc` and `kfree` of `kernel/kalloc.c` at the same time.  `acquire`,
`release`, the list update under a lock and the two `memset` calls are separate steps.  The index
`mcpu` that `getcputid` returns is any CPU, since a caller can be moved before it takes the lock.
A step that cannot be taken leaves the state as it is: an `acquire` of a lock that is held spins.
-/

set_option autoImplicit false

namespace KernelLabs.Xv6

open Lib Function List

/-- Where a caller is in `kfree` or `kalloc`.  `rest` are the CPUs that the loop of `stealmem` has
not come to yet. -/
inductive Pc where
  | idle
  | panicked
  | freeFill (pa : Nat) (mcpu : Cpu)
  | freeAcquire (pa : Nat) (mcpu : Cpu)
  | freePush (pa : Nat) (mcpu : Cpu)
  | freeRelease (mcpu : Cpu)
  | allocAcquire (mcpu : Cpu)
  | allocCheck (mcpu : Cpu)
  | stealHead (mcpu : Cpu) (rest : List Cpu)
  | stealAcquire (mcpu i : Cpu) (rest : List Cpu)
  | stealTake (mcpu i : Cpu) (rest : List Cpu)
  | stealRelease (mcpu i : Cpu) (rest : List Cpu) (success : Bool)
  | allocTake (mcpu : Cpu)
  | allocRelease (mcpu : Cpu) (r : Nat)
  | allocFill (r : Nat)
  deriving DecidableEq, Repr

def Pc.held : Pc → List Cpu
  | .freePush _ mcpu | .freeRelease mcpu | .allocCheck mcpu | .stealHead mcpu _
  | .stealAcquire mcpu _ _ | .allocTake mcpu | .allocRelease mcpu _ => [mcpu]
  | .stealTake mcpu i _ | .stealRelease mcpu i _ _ => [mcpu, i]
  | _ => []

def Pc.wants : Pc → Option Cpu
  | .freeAcquire _ mcpu | .allocAcquire mcpu => some mcpu
  | .stealAcquire _ i _ => some i
  | _ => none

/-- The page that `kfree` has been given and not put on a list yet, or that `kalloc` has taken off
a list and not returned yet. -/
def Pc.inHand (p : Nat) : Pc → Nat
  | .freeFill pa _ | .freeAcquire pa _ | .freePush pa _ => if pa = p then 1 else 0
  | .allocRelease _ r | .allocFill r => if r ≠ 0 ∧ r = p then 1 else 0
  | _ => 0

/-- Where the head of the loop of `stealmem` leads. -/
def stealFrom (mcpu : Cpu) : List Cpu → Pc
  | [] => .allocTake mcpu
  | i :: rest => if i = mcpu then stealFrom mcpu rest else .stealAcquire mcpu i rest

/-- `allocated` are the pages returned by `kalloc` and not passed to `kfree` since. -/
structure Sys (T : Type) where
  mem : Mem
  lock : Cpu → Option T
  pc : T → Pc
  allocated : Nat → Bool

inductive Act (T : Type) where
  | kfree (t : T) (pa : Nat) (mcpu : Cpu)
  | kalloc (t : T) (mcpu : Cpu)
  | go (t : T)
  deriving DecidableEq, Repr

section Model
variable {T : Type} [DecidableEq T]

def Sys.goto (s : Sys T) (t : T) (pc : Pc) : Sys T := { s with pc := update s.pc t pc }

/-- `acquire` panics if the caller holds the lock already. -/
def Sys.acquire (s : Sys T) (t : T) (l : Cpu) (next : Pc) : Sys T :=
  match s.lock l with
  | none => { s with lock := update s.lock l (some t) }.goto t next
  | some u => if u = t then s.goto t .panicked else s

def Sys.release (s : Sys T) (t : T) (l : Cpu) (next : Pc) : Sys T :=
  if s.lock l = some t then { s with lock := update s.lock l none }.goto t next
  else s.goto t .panicked

def Sys.go (s : Sys T) (t : T) : Sys T :=
  match s.pc t with
  | .idle | .panicked => s
  | .freeFill pa mcpu => { s with mem := fillPage s.mem pa 1 }.goto t (.freeAcquire pa mcpu)
  | .freeAcquire pa mcpu => s.acquire t mcpu (.freePush pa mcpu)
  | .freePush pa mcpu => { s with mem := pushPage s.mem mcpu pa }.goto t (.freeRelease mcpu)
  | .freeRelease mcpu => s.release t mcpu .idle
  | .allocAcquire mcpu => s.acquire t mcpu (.allocCheck mcpu)
  | .allocCheck mcpu =>
    s.goto t (if (s.mem.kmems mcpu).pgsize = 0 then .stealHead mcpu (finRange ncpu)
      else .allocTake mcpu)
  | .stealHead mcpu rest => s.goto t (stealFrom mcpu rest)
  | .stealAcquire mcpu i rest => s.acquire t i (.stealTake mcpu i rest)
  | .stealTake mcpu i rest =>
    if 2 ≤ (s.mem.kmems i).pgsize then
      { s with mem := stealHalf s.mem mcpu i }.goto t (.stealRelease mcpu i rest true)
    else s.goto t (.stealRelease mcpu i rest false)
  | .stealRelease mcpu i rest success =>
    s.release t i (if success then .allocTake mcpu else .stealHead mcpu rest)
  | .allocTake mcpu =>
    { s with mem := (takePage s.mem mcpu).2 }.goto t (.allocRelease mcpu (takePage s.mem mcpu).1)
  | .allocRelease mcpu r => s.release t mcpu (if r ≠ 0 then .allocFill r else .idle)
  | .allocFill r =>
    { s with mem := fillPage s.mem r 5, allocated := update s.allocated r true }.goto t
      .idle

def sysStep (image : Nat) (s : Sys T) : Act T → Sys T
  | .kfree t pa mcpu =>
    if s.pc t = .idle then
      { s with allocated := update s.allocated pa false }.goto t
        (if NotAPage image pa then .panicked else .freeFill pa mcpu)
    else s
  | .kalloc t mcpu => if s.pc t = .idle then s.goto t (.allocAcquire mcpu) else s
  | .go t => s.go t

def bootSys (image : Nat) (next : Nat → Nat) : Sys T :=
  ⟨bootMem image next, fun _ => none, fun _ => .idle, fun _ => false⟩

def FreesOwn (s : Sys T) : Act T → Prop
  | .kfree t pa _ => s.pc t = .idle → s.allocated pa = true
  | _ => True

instance (s : Sys T) : ∀ a, Decidable (FreesOwn s a) := by
  rintro ⟨⟩ <;> dsimp only [FreesOwn] <;> infer_instance

end Model

/-! ## Who holds which lock -/

def Pc.Apart : Pc → Prop
  | .stealAcquire mcpu i _ | .stealTake mcpu i _ | .stealRelease mcpu i _ _ => i ≠ mcpu
  | _ => True

open Pc

theorem stealFrom_cases (mcpu : Cpu) (rest : List Cpu) : stealFrom mcpu rest = .allocTake mcpu ∨
    ∃ i later, i ≠ mcpu ∧ stealFrom mcpu rest = .stealAcquire mcpu i later := by
  induction rest with
  | nil => exact .inl rfl
  | cons i rest ih =>
    rw [stealFrom]
    split
    · exact ih
    · next other => exact .inr ⟨i, rest, other, rfl⟩

open Sys

section Moves
variable {T : Type} [DecidableEq T] {s : Sys T} {t : T}

/-- What a step of `t` at `pc` does to the locks.  Only from the head of the loop of `stealmem` does
a caller that holds a lock come to an `acquire`. -/
inductive LockMove (s : Sys T) (t : T) (pc : Pc) : Sys T → Prop
  | stays : LockMove s t pc s
  | goto {mem : Mem} {allocated : Nat → Bool} {next : Pc} (held : next.held = pc.held)
      (apart : next.Apart)
      (quiet : next.wants = none ∨ next.held = [] ∨ ∃ mcpu rest, pc = .stealHead mcpu rest) :
      LockMove s t pc ({ s with mem := mem, allocated := allocated }.goto t next)
  | acquire {l : Cpu} {next : Pc} (fresh : l ∉ pc.held) (held : next.held = pc.held ++ [l])
      (apart : next.Apart) (quiet : next.wants = none) : LockMove s t pc (s.acquire t l next)
  | release {l : Cpu} {next : Pc} (fresh : l ∉ next.held) (held : pc.held = next.held ++ [l])
      (apart : next.Apart) (quiet : next.wants = none) : LockMove s t pc (s.release t l next)

theorem go_moves (apart : (s.pc t).Apart) : LockMove s t (s.pc t) (s.go t) := by
  rw [go]
  cases here : s.pc t with
  | idle | panicked => exact .stays
  | freeFill pa mcpu => exact .goto rfl trivial (.inr (.inl rfl))
  | freeAcquire | allocAcquire => exact .acquire (by simp [Pc.held]) rfl trivial rfl
  | freePush | allocTake | allocFill => exact .goto rfl trivial (.inl rfl)
  | freeRelease mcpu => exact .release (by simp [Pc.held]) rfl trivial rfl
  | allocCheck mcpu =>
    dsimp only
    split
    · exact .goto rfl trivial (.inl rfl)
    · exact .goto rfl trivial (.inl rfl)
  | stealHead mcpu rest =>
    dsimp only
    obtain last | ⟨i, later, other, next⟩ := stealFrom_cases mcpu rest
    · rw [last]
      exact .goto rfl trivial (.inl rfl)
    · rw [next]
      exact .goto rfl other (.inr (.inr ⟨_, _, rfl⟩))
  | stealAcquire mcpu i rest =>
    rw [here] at apart
    exact .acquire (fun same => apart (mem_singleton.mp same)) rfl apart rfl
  | stealTake mcpu i rest =>
    rw [here] at apart
    dsimp only
    split
    · exact .goto rfl apart (.inl rfl)
    · exact .goto rfl apart (.inl rfl)
  | stealRelease mcpu i rest success =>
    rw [here] at apart
    have fresh : i ∉ [mcpu] := fun same => apart (mem_singleton.mp same)
    cases success with
    | true | false => exact .release fresh rfl trivial rfl
  | allocRelease mcpu r =>
    dsimp only
    split
    · exact .release (by simp [Pc.held]) rfl trivial rfl
    · exact .release (by simp [Pc.held]) rfl trivial rfl

variable {mcpu : Cpu}

theorem kfree_moves {image pa : Nat} :
    LockMove s t (s.pc t) (sysStep image s (.kfree t pa mcpu)) := by
  rw [sysStep]
  split
  · next idle =>
      rw [idle]
      split
      · exact .goto rfl trivial (.inl rfl)
      · exact .goto rfl trivial (.inl rfl)
  · exact .stays

theorem kalloc_moves {image : Nat} : LockMove s t (s.pc t) (sysStep image s (.kalloc t mcpu)) := by
  rw [sysStep]
  split
  · next idle =>
      rw [idle]
      exact .goto rfl trivial (.inr (.inl rfl))
  · exact .stays

end Moves

structure LockInv {T : Type} (s : Sys T) : Prop where
  locked : ∀ t l, s.lock l = some t ↔ l ∈ (s.pc t).held
  apart : ∀ t, (s.pc t).Apart

variable {allocated : Nat → Bool} {mem : Mem}

section Locks
variable {T : Type} {s : Sys T} {t : T} {next : Pc} {l : Cpu} (inv : LockInv s)
include inv

theorem LockInv.exclusive {u : T} (mine : l ∈ (s.pc t).held) (theirs : l ∈ (s.pc u).held) :
    t = u := by
  have first := (inv.locked t l).mpr mine
  rw [(inv.locked u l).mpr theirs] at first
  exact (Option.some.inj first).symm

variable [DecidableEq T]

theorem LockInv.move {lock : Cpu → Option T} (mine : ∀ l, lock l = some t ↔ l ∈ next.held)
    (others : ∀ u, u ≠ t → ∀ l, lock l = some u ↔ s.lock l = some u) (apart : next.Apart) :
    LockInv (goto ⟨mem, lock, s.pc, allocated⟩ t next) where
  locked := (forall_update_iff s.pc fun u pc => ∀ l, lock l = some u ↔ l ∈ pc.held).mpr
    ⟨mine, fun u same l => by rw [others u same l, inv.locked]⟩
  apart := (forall_update_iff s.pc fun _ => Pc.Apart).mpr ⟨apart, fun u _ => inv.apart u⟩

theorem LockInv.acquire_eq (fresh : l ∉ (s.pc t).held) (next : Pc) :
    s.acquire t l next = s ∨ s.lock l = none ∧
      s.acquire t l next = { s with lock := update s.lock l (some t) }.goto t next := by
  rw [acquire]
  cases holder : s.lock l with
  | none => exact .inr ⟨rfl, rfl⟩
  | some u =>
    left
    have other : u ≠ t := by
      rintro rfl
      exact fresh ((inv.locked u l).mp holder)
    simp only [if_neg other]

theorem LockInv.release_eq (holds : l ∈ (s.pc t).held) (next : Pc) :
    s.release t l next = { s with lock := update s.lock l none }.goto t next :=
  if_pos ((inv.locked t l).mpr holds)

theorem LockInv.moved {s' : Sys T} (moved : LockMove s t (s.pc t) s') : LockInv s' := by
  cases moved with
  | stays => exact inv
  | goto held apart => exact inv.move (fun l => by rw [inv.locked, held]) (fun _ _ _ => Iff.rfl) apart
  | @acquire l next fresh held apart =>
    rcases inv.acquire_eq fresh next with stays | ⟨free, taken⟩
    · rwa [stays]
    rw [taken]
    refine inv.move (fun k => ?_) (fun u other k => ?_) apart
    · by_cases this : k = l
      · simp [held, this]
      · simp [held, this, inv.locked t k]
    · by_cases this : k = l
      · simp [this, free, other.symm]
      · rw [update_of_ne this]
  | @release l next fresh held apart =>
    have mine : l ∈ (s.pc t).held := by simp [held]
    rw [inv.release_eq mine]
    refine inv.move (fun k => ?_) (fun u other k => ?_) apart
    · by_cases this : k = l
      · simp [this, fresh]
      · simp [this, inv.locked t k, held]
    · by_cases this : k = l
      · simp [this, (inv.locked t l).mpr mine, other.symm]
      · rw [update_of_ne this]

theorem LockInv.step (image : Nat) (a : Act T) : LockInv (sysStep image s a) := by
  cases a with
  | kfree t pa mcpu => exact inv.moved kfree_moves
  | kalloc t mcpu => exact inv.moved kalloc_moves
  | go t => exact inv.moved (go_moves (inv.apart t))

omit inv

omit [DecidableEq T] in
theorem bootSys_lockInv (image : Nat) (next : Nat → Nat) : LockInv (bootSys image next : Sys T) :=
  ⟨fun t l => by simp [bootSys, Pc.held], fun _ => trivial⟩

end Locks

/-! ## Where every page is -/

def PcOk (lists : Cpu → List Nat) : Pc → Prop
  | .panicked => False
  | .stealHead mcpu _ | .stealAcquire mcpu _ _ | .stealTake mcpu _ _ => lists mcpu = []
  | .stealRelease mcpu _ _ success => success = false → lists mcpu = []
  | .allocFill r => r ≠ 0
  | _ => True

theorem PcOk.congr {lists lists' : Cpu → List Nat} {pc : Pc} (ok : PcOk lists pc)
    (same : ∀ l ∈ pc.held, lists' l = lists l) : PcOk lists' pc := by
  cases pc with
  | stealHead mcpu rest | stealAcquire mcpu i rest | stealTake mcpu i rest =>
    exact (same mcpu (by simp [Pc.held])).trans ok
  | stealRelease mcpu i rest success =>
    exact fun failed => (same mcpu (by simp [Pc.held])).trans (ok failed)
  | _ => exact ok

structure ListInv {T : Type} [Fintype T] (image : Nat) (s : Sys T) (lists : Cpu → List Nat) :
    Prop where
  ok : Lists s.mem lists
  counted : ∀ p, onLists lists p + (s.allocated p).toNat + total (inHand p) s.pc =
    if IsPage image p then 1 else 0
  places : ∀ t, PcOk lists (s.pc t)

section Pages
variable {T : Type} [Fintype T] [DecidableEq T] {image : Nat} {s : Sys T} {lists : Cpu → List Nat}
  {t : T} {next : Pc} (inv : ListInv image s lists)
include inv

variable {lock : Cpu → Option T}

theorem ListInv.move {lists' : Cpu → List Nat} (locks : LockInv s) (ok : Lists mem lists')
    (own : ∀ l, l ∉ (s.pc t).held → lists' l = lists l)
    (passed : ∀ p, onLists lists' p + (allocated p).toNat + next.inHand p =
      onLists lists p + (s.allocated p).toNat + (s.pc t).inHand p) (place : PcOk lists' next) :
    ListInv image (goto ⟨mem, lock, s.pc, allocated⟩ t next) lists' where
  ok := ok
  counted p := by
    have moved := total_update (inHand p) s.pc t next
    have before := inv.counted p
    have change := passed p
    change onLists lists' p + (allocated p).toNat + total (inHand p) (update s.pc t next) = _
    omega
  places := by
    refine (forall_update_iff s.pc fun _ => PcOk lists').mpr ⟨place, fun u same => ?_⟩
    refine (inv.places u).congr fun l theirs => own l fun mine => ?_
    exact same (locks.exclusive theirs mine)

theorem ListInv.absent {p : Nat} (here : (s.pc t).inHand p = 1) :
    IsPage image p ∧ onLists lists p = 0 ∧ s.allocated p = false := by
  have counted := inv.counted p
  have hand := le_total (inHand p) s.pc t
  rw [here] at hand
  have page : IsPage image p := by
    by_contra never
    rw [if_neg never] at counted
    omega
  rw [if_pos page] at counted
  refine ⟨page, by omega, ?_⟩
  cases free : s.allocated p with
  | false => rfl
  | true =>
    rw [free, Bool.toNat_true] at counted
    omega

section Moves
variable {pc : Pc} {l : Cpu} (locks : LockInv s) (here : s.pc t = pc)
  (same : ∀ p, next.inHand p = pc.inHand p) (place : PcOk lists next)
include locks here same place

theorem ListInv.keep : ListInv image (goto ⟨s.mem, lock, s.pc, s.allocated⟩ t next) lists :=
  inv.move locks inv.ok (fun _ _ => rfl) (fun p => by rw [same p, here]) place

theorem ListInv.acquire (fresh : l ∉ pc.held) : ListInv image (s.acquire t l next) lists := by
  rcases locks.acquire_eq (here ▸ fresh) next with stays | ⟨_, taken⟩
  · rwa [stays]
  · rw [taken]
    exact inv.keep locks here same place

theorem ListInv.release (holds : l ∈ pc.held) : ListInv image (s.release t l next) lists := by
  rw [locks.release_eq (here ▸ holds)]
  exact inv.keep locks here same place

end Moves

theorem ListInv.go (locks : LockInv s) (t : T) : ∃ lists', ListInv image (s.go t) lists' := by
  have place := inv.places t
  have apart := locks.apart t
  rw [Sys.go]
  cases here : s.pc t with
  | idle => exact ⟨lists, inv⟩
  | panicked =>
    rw [here] at place
    exact place.elim
  | freeFill pa mcpu =>
    obtain ⟨_, absent, _⟩ := inv.absent (t := t) (p := pa) (by simp [here, inHand])
    exact ⟨lists, inv.move locks (inv.ok.fill absent 1) (fun _ _ => rfl)
      (fun p => by rw [here]; rfl) trivial⟩
  | freeAcquire | allocAcquire =>
    exact ⟨lists, inv.acquire locks here (fun _ => rfl) trivial (by simp [Pc.held])⟩
  | freePush pa mcpu =>
    obtain ⟨page, absent, _⟩ := inv.absent (t := t) (p := pa) (by simp [here, inHand])
    refine ⟨update lists mcpu (pa :: lists mcpu),
      inv.move locks (inv.ok.push absent page.nonnull mcpu) (fun l other => ?_) (fun p => ?_) trivial⟩
    · rw [here] at other
      exact update_of_ne (fun same => other (by simp [Pc.held, same])) _ _
    · rw [onLists_push, here]
      simp only [inHand]
      omega
  | freeRelease mcpu =>
    exact ⟨lists, inv.release locks here (fun _ => rfl) trivial (by simp [Pc.held])⟩
  | allocCheck mcpu =>
    refine ⟨lists, ?_⟩
    dsimp only
    split
    · next zero =>
        have empty : lists mcpu = [] := by
          rw [inv.ok.size mcpu] at zero
          exact length_eq_zero_iff.mp (Int.ofNat_eq_zero.mp zero)
        exact inv.keep locks here (fun _ => by rfl) (by exact empty)
    · exact inv.keep locks here (fun _ => by rfl) (by trivial)
  | stealHead mcpu rest =>
    rw [here] at place
    dsimp only
    obtain last | ⟨i, later, _, next⟩ := stealFrom_cases mcpu rest
    · rw [last]
      exact ⟨lists, inv.keep locks here (fun _ => by rfl) (by trivial)⟩
    · rw [next]
      exact ⟨lists, inv.keep locks here (fun _ => by rfl) (by exact place)⟩
  | stealAcquire mcpu i rest =>
    rw [here] at place apart
    exact ⟨lists, inv.acquire locks here (fun _ => rfl) place
      fun same => apart (mem_singleton.mp same)⟩
  | stealTake mcpu i rest =>
    rw [here] at place apart
    dsimp only
    split
    · next enough =>
        refine ⟨_, inv.move locks (inv.ok.steal apart place enough) (fun l other => ?_)
          (fun p => ?_) (fun never => Bool.noConfusion never)⟩
        · rw [here] at other
          have notThief : l ≠ mcpu := fun same => other (by simp [Pc.held, same])
          have notVictim : l ≠ i := fun same => other (by simp [Pc.held, same])
          rw [splitList, update_of_ne notThief, update_of_ne notVictim]
        · rw [onLists_splitList apart place, here]
          rfl
    · exact ⟨lists, inv.keep locks here (fun _ => by rfl) (by exact fun _ => place)⟩
  | stealRelease mcpu i rest success =>
    rw [here] at place
    refine ⟨lists, ?_⟩
    cases success with
    | true => exact inv.release locks here (fun _ => rfl) trivial (by simp [Pc.held])
    | false => exact inv.release locks here (fun _ => rfl) (place rfl) (by simp [Pc.held])
  | allocTake mcpu =>
    dsimp only
    cases content : lists mcpu with
    | nil =>
      rw [takePage_nil inv.ok content]
      exact ⟨lists, inv.keep locks here (fun p => by simp [inHand]) (by trivial)⟩
    | cons r rest =>
      obtain ⟨nonnull, taken, left⟩ := takePage_cons inv.ok content
      refine ⟨_, inv.move locks left (fun l other => ?_) (fun p => ?_) trivial⟩
      · rw [here] at other
        exact update_of_ne (fun same => other (by simp [Pc.held, same])) _ _
      · have moved := onLists_take content p
        rw [taken, here]
        simp only [inHand, ne_eq, nonnull, not_false_eq_true, true_and]
        omega
  | allocRelease mcpu r =>
    refine ⟨lists, ?_⟩
    dsimp only
    split
    · next nonnull => exact inv.release locks here (fun _ => rfl) nonnull (by simp [Pc.held])
    · next zero =>
        exact inv.release locks here (fun p => by simp [inHand, zero]) trivial (by simp [Pc.held])
  | allocFill r =>
    rw [here] at place
    have nonnull : r ≠ 0 := place
    obtain ⟨_, absent, free⟩ := inv.absent (t := t) (p := r) (by simp [here, inHand, nonnull])
    refine ⟨lists, inv.move locks (inv.ok.fill absent 5) (fun _ _ => rfl) (fun p => ?_) trivial⟩
    rw [here]
    by_cases same : r = p
    · subst same
      simp [inHand, nonnull, free]
    · simp [inHand, same, update_of_ne (Ne.symm same)]

theorem ListInv.step (locks : LockInv s) (a : Act T) (owned : FreesOwn s a) :
    ∃ lists', ListInv image (sysStep image s a) lists' := by
  cases a with
  | kfree t pa mcpu =>
    rw [sysStep]
    split
    · next idle =>
        have taken : s.allocated pa = true := owned idle
        have page : IsPage image pa := by
          have counted := inv.counted pa
          rw [taken, Bool.toNat_true] at counted
          by_contra never
          rw [if_neg never] at counted
          omega
        rw [if_neg ((not_notAPage_iff pa).mpr page)]
        refine ⟨lists, inv.move locks inv.ok (fun _ _ => rfl) (fun p => ?_) trivial⟩
        rw [idle]
        by_cases same : pa = p
        · subst same
          simp [inHand, taken]
        · simp [inHand, same, update_of_ne (Ne.symm same)]
    · exact ⟨lists, inv⟩
  | kalloc t mcpu =>
    rw [sysStep]
    split
    · next idle =>
        exact ⟨lists, inv.keep locks idle (fun _ => by rfl) (by trivial)⟩
    · exact ⟨lists, inv⟩
  | go t => exact inv.go locks t

omit inv

omit [DecidableEq T] in
theorem bootSys_listInv (image : Nat) (next : Nat → Nat) :
    ∃ lists, ListInv image (bootSys image next : Sys T) lists := by
  obtain ⟨lists, ok, counts, _⟩ := bootMem_lists image next
  refine ⟨lists, ok, fun p => ?_, fun _ => trivial⟩
  have none : total (inHand p) (fun _ : T => Pc.idle) = 0 := total_eq_zero fun _ => rfl
  simp only [bootSys, none, Bool.toNat_false, Nat.add_zero]
  exact counts p

end Pages

/-- The lists are linked and counted, nobody panicked, and a page that no call has in hand is
allocated or on exactly one list, once. -/
def PagesKept {T : Type} (image : Nat) (s : Sys T) : Prop :=
  (∀ t, s.pc t ≠ .panicked) ∧
  ∃ lists : Cpu → List Nat,
    (∀ i, Linked s.mem.next (s.mem.kmems i).freelist (lists i) ∧
      (s.mem.kmems i).pgsize = (lists i).length) ∧
    ∀ p, IsPage image p → (∀ t, (s.pc t).inHand p = 0) →
      s.allocated p = true ∧ (∀ i, p ∉ lists i) ∨
      s.allocated p = false ∧ ∃ i, (lists i).count p = 1 ∧ ∀ j, j ≠ i → p ∉ lists j

theorem ListInv.kept {T : Type} [Fintype T] {image : Nat} {s : Sys T} {lists : Cpu → List Nat}
    (inv : ListInv image s lists) : PagesKept image s := by
  refine ⟨fun t panicked => ?_, lists, fun i => ⟨inv.ok.linked i, inv.ok.size i⟩,
    fun p page free => ?_⟩
  · have place := inv.places t
    rw [panicked] at place
    exact place
  have counted := inv.counted p
  rw [total_eq_zero free, if_pos page] at counted
  cases taken : s.allocated p with
  | true =>
    rw [taken, Bool.toNat_true] at counted
    exact .inl ⟨rfl, notMem_of_onLists (by omega)⟩
  | false =>
    rw [taken, Bool.toNat_false] at counted
    have one : 0 < onLists lists p := by omega
    obtain ⟨i, here⟩ := exists_of_total_pos one
    refine .inr ⟨rfl, i, ?_, fun j other => inv.ok.only (count_pos_iff.mp here) other⟩
    have most := (count_le_onLists lists p i).trans (inv.ok.once p)
    omega

/-- In every interleaving whose calls of `kfree` pass allocated pages. -/
theorem pages_kept_of_frees {T : Type} [Fintype T] [DecidableEq T] (image : Nat) (next : Nat → Nat)
    (acts : List (Act T)) (owned : RunMeets (sysStep image) FreesOwn (bootSys image next) acts) :
    PagesKept image (acts.foldl (sysStep image) (bootSys image next)) := by
  have kept := run_invariant (sysStep image) FreesOwn
    (fun s : Sys T => LockInv s ∧ ∃ lists, ListInv image s lists)
    (fun s a inv owned => by
      obtain ⟨locks, lists, inv⟩ := inv
      exact ⟨locks.step image a, inv.step locks a owned⟩)
    acts (bootSys image next) ⟨bootSys_lockInv image next, bootSys_listInv image next⟩ owned
  obtain ⟨_, lists, inv⟩ := kept
  exact inv.kept

def stealAndFree : List (Act Cpu) :=
  [.kalloc 1 1] ++ replicate 8 (.go 1) ++ [.kfree 1 (physTop - pgSize) 0, .kalloc 2 0, .go 1,
    .go 1, .go 2, .go 1, .go 1, .go 2]

theorem pages_kept_stealAndFree :
    RunMeets (sysStep imageForTwo) FreesOwn (bootSys imageForTwo fun _ => 0) stealAndFree ∧
      PagesKept imageForTwo
        (stealAndFree.foldl (sysStep imageForTwo) (bootSys imageForTwo fun _ => 0)) := by
  have owned : RunMeets (sysStep imageForTwo) FreesOwn (bootSys imageForTwo fun _ => 0)
      stealAndFree := by
    decide +kernel
  exact ⟨owned, pages_kept_of_frees imageForTwo (fun _ => 0) stealAndFree owned⟩

/-! ## A call that runs alone -/

section Alone
variable {T : Type} [DecidableEq T] {image : Nat} {s : Sys T} {t : T} {mcpu : Cpu}

def Reaches (image : Nat) (t : T) (s s' : Sys T) : Prop :=
  ∃ n, (replicate n (Act.go t)).foldl (sysStep image) s = s'

theorem Reaches.refl (s : Sys T) : Reaches image t s s := ⟨0, rfl⟩

theorem Reaches.head {s' : Sys T} (rest : Reaches image t (s.go t) s') : Reaches image t s s' := by
  obtain ⟨n, run⟩ := rest
  exact ⟨n + 1, run⟩

theorem Reaches.trans {s' s'' : Sys T} (first : Reaches image t s s')
    (second : Reaches image t s' s'') : Reaches image t s s'' := by
  obtain ⟨n, run⟩ := first
  obtain ⟨m, run'⟩ := second
  refine ⟨n + m, ?_⟩
  rw [replicate_add, foldl_append, run, run']

section
variable (s : Sys T) (t : T)

@[simp] theorem goto_pc (pc : Pc) : (s.goto t pc).pc t = pc := by
  simp [goto]

@[simp] theorem goto_goto (first second : Pc) (mem : Mem)
    (lock : Cpu → Option T) (allocated : Nat → Bool) :
    goto ⟨mem, lock, (s.goto t first).pc, allocated⟩ t second =
      goto ⟨mem, lock, s.pc, allocated⟩ t second := by
  simp [goto]

@[simp] theorem goto_again (first second : Pc) :
    (s.goto t first).goto t second = s.goto t second :=
  goto_goto s t first second s.mem s.lock s.allocated

@[simp] theorem goto_mem (pc : Pc) : (s.goto t pc).mem = s.mem := rfl

@[simp] theorem goto_lock (pc : Pc) : (s.goto t pc).lock = s.lock := rfl

@[simp] theorem goto_allocated (pc : Pc) :
    (s.goto t pc).allocated = s.allocated := rfl

end

theorem goto_self {pc : Pc} (here : s.pc t = pc) : s.goto t pc = s := by
  rw [← here, goto, update_eq_self]

theorem acquire_free {l : Cpu} (free : s.lock l = none) (pc next : Pc) :
    (s.goto t pc).acquire t l next =
      { s with lock := update s.lock l (some t) }.goto t next := by
  simp [acquire, goto, free]

theorem release_taken {lock : Cpu → Option T} {l : Cpu} (free : lock l = none) (mem : Mem)
    (places : T → Pc) (allocated : Nat → Bool) (pc next : Pc) :
    release (goto ⟨mem, update lock l (some t), places, allocated⟩ t pc) t l next =
      goto ⟨mem, lock, places, allocated⟩ t next := by
  have back : update (update lock l (some t)) l none = lock := by
    rw [update_idem, ← free, update_eq_self]
  simp [release, goto, back]

theorem reaches_stealLoop (free : ∀ l, l ≠ mcpu → s.lock l = none) (rest : List Cpu) :
    Reaches image t (s.goto t (stealFrom mcpu rest))
      ({ s with mem := stealLoop s.mem mcpu rest }.goto t (.allocTake mcpu)) := by
  induction rest with
  | nil => exact Reaches.refl _
  | cons i rest ih =>
    by_cases same : i = mcpu
    · simpa only [stealFrom, stealLoop, if_pos same] using ih
    have unlocked := free i same
    simp only [stealFrom, stealLoop, if_neg same]
    refine .head ?_
    simp only [go, goto_pc, acquire_free unlocked]
    by_cases enough : 2 ≤ (s.mem.kmems i).pgsize
    · refine .head ?_
      simp only [go, goto_pc, goto_mem, goto_lock, goto_allocated, goto_goto, if_pos enough]
      refine .head ?_
      simp only [go, goto_pc]
      rw [release_taken unlocked]
      exact .refl _
    refine .head ?_
    simp only [go, goto_pc, goto_mem, goto_again, if_neg enough]
    refine .head ?_
    simp only [go, goto_pc, Bool.false_eq_true, if_false]
    rw [release_taken unlocked]
    refine .head ?_
    simp only [go, goto_pc, goto_again]
    exact ih

theorem kalloc_alone (image : Nat) (mcpu : Cpu) (idle : s.pc t = .idle)
    (free : ∀ l, s.lock l = none) : Reaches image t (sysStep image s (.kalloc t mcpu))
      { s with
        mem := (callStep image ⟨s.mem, s.allocated⟩ (.kalloc mcpu)).mem
        allocated := (callStep image ⟨s.mem, s.allocated⟩ (.kalloc mcpu)).allocated } := by
  -- From the end of `stealmem` on.
  have finish : ∀ mem : Mem,
      Reaches image t (goto ⟨mem, update s.lock mcpu (some t), s.pc, s.allocated⟩ t
        (.allocTake mcpu))
        ⟨if (takePage mem mcpu).1 ≠ 0 then fillPage (takePage mem mcpu).2 (takePage mem mcpu).1 5
          else (takePage mem mcpu).2, s.lock, s.pc,
          if (takePage mem mcpu).1 ≠ 0 then update s.allocated (takePage mem mcpu).1 true
          else s.allocated⟩ := by
    intro mem
    refine .head ?_
    simp only [go, goto_pc, goto_mem, goto_lock, goto_allocated, goto_goto]
    refine .head ?_
    simp only [go, goto_pc]
    rw [release_taken (free mcpu)]
    by_cases zero : (takePage mem mcpu).1 = 0
    · simp only [ne_eq, zero, not_true, if_false]
      rw [goto_self (by exact idle)]
      exact .refl _
    · simp only [ne_eq, zero, not_false_eq_true, if_true]
      refine .head ?_
      simp only [go, goto_pc, goto_mem, goto_lock, goto_allocated, goto_goto]
      rw [goto_self (by exact idle)]
      exact .refl _
  simp only [sysStep, if_pos idle]
  refine .head ?_
  simp only [go, goto_pc, acquire_free (free mcpu)]
  refine .head ?_
  by_cases zero : (s.mem.kmems mcpu).pgsize = 0
  · simp only [go, goto_pc, goto_mem, goto_again, zero, if_true]
    refine .head ?_
    simp only [go, goto_pc, goto_again]
    have others : ∀ l, l ≠ mcpu → update s.lock mcpu (some t) l = none := fun l other => by
      rw [update_of_ne other, free l]
    refine (reaches_stealLoop others (finRange ncpu)).trans ?_
    have last := finish (stealLoop s.mem mcpu (finRange ncpu))
    simpa only [callStep, kalloc, stealmem, if_pos zero] using last
  · simp only [go, goto_pc, goto_mem, goto_again, zero, if_false]
    simpa only [callStep, kalloc, if_neg zero] using finish s.mem

theorem kfree_alone {image pa : Nat} (page : IsPage image pa) (mcpu : Cpu)
    (idle : s.pc t = .idle) (free : ∀ l, s.lock l = none) :
    Reaches image t (sysStep image s (.kfree t pa mcpu))
      { s with
        mem := (callStep image ⟨s.mem, s.allocated⟩ (.kfree pa mcpu)).mem
        allocated := (callStep image ⟨s.mem, s.allocated⟩ (.kfree pa mcpu)).allocated } := by
  have accepted := (not_notAPage_iff pa).mpr page
  simp only [sysStep, if_pos idle, if_neg accepted]
  refine .head ?_
  simp only [go, goto_pc, goto_mem, goto_lock, goto_allocated, goto_goto]
  refine .head ?_
  simp only [go, goto_pc]
  rw [acquire_free (by exact free mcpu)]
  refine .head ?_
  simp only [go, goto_pc, goto_mem, goto_lock, goto_allocated, goto_goto]
  refine .head ?_
  simp only [go, goto_pc]
  rw [release_taken (free mcpu), goto_self (by exact idle)]
  simp only [callStep, kfree, if_neg accepted]
  exact .refl _

def restingSys (T : Type) (s : Pool) : Sys T :=
  ⟨s.mem, fun _ => none, fun _ => .idle, s.allocated⟩

omit [DecidableEq T] in
theorem restingSys_boot (image : Nat) (next : Nat → Nat) :
    restingSys T (bootPool image next) = bootSys image next := rfl

def callOf : Act T → Option Call
  | .kalloc _ mcpu => some (.kalloc mcpu)
  | .kfree _ pa mcpu => some (.kfree pa mcpu)
  | .go _ => none

omit [DecidableEq T] in
theorem filterMap_callOf_go (t : T) (n : Nat) : (replicate n (.go t)).filterMap callOf = [] := by
  simp [callOf]

/-- Calls one after the other are one of the interleavings. -/
theorem calls_interleaved (t : T) (calls : List Call) : ∀ s : Pool, PoolInv image s →
    RunMeets (callStep image) FreesAllocated s calls →
    ∃ acts : List (Act T), acts.filterMap callOf = calls ∧
      acts.foldl (sysStep image) (restingSys T s) =
        restingSys T (calls.foldl (callStep image) s) := by
  induction calls with
  | nil => intro s _ _; exact ⟨[], rfl, rfl⟩
  | cons call rest ih =>
    intro s inv owned
    obtain ⟨acts, made, run⟩ := ih _ (inv.step owned.1) owned.2
    cases call with
    | kalloc mcpu =>
      obtain ⟨n, alone⟩ := kalloc_alone image mcpu (s := restingSys T s) (t := t) rfl fun _ => rfl
      refine ⟨.kalloc t mcpu :: (replicate n (.go t) ++ acts), ?_, ?_⟩
      · simp [callOf, filterMap_callOf_go, made]
      rw [foldl_cons, foldl_append, alone]
      exact run
    | kfree pa mcpu =>
      obtain ⟨n, alone⟩ := kfree_alone (inv.isPage owned.1) mcpu (s := restingSys T s) (t := t)
        rfl fun _ => rfl
      refine ⟨.kfree t pa mcpu :: (replicate n (.go t) ++ acts), ?_, ?_⟩
      · simp [callOf, filterMap_callOf_go, made]
      rw [foldl_cons, foldl_append, alone]
      exact run

end Alone

theorem calls_interleaved_two_pages : ∃ acts : List (Act Cpu),
    acts.filterMap callOf = [.kalloc 1, .kfree (physTop - pgSize) 0, .kalloc 1] ∧
    acts.foldl (sysStep imageForTwo) (restingSys Cpu (bootPool imageForTwo fun _ => 0)) =
      restingSys Cpu ([.kalloc 1, .kfree (physTop - pgSize) 0, .kalloc 1].foldl
        (callStep imageForTwo) (bootPool imageForTwo fun _ => 0)) :=
  calls_interleaved 0 _ _ (bootPool_inv _ _) (by decide +kernel)

end KernelLabs.Xv6
