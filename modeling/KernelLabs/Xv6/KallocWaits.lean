import KernelLabs.Lib.WaitFor
import KernelLabs.Xv6.KallocSys

/-!
# Circular waits in the page allocator

`stealmem` acquires the locks of the other CPUs while `kalloc` holds the lock of its own.  Two CPUs
with empty lists can each hold their lock and wait for the other's.
-/

set_option autoImplicit false

namespace KernelLabs.Xv6

open Lib Function List

variable {mcpu : Cpu}

open Sys

section Waits
variable {T : Type}

/-- `t` holds a lock and is about to acquire one that `u` holds. -/
def Waits (s : Sys T) (t u : T) : Prop :=
  (∃ l, s.lock l = some t) ∧ u ≠ t ∧ ∃ l, (s.pc t).wants = some l ∧ s.lock l = some u

instance (s : Sys T) [DecidableEq T] (t u : T) : Decidable (Waits s t u) :=
  inferInstanceAs (Decidable (_ ∧ _ ∧ _))

/-- The lock that the loop of `stealmem` comes to in the next step. -/
def Sys.nextVictim (s : Sys T) (t : T) : Option Cpu :=
  match s.pc t with
  | .stealHead mcpu rest => (stealFrom mcpu rest).wants
  | _ => none

/-- Where `stealmem` comes to a lock, its holder does not wait for the caller, neither directly nor
through others. -/
def NoCircle (s : Sys T) : Act T → Prop
  | .go t => ∀ l u, s.nextVictim t = some l → s.lock l = some u →
      ¬ Relation.ReflTransGen (Waits s) u t
  | _ => True

variable {s : Sys T} {t : T} {next : Pc}

theorem not_waits_of_wants (none : (s.pc t).wants = none) (u : T) : ¬ Waits s t u := by
  rintro ⟨_, _, l, wanted, _⟩
  rw [none] at wanted
  cases wanted

theorem not_waits_of_held (inv : LockInv s) (none : (s.pc t).held = []) (u : T) :
    ¬ Waits s t u := by
  rintro ⟨⟨l, holds⟩, _⟩
  have member := (inv.locked t l).mp holds
  rw [none] at member
  cases member

variable [DecidableEq T] {allocated : Nat → Bool} {mem : Mem}

theorem waits_goto {v w : T} (other : v ≠ t) :
    Waits ({ s with mem := mem, allocated := allocated }.goto t next) v w ↔ Waits s v w := by
  simp only [Waits, goto, update_of_ne other]

variable (none : NoneStuck (Waits s))
include none

theorem noneStuck_goto
    (quiet : ∀ u, ¬ Waits ({ s with mem := mem, allocated := allocated }.goto t next) t u) :
    NoneStuck (Waits ({ s with mem := mem, allocated := allocated }.goto t next)) := by
  refine none.mono fun v w waits => ?_
  by_cases same : v = t
  · subst same
    exact absurd waits (quiet w)
  · exact (waits_goto same).mp waits

/-- A step that is not at the head of the loop of `stealmem` closes no circle. -/
theorem noneStuck_moved (inv : LockInv s) {s' : Sys T} (moved : LockMove s t (s.pc t) s')
    (other : ∀ mcpu rest, s.pc t ≠ .stealHead mcpu rest) : NoneStuck (Waits s') := by
  cases moved with
  | stays => exact none
  | goto held apart quiet =>
    refine noneStuck_goto none ?_
    rcases quiet with wants | nothing | ⟨mcpu, rest, here⟩
    · exact not_waits_of_wants (by rw [goto_pc, wants])
    · exact not_waits_of_held (inv.moved (.goto held apart (Or.inr (Or.inl nothing))))
        (by rw [goto_pc, nothing])
    · exact absurd here (other mcpu rest)
  | @acquire l next fresh held apart wants =>
    rcases inv.acquire_eq fresh next with stays | ⟨_, taken⟩
    · rwa [stays]
    rw [taken]
    -- The new holder waits for nobody, so it is in no circle.
    refine none.except (not_waits_of_wants (t := t) (by rw [goto_pc, wants])) ?_
    rintro v w notV notW ⟨⟨h, holds⟩, apart, k, wanted, held⟩
    have elsewhere : ∀ {k : Cpu} {x : T}, x ≠ t →
        update s.lock l (some t) k = some x → s.lock k = some x := by
      intro k x other owner
      by_cases this : k = l
      · subst this
        rw [update_self] at owner
        exact absurd (Option.some.inj owner).symm other
      · rwa [update_of_ne this] at owner
    refine ⟨⟨h, elsewhere notV holds⟩, apart, k, ?_, elsewhere notW held⟩
    simpa only [goto, update_of_ne notV] using wanted
  | @release l next fresh held apart wants =>
    rw [inv.release_eq (by simp [held])]
    refine none.mono ?_
    rintro v w ⟨⟨h, holds⟩, apart, k, wanted, held⟩
    have before : ∀ {k : Cpu} {x : T}, update s.lock l Option.none k = some x →
        s.lock k = some x := by
      intro k x owner
      by_cases this : k = l
      · subst this
        rw [update_self] at owner
        cases owner
      · rwa [update_of_ne this] at owner
    by_cases same : v = t
    · subst same
      rw [goto_pc, wants] at wanted
      cases wanted
    · refine ⟨⟨h, before holds⟩, apart, k, ?_, before held⟩
      simpa only [goto, update_of_ne same] using wanted

/-! ## The head of the loop of `stealmem` -/

variable {rest : List Cpu}

omit none in
theorem stealFrom_wants {l : Cpu} (wanted : (stealFrom mcpu rest).wants = some l) : l ≠ mcpu := by
  induction rest with
  | nil => cases wanted
  | cons i rest ih =>
    rw [stealFrom] at wanted
    split at wanted
    · exact ih wanted
    · next other =>
        cases wanted
        exact other

omit none in
/-- After the step `t` waits exactly for the holder of the lock it has come to. -/
theorem waits_stealHead (inv : LockInv s) (here : s.pc t = .stealHead mcpu rest) (u : T) :
    Waits (s.goto t (stealFrom mcpu rest)) t u ↔
      ∃ l, (stealFrom mcpu rest).wants = some l ∧ s.lock l = some u := by
  have own : s.lock mcpu = some t := (inv.locked t mcpu).mpr (by simp [here, Pc.held])
  constructor
  · rintro ⟨_, _, l, wanted, held⟩
    exact ⟨l, by simpa only [goto_pc] using wanted, held⟩
  rintro ⟨l, wanted, held⟩
  refine ⟨⟨mcpu, own⟩, ?_, l, by simpa only [goto_pc] using wanted, held⟩
  rintro rfl
  have mine := (inv.locked u l).mp held
  rw [here] at mine
  exact stealFrom_wants wanted (mem_singleton.mp mine)

theorem noneStuck_stealHead [Fintype T] (inv : LockInv s) (here : s.pc t = .stealHead mcpu rest) :
    NoneStuck (Waits (s.goto t (stealFrom mcpu rest))) ↔
      ∀ l u, (stealFrom mcpu rest).wants = some l → s.lock l = some u →
        ¬ Relation.ReflTransGen (Waits s) u t := by
  constructor
  · intro after l u wanted held circle
    refine stuck_of_circle ((waits_stealHead inv here u).mpr ⟨l, wanted, held⟩)
      (fun v w waits => ?_)
      circle after
    have other : v ≠ t := by
      rintro rfl
      exact not_waits_of_wants (by rw [here]; rfl) w waits
    exact (waits_goto other).mpr waits
  · intro open_
    cases wanted : (stealFrom mcpu rest).wants with
    | none => exact noneStuck_goto none (not_waits_of_wants (by rw [goto_pc, wanted]))
    | some l =>
      cases holder : s.lock l with
      | none =>
        refine noneStuck_goto none fun u waits => ?_
        obtain ⟨k, same, held⟩ := (waits_stealHead inv here u).mp waits
        cases wanted.symm.trans same
        cases holder.symm.trans held
      | some u =>
        refine none.start (fun v waits => ?_) (fun v w other waits => (waits_goto other).mp waits)
          (open_ l u wanted holder)
        obtain ⟨k, same, held⟩ := (waits_stealHead inv here v).mp waits
        cases wanted.symm.trans same
        exact Option.some.inj (held.symm.trans holder)

/-! ## Whole runs -/

/-- A step leads into a circle exactly where `stealmem` closes one. -/
theorem noneStuck_sysStep [Fintype T] (inv : LockInv s) (image : Nat) (a : Act T) :
    NoneStuck (Waits (sysStep image s a)) ↔ NoCircle s a := by
  cases a with
  | kfree t pa mcpu =>
    refine iff_of_true ?_ trivial
    by_cases idle : s.pc t = .idle
    · exact noneStuck_moved none inv kfree_moves fun _ _ => by simp [idle]
    · rwa [sysStep, if_neg idle]
  | kalloc t mcpu =>
    refine iff_of_true ?_ trivial
    by_cases idle : s.pc t = .idle
    · exact noneStuck_moved none inv kalloc_moves fun _ _ => by simp [idle]
    · rwa [sysStep, if_neg idle]
  | go t =>
    by_cases head : ∃ mcpu rest, s.pc t = .stealHead mcpu rest
    · obtain ⟨mcpu, rest, here⟩ := head
      simp only [sysStep, NoCircle, nextVictim, go, here]
      exact noneStuck_stealHead none inv here
    refine iff_of_true (noneStuck_moved none inv (go_moves (inv.apart t))
        fun mcpu rest here => head ⟨mcpu, rest, here⟩)
      fun l u victim => ?_
    rw [nextVictim] at victim
    split at victim
    · next here => exact absurd ⟨_, _, here⟩ head
    · cases victim

omit none

/-- In every run, no set of CPUs that each hold a lock and wait for one of another member is
reached, exactly if `stealmem` never comes to a lock whose holder waits for the caller. -/
theorem no_deadlock_iff [Fintype T] (image : Nat) (next : Nat → Nat) (acts : List (Act T)) :
    RunMeets (sysStep image) NoCircle (bootSys image next) acts ↔
      ∀ pre, pre <+: acts → ∀ set : Finset T,
        ¬ Stuck (Waits (pre.foldl (sysStep image) (bootSys image next))) set := by
  refine run_exact (sysStep image) NoCircle (fun s => LockInv s ∧ NoneStuck (Waits s))
    (fun s => NoneStuck (Waits s)) (fun s inv => inv.2) ?_ ?_ acts (bootSys image next) ?_
  · intro s a inv apart
    exact ⟨inv.1.step image a, (noneStuck_sysStep inv.2 inv.1 image a).mpr apart⟩
  · intro s a inv good
    exact (noneStuck_sysStep inv.2 inv.1 image a).mp good
  · refine ⟨bootSys_lockInv image next, fun set stuck => ?_⟩
    obtain ⟨t, member⟩ := stuck.1
    obtain ⟨u, _, waits⟩ := stuck.2 t member
    exact not_waits_of_wants (s := bootSys image next) rfl u waits

end Waits

/-! ## A deadlock -/

section Deadlock
variable (image : Nat)

def NoKfree (acts : List (Act Cpu)) : Prop := ∀ t pa mcpu, Act.kfree t pa mcpu ∉ acts

theorem exhausts (n : Nat) : ∀ (s : Pool) (lists : Cpu → List Nat), Lists s.mem lists →
    (lists 0).length = n → ∃ (acts : List (Act Cpu)) (s' : Pool) (lists' : Cpu → List Nat),
      NoKfree acts ∧
      acts.foldl (sysStep image) (restingSys Cpu s) = restingSys Cpu s' ∧ Lists s'.mem lists' ∧
        lists' 0 = [] ∧ ∀ i, i ≠ 0 → lists' i = lists i := by
  induction n with
  | zero =>
    intro s lists ok length
    exact ⟨[], s, lists, by simp [NoKfree], rfl, ok, length_eq_zero_iff.mp length, fun _ _ => rfl⟩
  | succ n ih =>
    intro s lists ok length
    obtain ⟨r, rest, head⟩ := exists_cons_of_length_eq_add_one length
    have taken := kalloc_own ok head
    rw [head, length_cons, Nat.add_right_cancel_iff] at length
    obtain ⟨acts, s', lists', noKfree, run, ok', empty, others⟩ :=
      ih (callStep image s (.kalloc 0)) _ taken (by rw [update_self, length])
    obtain ⟨k, alone⟩ := kalloc_alone image 0 (s := restingSys Cpu s) (t := 0) rfl fun _ => rfl
    refine ⟨.kalloc 0 0 :: (replicate k (.go 0) ++ acts), s', lists', ?_, ?_, ok', empty,
      fun i other => ?_⟩
    · intro t pa mcpu
      simp [mem_replicate, noKfree t pa mcpu]
    · rw [foldl_cons, foldl_append, alone]
      exact run
    · rw [others i other, update_of_ne other]

/-- `kalloc` on an empty list, up to the first lock it wants to steal from. -/
def startSteal (t mcpu : Cpu) : List (Act Cpu) := [.kalloc t mcpu, .go t, .go t, .go t]

theorem startSteal_eq {s : Sys Cpu} {t : Cpu} (idle : s.pc t = .idle) (free : s.lock mcpu = none)
    (empty : (s.mem.kmems mcpu).pgsize = 0) :
    (startSteal t mcpu).foldl (sysStep image) s =
      { s with lock := update s.lock mcpu (some t) }.goto t
        (stealFrom mcpu (finRange ncpu)) := by
  simp only [startSteal, foldl_cons, foldl_nil, sysStep, if_pos idle, go, goto_pc,
    acquire_free free, goto_mem, goto_again, empty, if_true]

/-- CPUs 0 and 1 hold the lock of their own list and want the lock of the other's. -/
structure StealsCrosswise (s : Sys Cpu) : Prop where
  lock0 : s.lock 0 = some 0
  lock1 : s.lock 1 = some 1
  pc0 : ∃ rest, s.pc 0 = .stealAcquire 0 1 rest
  pc1 : ∃ rest, s.pc 1 = .stealAcquire 1 0 rest

theorem StealsCrosswise.stuck {s : Sys Cpu} (crosswise : StealsCrosswise s) :
    Stuck (Waits s) {0, 1} := by
  obtain ⟨lock0, lock1, ⟨_, pc0⟩, ⟨_, pc1⟩⟩ := crosswise
  refine ⟨⟨0, by simp⟩, fun t member => ?_⟩
  rcases Finset.mem_insert.mp member with rfl | member
  · exact ⟨1, by simp, ⟨0, lock0⟩, by decide, 1, by rw [pc0]; rfl, lock1⟩
  · rw [Finset.mem_singleton.mp member]
    exact ⟨0, by simp, ⟨1, lock1⟩, by decide, 0, by rw [pc1]; rfl, lock0⟩

theorem startSteal_crosswise {s : Pool} (none : (s.mem.kmems 0).pgsize = 0)
    (none' : (s.mem.kmems 1).pgsize = 0) : StealsCrosswise
      ((startSteal 0 0 ++ startSteal 1 1).foldl (sysStep image) (restingSys Cpu s)) := by
  have apart : (1 : Cpu) ≠ 0 := by decide
  have first := startSteal_eq image (s := restingSys Cpu s) (t := 0) rfl rfl none
  rw [foldl_append, first, startSteal_eq]
  · refine ⟨?_, ?_, ⟨(finRange ncpu).drop 2, ?_⟩, ⟨(finRange ncpu).drop 1, ?_⟩⟩
    · simp [goto, restingSys, update_of_ne apart.symm]
    · simp [goto]
    · simp only [goto, update_of_ne apart.symm, update_self]
      decide
    · simp only [goto, update_self]
      decide
  · simp [goto, restingSys, update_of_ne apart]
  · simp [goto, restingSys, update_of_ne apart]
  · exact none'

end Deadlock

/-- With every kernel image, calls of `kalloc` alone lead into a circular wait of CPUs 0 and 1. -/
theorem every_image_deadlocks (image : Nat) (next : Nat → Nat) : ∃ acts : List (Act Cpu),
    NoKfree acts ∧ StealsCrosswise (acts.foldl (sysStep image) (bootSys image next)) ∧
      Stuck (Waits (acts.foldl (sysStep image) (bootSys image next))) {0, 1} := by
  obtain ⟨lists, ok, _, others⟩ := bootMem_lists image next
  obtain ⟨acts, s, lists', noKfree, run, ok', empty, kept⟩ :=
    exhausts image (lists 0).length (bootPool image next) lists ok rfl
  rw [restingSys_boot] at run
  have none : (s.mem.kmems 0).pgsize = 0 := by simp [ok'.size, empty]
  have none' : (s.mem.kmems 1).pgsize = 0 := by
    rw [ok'.size, kept 1 (by decide), others 1 (by decide)]
    rfl
  have crosswise := startSteal_crosswise image none none'
  refine ⟨acts ++ (startSteal 0 0 ++ startSteal 1 1), ?_, ?_⟩
  · intro t pa mcpu
    simp [startSteal, noKfree t pa mcpu]
  · rw [foldl_append, run]
    exact ⟨crosswise, crosswise.stuck⟩

def stealEachOther : List (Act Cpu) :=
  let whole : List (Act Cpu) := .kalloc 0 0 :: replicate 5 (.go 0)
  whole ++ whole ++ (startSteal 0 0 ++ startSteal 1 1)

theorem stealing_deadlocks :
    Stuck (Waits (stealEachOther.foldl (sysStep imageForTwo) (bootSys imageForTwo fun _ => 0)))
      {0, 1} := by
  decide +kernel

end KernelLabs.Xv6
