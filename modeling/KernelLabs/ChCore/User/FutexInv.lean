import KernelLabs.ChCore.User.Futex

/-!
# The invariant of the futex calls

It has four parts: what the table of entries and the cache of notifications are, which entries the
threads use, that the pending notifications and those who wait account for the threads in
`sys_wait`, and where those who wait are found.  The steps of a thread that waits keep it.
-/

set_option autoImplicit false

namespace KernelLabs.ChCore

open Lib List FutexEntry Futex
open Function (update update_of_ne update_self)

/-! ## The table -/

structure TableInv (entries : Int → FutexEntry) (cache : List Nat) (created : Nat) : Prop where
  places : ∀ e, (entries e).HasWaiter → 0 < e ∧ e < maxFutexEntries
  address : ∀ e e', (entries e).HasWaiter → (entries e').HasWaiter →
    (entries e).uaddr = (entries e').uaddr → e = e'
  caps : ∀ e e', (entries e).HasWaiter → (entries e').HasWaiter →
    (entries e).notificCap = (entries e').notificCap → e = e'
  made : ∀ e, (entries e).HasWaiter → (entries e).notificCap < created
  cached : ∀ cap ∈ cache, cap < created ∧ ∀ e, (entries e).HasWaiter → (entries e).notificCap ≠ cap
  once : cache.Nodup

structure Ready (entries : Int → FutexEntry) (cache : List Nat) (created : Nat) (e : Int)
    (uaddr : Nat) : Prop where
  place : 0 < e ∧ e < maxFutexEntries
  serves : (entries e).uaddr = uaddr
  others : ∀ e', e' ≠ e → (entries e').HasWaiter →
    (entries e').uaddr ≠ uaddr ∧ (entries e').notificCap ≠ (entries e).notificCap
  made : (entries e).notificCap < created
  free : (entries e).notificCap ∉ cache

variable {entry : FutexEntry} {cap : Nat}

section Table
variable {entries : Int → FutexEntry} {cache : List Nat} {created uaddr : Nat} {e : Int}
  (inv : TableInv entries cache created)
include inv

theorem TableInv.ready (used : (entries e).HasWaiter) :
    Ready entries cache created e (entries e).uaddr := by
  refine ⟨inv.places e used, rfl, ?_, inv.made e used, ?_⟩
  · intro e' other used'
    exact ⟨fun same => other (inv.address e' e used' used same),
      fun same => other (inv.caps e' e used' used same)⟩
  · intro member
    exact (inv.cached _ member).2 e used rfl

variable {V : Type}

omit inv in
theorem update_field (field : FutexEntry → V) (same : field entry = field (entries e)) (e' : Int) :
    field (update entries e entry e') = field (entries e') := by
  by_cases here : e' = e
  · subst here
    rw [update_self, same]
  · rw [update_of_ne here]

omit inv in
theorem tells_update (field : FutexEntry → V)
    (tells : ∀ e1 e2, (entries e1).HasWaiter → (entries e2).HasWaiter →
      field (entries e1) = field (entries e2) → e1 = e2)
    (others : ∀ e', e' ≠ e → (update entries e entry e').HasWaiter →
      field (update entries e entry e') ≠ field (update entries e entry e)) {e1 e2 : Int}
    (used1 : (update entries e entry e1).HasWaiter) (used2 : (update entries e entry e2).HasWaiter)
    (same : field (update entries e entry e1) = field (update entries e entry e2)) : e1 = e2 := by
  by_cases here1 : e1 = e
  · by_cases here2 : e2 = e
    · rw [here1, here2]
    · rw [here1] at same
      exact absurd same.symm (others e2 here2 used2)
  by_cases here2 : e2 = e
  · rw [here2] at same
    exact absurd same (others e1 here1 used1)
  · rw [update_of_ne here1] at used1 same
    rw [update_of_ne here2] at used2 same
    exact tells e1 e2 used1 used2 same

theorem TableInv.set (ready : Ready (update entries e entry) cache created e uaddr) :
    TableInv (update entries e entry) cache created := by
  have before : ∀ e', e' ≠ e → update entries e entry e' = entries e' :=
    fun e' other => update_of_ne other _ _
  refine ⟨?_, ?_, ?_, ?_, ?_, inv.once⟩
  · intro e' used
    by_cases here : e' = e
    · rw [here]
      exact ready.place
    · rw [before e' here] at used
      exact inv.places e' used
  · intro e1 e2 used1 used2
    refine tells_update FutexEntry.uaddr inv.address ?_ used1 used2
    intro e' other used
    rw [ready.serves]
    exact (ready.others e' other used).1
  · intro e1 e2 used1 used2
    exact tells_update notificCap inv.caps
      (fun e' other used => (ready.others e' other used).2) used1 used2
  · intro e' used
    by_cases here : e' = e
    · rw [here]
      exact ready.made
    · rw [before e' here] at used ⊢
      exact inv.made e' used
  · intro c member
    refine ⟨(inv.cached c member).1, ?_⟩
    intro e' used
    by_cases here : e' = e
    · rw [here]
      intro same
      exact ready.free (same ▸ member)
    · rw [before e' here] at used ⊢
      exact (inv.cached c member).2 e' used

omit inv in
theorem Ready.keep (ready : Ready entries cache created e uaddr) {changed : Int}
    (sameCap : entry.notificCap = (entries changed).notificCap)
    (sameAddr : entry.uaddr = (entries changed).uaddr)
    (used : changed = e ∨ (entries changed).HasWaiter) :
    Ready (update entries changed entry) cache created e uaddr := by
  have cap := update_field notificCap sameCap
  have addr := update_field FutexEntry.uaddr sameAddr
  refine ⟨ready.place, ?_, ?_, ?_, ?_⟩
  · rw [addr]
    exact ready.serves
  · intro e' other now
    rw [cap, cap, addr]
    by_cases here : e' = changed
    · rw [here] at other ⊢
      exact ready.others changed other (used.resolve_left other)
    · rw [update_of_ne here] at now
      exact ready.others e' other now
  · rw [cap]
    exact ready.made
  · rw [cap]
    exact ready.free

theorem Ready.set (ready : Ready entries cache created e uaddr)
    (sameCap : entry.notificCap = (entries e).notificCap)
    (sameAddr : entry.uaddr = (entries e).uaddr) :
    TableInv (update entries e entry) cache created :=
  inv.set (ready.keep sameCap sameAddr (.inl rfl))

theorem TableInv.release (used : (entries e).HasWaiter)
    (sameCap : entry.notificCap = (entries e).notificCap)
    (sameAddr : entry.uaddr = (entries e).uaddr) (now : ¬ entry.HasWaiter) :
    TableInv (update entries e entry) (entry.notificCap :: cache) created := by
  have ready := inv.ready used
  have table := ready.set inv sameCap sameAddr
  refine ⟨table.places, table.address, table.caps, table.made, ?_, ?_⟩
  · intro c member
    rcases mem_cons.mp member with rfl | before
    · rw [sameCap]
      refine ⟨ready.made, ?_⟩
      intro e' used' same
      have other : e' ≠ e := by
        rintro rfl
        rw [update_self] at used'
        exact now used'
      rw [update_of_ne other] at used' same
      exact (ready.others e' other used').2 same
    · exact table.cached c before
  · rw [sameCap]
    exact nodup_cons.mpr ⟨ready.free, inv.once⟩

theorem TableInv.give (place : 0 < e ∧ e < maxFutexEntries)
    (unused : ∀ e', (entries e').HasWaiter → (entries e').uaddr ≠ uaddr) (made : cap < created)
    (free : cap ∉ cache) (new : ∀ e', (entries e').HasWaiter → (entries e').notificCap ≠ cap) :
    TableInv (update entries e ⟨cap, uaddr, 0, []⟩) cache created ∧
      Ready (update entries e ⟨cap, uaddr, 0, []⟩) cache created e uaddr := by
  have after : Ready (update entries e ⟨cap, uaddr, 0, []⟩) cache created e uaddr := by
    refine ⟨place, ?_, ?_, ?_, ?_⟩
    · rw [update_self]
    · intro e' other used
      rw [update_of_ne other] at used ⊢
      rw [update_self]
      exact ⟨unused e' used, new e' used⟩
    · rw [update_self]
      exact made
    · rw [update_self]
      exact free
  exact ⟨inv.set after, after⟩

end Table

section Alloc
variable {T : Type} {s : Futex T} {e : Int} {uaddr : Nat}

theorem takeEntry_rest (s : Futex T) (e : Int) (uaddr : Nat) : (s.takeEntry e uaddr).futexEntries =
        update s.futexEntries e ⟨(futexAllocNotifc s).1, uaddr, 0, []⟩ ∧
      (s.takeEntry e uaddr).pc = s.pc ∧ (s.takeEntry e uaddr).pending = s.pending ∧
      (s.takeEntry e uaddr).waiters = s.waiters ∧ (s.takeEntry e uaddr).exact = s.exact := by
  rw [takeEntry, futexAllocNotifc]
  cases s.notifcCache with
  | nil | cons => exact ⟨rfl, rfl, rfl, rfl, rfl⟩

/-- `futex_alloc_notifc` gives a notification that no entry has. -/
theorem takeEntry_ready (inv : TableInv s.futexEntries s.notifcCache s.created)
    (place : 0 < e ∧ e < maxFutexEntries)
    (unused : ∀ e', (s.futexEntries e').HasWaiter → (s.futexEntries e').uaddr ≠ uaddr) :
    TableInv (s.takeEntry e uaddr).futexEntries (s.takeEntry e uaddr).notifcCache
        (s.takeEntry e uaddr).created ∧
      Ready (s.takeEntry e uaddr).futexEntries (s.takeEntry e uaddr).notifcCache
        (s.takeEntry e uaddr).created e uaddr := by
  rw [takeEntry, futexAllocNotifc]
  cases cache : s.notifcCache with
  | nil =>
    rw [cache] at inv
    refine TableInv.give ⟨inv.places, inv.address, inv.caps, ?_, ?_, ?_⟩ place unused
      (Nat.lt_succ_self _) ?_ ?_
    · intro e' used
      exact Nat.lt_succ_of_lt (inv.made e' used)
    · intro cap member
      exact absurd member not_mem_nil
    · exact nodup_nil
    · exact not_mem_nil
    · intro e' used
      exact Nat.ne_of_lt (inv.made e' used)
  | cons cap rest =>
    rw [cache] at inv
    have first := inv.cached cap mem_cons_self
    have once := nodup_cons.mp inv.once
    refine TableInv.give ⟨inv.places, inv.address, inv.caps, inv.made, ?_, once.2⟩ place unused
      first.1 once.1 first.2
    intro c member
    exact inv.cached c (mem_cons_of_mem cap member)

end Alloc

/-! ## The threads -/

structure ThreadInv {T : Type} [Fintype T] (entries : Int → FutexEntry) (pc : T → FutexPc) :
    Prop where
  users : ∀ e, (total (usesEntry e) pc : Int) ≤ (entries e).waiterCount
  caps : ∀ t e cap, pc t = .waiting e cap → (entries e).notificCap = cap

section Threads
variable {T : Type} [Fintype T] [DecidableEq T] {entries : Int → FutexEntry} {pc : T → FutexPc}
  {e : Int} (inv : ThreadInv entries pc)
include inv

variable {t : T}

theorem ThreadInv.counted (waits : pc t = .waiting e cap) : 0 < (entries e).waiterCount := by
  have one := le_total (usesEntry e) pc t
  have bound := inv.users e
  rw [waits, usesEntry, if_pos rfl] at one
  omega

variable {next : FutexPc}

theorem ThreadInv.move (t : T) (less : ∀ e, usesEntry e next ≤ usesEntry e (pc t))
    (awake : ∀ e cap, next ≠ .waiting e cap) : ThreadInv entries (update pc t next) := by
  constructor
  · intro e
    have moved := total_update (usesEntry e) pc t next
    have fewer := less e
    have bound := inv.users e
    omega
  intro u e cap waits
  by_cases same : u = t
  · subst same
    rw [update_self] at waits
    exact absurd waits (awake e cap)
  · rw [update_of_ne same] at waits
    exact inv.caps u e cap waits

omit [DecidableEq T] in
theorem ThreadInv.lists (sameCap : entry.notificCap = (entries e).notificCap)
    (sameCount : entry.waiterCount = (entries e).waiterCount) :
    ThreadInv (update entries e entry) pc := by
  constructor
  · intro e'
    rw [update_field waiterCount sameCount]
    exact inv.users e'
  · intro t e' cap waits
    rw [update_field notificCap sameCap]
    exact inv.caps t e' cap waits

theorem ThreadInv.give (empty : ¬ (entries e).HasWaiter) (cap uaddr : Nat) :
    ThreadInv (update entries e ⟨cap, uaddr, 0, []⟩) pc := by
  have nobody : (entries e).waiterCount ≤ 0 := Int.not_lt.mp fun some => empty (.inl some)
  constructor
  · intro e'
    have bound := inv.users e'
    by_cases here : e' = e
    · subst here
      rw [update_self]
      exact bound.trans nobody
    · rw [update_of_ne here]
      exact bound
  · intro t e' c waits
    have other : e' ≠ e := by
      rintro rfl
      have positive := inv.counted waits
      omega
    rw [update_of_ne other]
    exact inv.caps t e' c waits

theorem ThreadInv.recount (t : T) (sameCap : entry.notificCap = (entries e).notificCap)
    (count : ∀ e', ((entries e').waiterCount + usesEntry e' next : Int) ≤
      (update entries e entry e').waiterCount + usesEntry e' (pc t))
    (own : ∀ e' cap, next = .waiting e' cap → (entries e').notificCap = cap) :
    ThreadInv (update entries e entry) (update pc t next) := by
  constructor
  · intro e'
    have moved := total_update (usesEntry e') pc t next
    have bound := inv.users e'
    have change := count e'
    omega
  intro u e' c waits
  rw [update_field notificCap sameCap]
  by_cases same : u = t
  · rw [same, update_self] at waits
    exact own e' c waits
  · rw [update_of_ne same] at waits
    exact inv.caps u e' c waits

theorem ThreadInv.enter (outside : pc t = .idle) (e : Int) : ThreadInv (update entries e
        { entries e with waiterCount := (entries e).waiterCount + 1 })
      (update pc t (.waiting e (entries e).notificCap)) := by
  refine inv.recount t rfl ?_ ?_
  · intro e'
    rw [outside, usesEntry, usesEntry]
    by_cases here : e' = e
    · rw [here, if_pos rfl, update_self]
      dsimp only
      omega
    · rw [if_neg (Ne.symm here), update_of_ne here]
  · intro e' cap waits
    cases waits
    rfl

theorem ThreadInv.leave (back : pc t = .resumed e) : ThreadInv (update entries e
        { entries e with waiterCount := (entries e).waiterCount - 1 })
      (update pc t .idle) := by
  refine inv.recount t rfl ?_ ?_
  · intro e'
    rw [back, usesEntry, usesEntry]
    by_cases here : e' = e
    · rw [here, if_pos rfl, update_self]
      dsimp only
      omega
    · rw [if_neg (Ne.symm here), update_of_ne here]
  · intro e' cap never
    cases never

end Threads

/-! ## Those who wait -/

section Waiters
variable {waiters : List (Nat × Nat)} {w : Nat × Nat}

theorem waitersOn_concat (cap : Nat) :
    waitersOn (waiters ++ [w]) cap = waitersOn waiters cap + if w.1 = cap then 1 else 0 := by
  simp only [waitersOn, countP_append, countP_singleton, decide_eq_true_eq]

theorem waitersOn_erase (member : w ∈ waiters) (cap : Nat) :
    waitersOn (waiters.erase w) cap + (if w.1 = cap then 1 else 0) = waitersOn waiters cap := by
  simp only [waitersOn]
  rw [(perm_cons_erase member).countP_eq, countP_cons]
  simp only [decide_eq_true_eq]

theorem dropWaiter_erase (some : 0 < waitersOn waiters cap) (uaddr : Nat) :
    ∃ w ∈ waiters, w.1 = cap ∧ dropWaiter waiters cap uaddr = waiters.erase w := by
  by_cases member : (cap, uaddr) ∈ waiters
  · exact ⟨(cap, uaddr), member, rfl, if_pos member⟩
  rw [dropWaiter, if_neg member]
  cases found : waiters.find? fun w => w.1 = cap with
  | none =>
    obtain ⟨w, inside, on⟩ := countP_pos_iff.mp some
    exact absurd on (find?_eq_none.mp found w inside)
  | some w =>
    exact ⟨w, mem_of_find?_eq_some found, by simpa using find?_some found, rfl⟩

theorem waitersOn_moveWaiter (cap uaddr uaddr2 c : Nat) :
    waitersOn (moveWaiter waiters cap uaddr uaddr2) c = waitersOn waiters c := by
  rw [moveWaiter]
  split
  · next member =>
      rw [waitersOn_concat]
      exact waitersOn_erase member c
  · rfl

end Waiters

/-- The notifications on their way and those who wait without one are the threads in `sys_wait`. -/
def AccountInv {T : Type} [Fintype T] (pc : T → FutexPc) (pending : Nat → Nat)
    (waiters : List (Nat × Nat)) : Prop :=
  ∀ cap, waitersOn waiters cap + pending cap = total (waitsOnCap cap) pc

/-- Those who wait for an address wait on the notification of its entry, or are in the list of
those requeued to it. -/
def PlacedInv (entries : Int → FutexEntry) (waiters : List (Nat × Nat)) : Prop :=
  ∀ cap a, (cap, a) ∈ waiters → ∃ e, (entries e).Serves a ∧
    ((entries e).notificCap = cap ∨
      waiters.count (cap, a) ≤ (entries e).requeuedFutexList.count cap)

variable {a : Nat}

section Placed
variable {entries : Int → FutexEntry} {waiters waiters' : List (Nat × Nat)} {e : Int}
  (inv : PlacedInv entries waiters)
include inv

theorem PlacedInv.mono (fewer : ∀ w, waiters'.count w ≤ waiters.count w) :
    PlacedInv entries waiters' := by
  intro cap a member
  have before : (cap, a) ∈ waiters :=
    count_pos_iff.mp (Nat.lt_of_lt_of_le (count_pos_iff.mpr member) (fewer (cap, a)))
  obtain ⟨e, serves, site⟩ := inv cap a before
  refine ⟨e, serves, ?_⟩
  rcases site with own | listed
  · exact .inl own
  · exact .inr ((fewer (cap, a)).trans listed)

theorem PlacedInv.erase (w : Nat × Nat) : PlacedInv entries (waiters.erase w) :=
  inv.mono fun w' => Sublist.count_le w' erase_sublist

theorem PlacedInv.give (empty : ¬ (entries e).HasWaiter) (entry : FutexEntry) :
    PlacedInv (update entries e entry) waiters := by
  intro cap a member
  obtain ⟨e', serves, site⟩ := inv cap a member
  have other : e' ≠ e := by
    rintro rfl
    exact empty serves.1
  refine ⟨e', ?_⟩
  rw [update_of_ne other]
  exact ⟨serves, site⟩

theorem PlacedInv.count (used : entry.HasWaiter)
    (sameCap : entry.notificCap = (entries e).notificCap)
    (sameAddr : entry.uaddr = (entries e).uaddr)
    (sameList : entry.requeuedFutexList = (entries e).requeuedFutexList) :
    PlacedInv (update entries e entry) waiters := by
  intro cap a member
  obtain ⟨e', serves, site⟩ := inv cap a member
  refine ⟨e', ?_⟩
  rw [update_field notificCap sameCap,
    update_field requeuedFutexList sameList]
  refine ⟨⟨?_, ?_⟩, site⟩
  · by_cases here : e' = e
    · subst here
      rw [update_self]
      exact used
    · rw [update_of_ne here]
      exact serves.1
  · rw [update_field uaddr sameAddr]
    exact serves.2

theorem PlacedInv.concat (serves : (entries e).Serves a) (own : (entries e).notificCap = cap) :
    PlacedInv entries (waiters ++ [(cap, a)]) := by
  intro cap' a' member
  by_cases same : (cap', a') = (cap, a)
  · cases same
    exact ⟨e, serves, .inl own⟩
  have before : (cap', a') ∈ waiters := by
    rcases mem_append.mp member with old | new
    · exact old
    · exact absurd (mem_singleton.mp new) same
  obtain ⟨e', serves', site⟩ := inv cap' a' before
  refine ⟨e', serves', ?_⟩
  have count : (waiters ++ [(cap, a)]).count (cap', a') = waiters.count (cap', a') := by
    rw [count_append, count_singleton, if_neg (by simpa using Ne.symm same)]
    rfl
  rw [count]
  exact site

end Placed

/-! ## One step -/

structure FutexInv {T : Type} [Fintype T] (s : Futex T) : Prop where
  table : TableInv s.futexEntries s.notifcCache s.created
  threads : ThreadInv s.futexEntries s.pc
  account : AccountInv s.pc s.pending s.waiters
  placed : PlacedInv s.futexEntries s.waiters
  exact : s.exact

section Steps
variable {T : Type} [Fintype T] [DecidableEq T] {s : Futex T} {waiters : List (Nat × Nat)}

/-- Somebody who waits on a notification is a thread that an entry with it counts. -/
theorem cap_counted {entries : Int → FutexEntry} {pc : T → FutexPc} {pending : Nat → Nat}
    (threads : ThreadInv entries pc) (account : AccountInv pc pending waiters)
    (some : 0 < waitersOn waiters cap) :
    ∃ e, (entries e).HasWaiter ∧ 0 < (entries e).waiterCount ∧ (entries e).notificCap = cap := by
  have account := account cap
  obtain ⟨t, waits⟩ := exists_of_total_pos (show 0 < total (waitsOnCap cap) pc by omega)
  cases place : pc t with
  | idle | resumed => simp [place, waitsOnCap] at waits
  | waiting idx cap' =>
    have same : cap' = cap := by
      by_contra other
      simp [place, waitsOnCap, other] at waits
    have counted := threads.counted place
    exact ⟨idx, .inl counted, counted, (threads.caps t idx cap' place).trans same⟩

theorem waitersOn_pos (member : (cap, a) ∈ waiters) : 0 < waitersOn waiters cap :=
  countP_pos_iff.mpr ⟨(cap, a), member, by simp⟩

section
variable (inv : FutexInv s)
include inv

variable {uaddr : Nat} {e : Int}

theorem FutexInv.enter {t : T} (outside : s.pc t = .idle)
    (ready : Ready s.futexEntries s.notifcCache s.created e uaddr) : FutexInv (s.enter t e) := by
  generalize counted : ({ s.futexEntries e with
    waiterCount := (s.futexEntries e).waiterCount + 1 } : FutexEntry) = entry
  have cap : entry.notificCap = (s.futexEntries e).notificCap := by rw [← counted]
  have addr : entry.uaddr = (s.futexEntries e).uaddr := by rw [← counted]
  have list : entry.requeuedFutexList = (s.futexEntries e).requeuedFutexList := by rw [← counted]
  have used : entry.HasWaiter := by
    have count := inv.threads.users e
    rw [← counted]
    left
    dsimp only
    omega
  have threads := inv.threads.enter outside e
  rw [counted] at threads
  have state : s.enter t e = { (s.setEntry e entry).goto t
      (.waiting e (s.futexEntries e).notificCap) with
        waiters := s.waiters ++ [((s.futexEntries e).notificCap, (s.futexEntries e).uaddr)] } := by
    rw [← counted]
    rfl
  rw [state]
  refine ⟨ready.set inv.table cap addr, threads, ?_, ?_, inv.exact⟩
  · intro c
    have before := inv.account c
    have moved := total_update (waitsOnCap c) s.pc t (.waiting e (s.futexEntries e).notificCap)
    rw [outside] at moved
    simp only [waitsOnCap] at moved
    simp only [goto, Futex.setEntry, waitersOn_concat]
    omega
  · apply (inv.placed.count used cap addr list).concat
    · exact ⟨by rw [update_self]; exact used, by rw [update_self, addr]⟩
    · rw [update_self, cap]

theorem FutexInv.takeEntry (place : 0 < e ∧ e < maxFutexEntries)
    (empty : ¬ (s.futexEntries e).HasWaiter)
    (unused : ∀ e', (s.futexEntries e').HasWaiter → (s.futexEntries e').uaddr ≠ uaddr) :
    FutexInv (s.takeEntry e uaddr) ∧ Ready (s.takeEntry e uaddr).futexEntries
      (s.takeEntry e uaddr).notifcCache (s.takeEntry e uaddr).created e uaddr := by
  obtain ⟨table, ready⟩ := takeEntry_ready inv.table place unused
  obtain ⟨entries, pc, pending, waiters, calls⟩ := takeEntry_rest s e uaddr
  refine ⟨⟨table, ?_, ?_, ?_, ?_⟩, ready⟩
  · rw [entries, pc]
    exact inv.threads.give empty _ _
  · rw [pc, pending, waiters]
    exact inv.account
  · rw [entries, waiters]
    exact inv.placed.give empty _
  · rw [calls]
    exact inv.exact

theorem FutexInv.receive (t : T) : FutexInv (s.receive t) := by
  rw [Futex.receive]
  cases place : s.pc t with
  | idle | resumed => exact inv
  | waiting idx cap =>
    by_cases none : s.pending cap = 0
    · simp only [if_pos none]
      exact inv
    have fits : waitersOn s.waiters cap + s.pending cap ≤ total (waitsOnCap cap) s.pc :=
      Nat.le_of_eq (inv.account cap)
    simp only [if_neg none, if_pos fits]
    refine ⟨inv.table, inv.threads.move t ?_ ?_, ?_, inv.placed, inv.exact⟩
    · intro e
      rw [place]
      exact Nat.le_refl _
    · exact fun e c same => nomatch same
    · intro c
      have before := inv.account c
      have moved := total_update (waitsOnCap c) s.pc t (.resumed idx)
      rw [place] at moved
      simp only [waitsOnCap] at moved
      simp only [goto]
      by_cases same : c = cap
      · subst same
        rw [if_pos rfl] at moved
        rw [update_self]
        omega
      · rw [if_neg (Ne.symm same)] at moved
        rw [update_of_ne same]
        omega

theorem FutexInv.timeout (t : T) (uaddr : Nat) : FutexInv (s.timeout t uaddr) := by
  rw [Futex.timeout]
  cases place : s.pc t with
  | idle | resumed => exact inv
  | waiting idx cap =>
    by_cases left : s.pending cap < total (waitsOnCap cap) s.pc
    · have account := inv.account cap
      obtain ⟨w, member, on, dropped⟩ := dropWaiter_erase
        (show 0 < waitersOn s.waiters cap by omega) uaddr
      simp only [if_pos left, dropped]
      refine ⟨inv.table, inv.threads.move t ?_ ?_, ?_, inv.placed.erase w, inv.exact⟩
      · intro e
        exact Nat.zero_le _
      · exact fun e c same => nomatch same
      · intro c
        have before := inv.account c
        have fewer := waitersOn_erase member c
        have moved := total_update (waitsOnCap c) s.pc t .idle
        rw [place] at moved
        simp only [waitsOnCap] at moved
        rw [on] at fewer
        simp only [goto]
        omega
    · simp only [if_neg left]
      exact inv

theorem FutexInv.resume (t : T) : FutexInv (s.resume t) := by
  rw [Futex.resume]
  cases place : s.pc t with
  | idle | waiting => exact inv
  | resumed e =>
    have threads := inv.threads.leave place
    have one := le_total (usesEntry e) s.pc t
    have count := inv.threads.users e
    rw [place, usesEntry, if_pos rfl] at one
    have used : (s.futexEntries e).HasWaiter := .inl (by omega)
    generalize counted : ({ s.futexEntries e with
      waiterCount := (s.futexEntries e).waiterCount - 1 } : FutexEntry) = entry at threads
    have cap : entry.notificCap = (s.futexEntries e).notificCap := by rw [← counted]
    have addr : entry.uaddr = (s.futexEntries e).uaddr := by rw [← counted]
    have list : entry.requeuedFutexList = (s.futexEntries e).requeuedFutexList := by
      rw [← counted]
    have account : AccountInv (update s.pc t .idle) s.pending s.waiters := by
      intro c
      have before := inv.account c
      have moved := total_update (waitsOnCap c) s.pc t .idle
      rw [place] at moved
      simp only [waitsOnCap] at moved
      omega
    simp only [counted]
    by_cases still : entry.HasWaiter
    · rw [if_pos still]
      exact ⟨(inv.table.ready used).set inv.table cap addr, threads, account,
        inv.placed.count still cap addr list, inv.exact⟩
    rw [if_neg still]
    have table := inv.table.release used cap addr still
    rw [cap] at table
    refine ⟨table, threads, account, ?_, inv.exact⟩
    intro c a member
    have member : (c, a) ∈ s.waiters := member
    obtain ⟨e', serves, site⟩ := inv.placed c a member
    -- nobody waits at this entry: another one would count its notification
    have other : e' ≠ e := by
      rintro rfl
      have empty : (s.futexEntries e').requeuedFutexList = [] := by
        rw [← list]
        exact not_not.mp fun some => still (.inr some)
      rcases site with own | listed
      · obtain ⟨e'', used', -, same⟩ := cap_counted threads account (waitersOn_pos member)
        by_cases here : e'' = e'
        · subst here
          rw [update_self] at used'
          exact still used'
        · rw [update_of_ne here] at used' same
          exact here (inv.table.caps e'' e' used' used (same.trans own.symm))
      · rw [empty, count_nil] at listed
        exact absurd (count_pos_iff.mpr member) (Nat.not_lt.mpr listed)
    refine ⟨e', ?_⟩
    simp only [goto, Futex.setEntry]
    rw [update_of_ne other]
    exact ⟨serves, site⟩

end

end Steps

end KernelLabs.ChCore
