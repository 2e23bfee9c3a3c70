import KernelLabs.ChCore.User.FutexInv

/-!
# Runs of the futex calls

A wake is exact if it asks for no more threads than wait for the address on the notification of its
entry, or if the count of the entry is that number and no waiter was requeued to the address.  The
count of an entry goes down only when a thread that was woken takes the lock again: one that was
woken and has not come so far, timed out or was requeued elsewhere is still counted, and those
requeued to the address are neither counted nor limited by `val`.
-/

set_option autoImplicit false

namespace KernelLabs.ChCore

open Lib List
open Function (update update_eq_self update_idem update_of_ne update_self)

/-! ## Room in the table -/

def usedEntries (entries : Int → FutexEntry) : Nat :=
  ((range maxFutexEntries).filter fun i : Nat => (entries i).HasWaiter).length

/-- With the address, fewer than `MAX_FUTEX_ENTRIES` addresses are in use. -/
def EntryFor (entries : Int → FutexEntry) (uaddr : Nat) : Prop :=
  findEntry entries uaddr ≠ none ∨ usedEntries entries + 1 < maxFutexEntries

instance (entries : Int → FutexEntry) (uaddr : Nat) : Decidable (EntryFor entries uaddr) :=
  inferInstanceAs (Decidable (_ ∨ _))

def laterEntries : List Nat := (range 255).map Nat.succ

theorem range_maxFutexEntries : range maxFutexEntries = 0 :: laterEntries :=
  range_succ_eq_map

theorem mem_laterEntries {i : Nat} : i ∈ laterEntries ↔ 0 < i ∧ i < 256 := by
  simp only [laterEntries, mem_map, mem_range, Nat.succ_eq_add_one]
  constructor
  · rintro ⟨k, bound, rfl⟩
    omega
  · intro bound
    exact ⟨i - 1, by omega, by omega⟩

section Scans
variable {entries : Int → FutexEntry} {cache : List Nat} {created uaddr uaddr2 : Nat}
  (inv : TableInv entries cache created)
include inv

theorem TableInv.first_free : ¬ (entries ((0 : Nat) : Int)).HasWaiter := by
  intro used
  have place := (inv.places _ used).1
  omega

theorem TableInv.later {e : Int} (used : (entries e).HasWaiter) :
    ∃ i ∈ laterEntries, e = (i : Int) := by
  have place := inv.places e used
  rw [maxFutexEntries] at place
  exact ⟨e.toNat, mem_laterEntries.mpr (by omega), by omega⟩

theorem TableInv.no_entry (none : ∀ i ∈ laterEntries, ¬ (entries i).Serves uaddr) (e : Int) :
    ¬ (entries e).Serves uaddr := by
  intro serves
  obtain ⟨i, member, rfl⟩ := inv.later serves.1
  exact none i member serves

omit inv in
theorem EntryFor.some_free (room : EntryFor entries uaddr)
    (none : ∀ e, ¬ (entries e).Serves uaddr) : ¬ ∀ i ∈ laterEntries, (entries i).HasWaiter := by
  intro all
  rcases room with found | room
  · obtain ⟨i, entry⟩ := Option.ne_none_iff_exists'.mp found
    have serves := find?_some entry
    exact none i (by simpa using serves)
  have full : laterEntries.filter (fun i : Nat => (entries i).HasWaiter) = laterEntries :=
    filter_eq_self.mpr fun i member => decide_eq_true (all i member)
  have longer : (laterEntries.filter fun i : Nat => (entries i).HasWaiter).length ≤
      usedEntries entries := by
    rw [usedEntries, range_maxFutexEntries]
    exact ((sublist_cons_self 0 laterEntries).filter _).length_le
  have length : laterEntries.length = 255 := by
    rw [laterEntries, length_map, length_range]
  rw [full, length] at longer
  rw [maxFutexEntries] at room
  omega

omit inv in
theorem EntryFor.empty (room : EntryFor entries uaddr) (none : ∀ e, ¬ (entries e).Serves uaddr)
    {emptyIdx : Int} (scanned : ScannedEmpty entries laterEntries 0 emptyIdx) :
    (0 < emptyIdx ∧ emptyIdx < maxFutexEntries) ∧ ¬ (entries emptyIdx).HasWaiter := by
  rcases scanned with ⟨-, all⟩ | ⟨i, member, rfl, free⟩
  · exact absurd all (room.some_free none)
  · have place := mem_laterEntries.mp member
    rw [maxFutexEntries]
    exact ⟨by omega, free⟩

theorem TableInv.waitScan_cases (room : EntryFor entries uaddr) {scan : Int × Int}
    (result : waitScan entries uaddr (range maxFutexEntries) (-1) = scan) :
    0 < scan.1 ∧ (entries scan.1).Serves uaddr ∨
      scan.1 = -1 ∧ (∀ e, ¬ (entries e).Serves uaddr) ∧
        (0 < scan.2 ∧ scan.2 < maxFutexEntries) ∧ ¬ (entries scan.2).HasWaiter := by
  have first : waitScan entries uaddr (range maxFutexEntries) (-1) =
      waitScan entries uaddr laterEntries 0 := by
    rw [range_maxFutexEntries, waitScan, if_neg fun serves => inv.first_free serves.1,
      if_pos inv.first_free]
    rfl
  rw [first] at result
  have spec := @waitScan_spec entries uaddr 0 laterEntries [] 0 (by simp) (.nil 0)
  rw [result, nil_append] at spec
  rcases spec with ⟨i, member, found, serves⟩ | ⟨missing, none, scanned⟩
  · left
    have place := mem_laterEntries.mp member
    rw [found]
    exact ⟨by omega, serves⟩
  · right
    have nowhere := inv.no_entry none
    exact ⟨missing, nowhere, room.empty nowhere scanned⟩

theorem TableInv.requeueScan_cases (different : uaddr ≠ uaddr2) {scan : Int × Int × Int}
    (result : requeueScan entries uaddr uaddr2 (range maxFutexEntries) (-1, -1, -1) = scan) :
    (scan.1 ≠ -1 → (entries scan.1).Serves uaddr) ∧
      (scan.2.1 ≠ -1 → (entries scan.2.1).Serves uaddr2) ∧
      (scan.2.1 = -1 → (∀ e, ¬ (entries e).Serves uaddr2) ∧
        ScannedEmpty entries laterEntries 0 scan.2.2) := by
  have visit : requeueVisit (entries ((0 : Nat) : Int)) uaddr uaddr2 ((0 : Nat) : Int)
      (-1, -1, -1) = (-1, -1, 0) := by
    rw [requeueVisit, if_neg fun serves => inv.first_free serves.1,
      if_neg fun serves => inv.first_free serves.1, if_pos inv.first_free]
    rfl
  have first : requeueScan entries uaddr uaddr2 (range maxFutexEntries) (-1, -1, -1) =
      requeueScan entries uaddr uaddr2 laterEntries (-1, -1, 0) := by
    rw [range_maxFutexEntries, requeueScan, visit]
    rfl
  rw [first] at result
  have start : RequeueFound entries uaddr uaddr2 0 [] (-1, -1, 0) :=
    ⟨fun found => absurd rfl found, fun found => absurd rfl found, fun _ => ⟨by simp, .nil 0⟩⟩
  have spec := requeueScan_spec 0 different laterEntries [] _ start
  rw [result, nil_append] at spec
  refine ⟨spec.first, spec.second, ?_⟩
  intro missing
  obtain ⟨none, scanned⟩ := spec.missing missing
  exact ⟨inv.no_entry none, scanned⟩

end Scans

section Wait
variable {T : Type} [Fintype T] [DecidableEq T] {s : Futex T}

theorem FutexInv.wait (inv : FutexInv s) {t : T} (outside : s.pc t = .idle) {uaddr : Nat}
    (room : EntryFor s.futexEntries uaddr) (same : Bool) :
    FutexInv (chcoreFutexWait s t uaddr same) := by
  rw [chcoreFutexWait]
  cases same with
  | false => exact inv
  | true =>
    simp only [if_true]
    generalize result : waitScan s.futexEntries uaddr (range maxFutexEntries) (-1) = scan
    rcases inv.table.waitScan_cases room result with ⟨found, serves⟩ | ⟨missing, none, place, empty⟩
    · rw [if_neg (by omega), if_pos found]
      exact inv.enter outside (inv.table.ready serves.1)
    · rw [if_neg (by omega), if_neg (by omega)]
      obtain ⟨taken, ready⟩ := inv.takeEntry place empty fun e used same => none e ⟨used, same⟩
      rw [← (takeEntry_rest s scan.2 uaddr).2.1] at outside
      exact taken.enter outside ready

end Wait

/-! ## Requeueing -/

section Requeue
variable {entries : Int → FutexEntry} {waiters : List (Nat × Nat)} {e idx2 : Int}
  {cap uaddr uaddr2 : Nat}

theorem PlacedInv.append (inv : PlacedInv entries waiters) (addr : (entries idx2).uaddr = uaddr2)
    (others : ∀ e, e ≠ idx2 → (entries e).HasWaiter → (entries e).uaddr ≠ uaddr2)
    (moved : List (Nat × Nat)) (one : moved = [(cap, uaddr2)] ∨ moved = []) :
    PlacedInv (update entries idx2 { entries idx2 with
      requeuedFutexList := (entries idx2).requeuedFutexList ++ [cap] }) (waiters ++ moved) := by
  have used : ({ entries idx2 with
      requeuedFutexList := (entries idx2).requeuedFutexList ++ [cap] } : FutexEntry).HasWaiter :=
    .inr (by simp)
  intro c a member
  by_cases target : a = uaddr2
  · -- whoever waits for `uaddr2` is found at its entry
    subst target
    refine ⟨idx2, ?_⟩
    rw [update_self]
    refine ⟨⟨used, addr⟩, ?_⟩
    dsimp only
    by_cases own : (entries idx2).notificCap = c
    · exact .inl own
    right
    have before : waiters.count (c, a) ≤ (entries idx2).requeuedFutexList.count c := by
      by_cases known : (c, a) ∈ waiters
      · obtain ⟨e, serves, site⟩ := inv c a known
        have here : e = idx2 := by
          by_contra other
          exact others e other serves.1 serves.2
        subst here
        exact site.resolve_left own
      · rw [count_eq_zero_of_not_mem known]
        exact Nat.zero_le _
    have more : moved.count (c, a) ≤ [cap].count c := by
      rcases one with rfl | rfl
      · rw [count_singleton, count_singleton]
        by_cases same : cap = c <;> simp [same]
      · exact Nat.zero_le _
    rw [count_append, count_append]
    omega
  · have absent : (c, a) ∉ moved := by
      rcases one with rfl | rfl
      · intro inside
        exact target (congrArg Prod.snd (mem_singleton.mp inside))
      · exact not_mem_nil
    have known : (c, a) ∈ waiters := (mem_append.mp member).resolve_right absent
    obtain ⟨e, serves, site⟩ := inv c a known
    have other : e ≠ idx2 := by
      rintro rfl
      exact target (serves.2.symm.trans addr)
    refine ⟨e, ?_⟩
    rw [update_of_ne other, count_append, count_eq_zero_of_not_mem absent]
    exact ⟨serves, site⟩

theorem PlacedInv.take (inv : PlacedInv entries waiters) {rest : List Nat}
    (list : (entries e).requeuedFutexList = cap :: rest) (addr : (entries e).uaddr = uaddr)
    (nobody : waitersOn waiters (entries e).notificCap = 0) :
    PlacedInv (update entries e { entries e with requeuedFutexList := rest })
      (waiters.erase (cap, uaddr)) := by
  intro c a member
  have known : (c, a) ∈ waiters := mem_of_mem_erase member
  obtain ⟨e', serves, site⟩ := inv c a known
  refine ⟨e', ?_⟩
  by_cases here : e' = e
  · subst here
    have same : a = uaddr := serves.2.symm.trans addr
    subst same
    rcases site with own | listed
    · have some := waitersOn_pos known
      rw [← own, nobody] at some
      exact absurd some (Nat.lt_irrefl 0)
    have count : (waiters.erase (cap, a)).count (c, a) ≤ rest.count c := by
      rw [list, count_cons] at listed
      rw [count_erase]
      by_cases equal : cap = c
      · subst equal
        simp only [beq_self_eq_true, if_true] at listed ⊢
        omega
      · have differs : ((cap, a) == (c, a)) = false := by simp [equal]
        have differs' : (cap == c) = false := by simp [equal]
        simp only [differs, differs', Bool.false_eq_true, if_false] at listed ⊢
        exact listed
    have some := count_pos_iff.mpr member
    have left : rest ≠ [] := by
      rintro rfl
      rw [count_nil] at count
      omega
    rw [update_self]
    exact ⟨⟨.inr left, addr⟩, .inr count⟩
  · rw [update_of_ne here]
    refine ⟨serves, ?_⟩
    rcases site with own | listed
    · exact .inl own
    · exact .inr ((Sublist.count_le _ erase_sublist).trans listed)

theorem moveWaiter_eq (waiters : List (Nat × Nat)) (cap uaddr uaddr2 : Nat) :
    ∃ moved, moveWaiter waiters cap uaddr uaddr2 = waiters.erase (cap, uaddr) ++ moved ∧
      (moved = [(cap, uaddr2)] ∨ moved = []) := by
  rw [moveWaiter]
  split
  · exact ⟨_, rfl, .inl rfl⟩
  · next absent => exact ⟨[], by rw [erase_of_not_mem absent, append_nil], .inr rfl⟩

variable {T : Type} [Fintype T] [DecidableEq T] {s : Futex T} {idx : Int}

omit [DecidableEq T] in
theorem FutexInv.append (table : TableInv s.futexEntries s.notifcCache s.created)
    (ready : Ready s.futexEntries s.notifcCache s.created idx2 uaddr2)
    (threads : ThreadInv s.futexEntries s.pc) (account : AccountInv s.pc s.pending s.waiters)
    (placed : PlacedInv s.futexEntries (s.waiters.erase (cap, uaddr))) (calls : s.exact) :
    FutexInv (s.appendRequeued idx2 cap uaddr uaddr2) := by
  obtain ⟨moved, waiters, one⟩ := moveWaiter_eq s.waiters cap uaddr uaddr2
  generalize longer : ({ s.futexEntries idx2 with
    requeuedFutexList := (s.futexEntries idx2).requeuedFutexList ++ [cap] } : FutexEntry) = entry
  have sameCap : entry.notificCap = (s.futexEntries idx2).notificCap := by rw [← longer]
  have sameAddr : entry.uaddr = (s.futexEntries idx2).uaddr := by rw [← longer]
  have sameCount : entry.waiterCount = (s.futexEntries idx2).waiterCount := by rw [← longer]
  have after := placed.append ready.serves (fun e other used => (ready.others e other used).1)
    moved one
  rw [longer] at after
  rw [Futex.appendRequeued]
  simp only [longer, waiters]
  refine ⟨ready.set table sameCap sameAddr, threads.lists sameCap sameCount, ?_, after, calls⟩
  intro c
  have same : waitersOn (s.waiters.erase (cap, uaddr) ++ moved) c = waitersOn s.waiters c := by
    rw [← waiters, waitersOn_moveWaiter]
  change waitersOn (s.waiters.erase (cap, uaddr) ++ moved) c + s.pending c = _
  rw [same]
  exact account c

theorem FutexInv.requeueOne (inv : FutexInv s) (serves : (s.futexEntries idx).Serves uaddr)
    (ready : Ready s.futexEntries s.notifcCache s.created idx2 uaddr2) :
    FutexInv (s.requeueOne idx idx2 uaddr uaddr2) := by
  rw [Futex.requeueOne]
  by_cases counts : (s.futexEntries idx).waiterCount ≠ 0
  · simp only [if_pos counts]
    exact FutexInv.append inv.table ready inv.threads inv.account (inv.placed.erase _) inv.exact
  simp only [if_neg counts]
  cases list : (s.futexEntries idx).requeuedFutexList with
  | nil => exact inv
  | cons cap rest =>
    have nobody : waitersOn s.waiters (s.futexEntries idx).notificCap = 0 := by
      apply Nat.eq_zero_of_not_pos
      intro some
      obtain ⟨e, used, counted, same⟩ := cap_counted inv.threads inv.account some
      rw [inv.table.caps e idx used serves.1 same] at counted
      omega
    have placed := inv.placed.take list serves.2 nobody
    generalize shorter : ({ s.futexEntries idx with requeuedFutexList := rest } :
      FutexEntry) = entry at placed
    have sameCap : entry.notificCap = (s.futexEntries idx).notificCap := by rw [← shorter]
    have sameAddr : entry.uaddr = (s.futexEntries idx).uaddr := by rw [← shorter]
    have sameCount : entry.waiterCount = (s.futexEntries idx).waiterCount := by rw [← shorter]
    simp only [shorter]
    apply FutexInv.append
    · exact (inv.table.ready serves.1).set inv.table sameCap sameAddr
    · exact ready.keep sameCap sameAddr (.inr serves.1)
    · exact inv.threads.lists sameCap sameCount
    · exact inv.account
    · exact placed
    · exact inv.exact

theorem FutexInv.requeue (inv : FutexInv s) (uaddr : Nat) (room : EntryFor s.futexEntries uaddr2) :
    FutexInv (chcoreFutexRequeue s uaddr uaddr2) := by
  rw [chcoreFutexRequeue]
  by_cases different : uaddr = uaddr2
  · rw [if_pos different]
    exact inv
  simp only [if_neg different]
  generalize result : requeueScan s.futexEntries uaddr uaddr2 (range maxFutexEntries)
    (-1, -1, -1) = scan
  obtain ⟨first, second, missing⟩ := inv.table.requeueScan_cases different result
  by_cases absent : scan.1 = -1
  · rw [if_pos absent]
    exact inv
  rw [if_neg absent]
  by_cases full : scan.2.1 = -1 ∧ scan.2.2 = -1
  · rw [if_pos full]
    exact inv
  rw [if_neg full]
  by_cases new : scan.2.1 = -1
  · rw [if_pos new]
    obtain ⟨none, scanned⟩ := missing new
    obtain ⟨place, empty⟩ := room.empty none scanned
    obtain ⟨taken, ready⟩ := inv.takeEntry place empty fun e used same => none e ⟨used, same⟩
    have serves : ((s.takeEntry scan.2.2 uaddr2).futexEntries scan.1).Serves uaddr := by
      have elsewhere : scan.1 ≠ scan.2.2 := by
        intro same
        exact empty (same ▸ (first absent).1)
      rw [(takeEntry_rest s scan.2.2 uaddr2).1, update_of_ne elsewhere]
      exact first absent
    exact taken.requeueOne serves ready
  · rw [if_neg new]
    have serves := second new
    have ready := inv.table.ready serves.1
    rw [serves.2] at ready
    exact inv.requeueOne (first absent) ready

end Requeue

/-! ## Waking -/

section Wake
variable {T : Type} [Fintype T] [DecidableEq T] {s : Futex T} {cap uaddr val : Nat}

omit [Fintype T] [DecidableEq T] in
/-- As many notifications as threads wait for the address wake that many of them. -/
theorem notifyTimes_eq (cap uaddr sent : Nat) : ∀ s : Futex T, sent ≤ s.waiters.count (cap, uaddr) →
    ∃ left, s.notifyTimes cap uaddr sent = { s with
        pending := update s.pending cap (s.pending cap + sent)
        waiters := left } ∧
      s.waiters.Perm (left ++ replicate sent (cap, uaddr)) := by
  induction sent with
  | zero =>
    intro s _
    refine ⟨s.waiters, ?_, by simp⟩
    rw [Nat.add_zero, update_eq_self]
    rfl
  | succ sent ih =>
    intro s enough
    have member : (cap, uaddr) ∈ s.waiters := count_pos_iff.mp (by omega)
    have one : s.notify cap uaddr = { s with
        pending := update s.pending cap (s.pending cap + 1)
        waiters := s.waiters.erase (cap, uaddr) } := by
      rw [Futex.notify, dropWaiter, if_pos member]
    have fewer := count_erase_self (a := (cap, uaddr)) (l := s.waiters)
    obtain ⟨left, state, perm⟩ := ih (s.notify cap uaddr) (by rw [one]; dsimp only; omega)
    rw [one] at state perm
    refine ⟨left, ?_, ?_⟩
    · rw [Futex.notifyTimes, one, state]
      simp only [update_self, update_idem, Nat.add_assoc, Nat.add_comm 1 sent]
    · have first := perm_cons_erase member
      have later := perm.cons (cap, uaddr)
      rw [replicate_succ]
      exact (first.trans later).trans perm_middle.symm

variable {sent : Nat} {e : Int}

section
variable {waiters left : List (Nat × Nat)}
  (perm : waiters.Perm (left ++ replicate sent (cap, uaddr)))
include perm

theorem waitersAt_perm (a : Nat) :
    waitersAt waiters a = waitersAt left a + if uaddr = a then sent else 0 := by
  rw [waitersAt, perm.countP_eq, countP_append, countP_replicate]
  simp only [decide_eq_true_eq, waitersAt]

theorem waitersOn_perm (c : Nat) :
    waitersOn waiters c = waitersOn left c + if cap = c then sent else 0 := by
  rw [waitersOn, perm.countP_eq, countP_append, countP_replicate]
  simp only [decide_eq_true_eq, waitersOn]

end

omit [DecidableEq T] in
theorem FutexInv.woken (inv : FutexInv s) {left : List (Nat × Nat)}
    (perm : s.waiters.Perm (left ++ replicate sent (cap, uaddr))) (calls : Prop) (good : calls) :
    FutexInv { s with
      pending := update s.pending cap (s.pending cap + sent)
      waiters := left
      exact := calls } := by
  refine ⟨inv.table, inv.threads, ?_, ?_, good⟩
  · intro c
    have before := inv.account c
    rw [waitersOn_perm perm] at before
    dsimp only
    by_cases same : cap = c
    · subst same
      rw [if_pos rfl] at before
      rw [update_self]
      omega
    · rw [if_neg same] at before
      rw [update_of_ne (Ne.symm same)]
      omega
  · apply inv.placed.mono
    intro w
    rw [perm.count_eq, count_append]
    exact Nat.le_add_right _ _

theorem FutexInv.count_le (inv : FutexInv s) (used : (s.futexEntries e).HasWaiter) (a : Nat) :
    (s.waiters.count ((s.futexEntries e).notificCap, a) : Int) ≤
      (s.futexEntries e).waiterCount := by
  have on : s.waiters.count ((s.futexEntries e).notificCap, a) ≤
      waitersOn s.waiters (s.futexEntries e).notificCap := by
    apply countP_mono_left
    intro w _ same
    rw [beq_iff_eq] at same
    simp [same]
  have account := inv.account (s.futexEntries e).notificCap
  have uses : total (waitsOnCap (s.futexEntries e).notificCap) s.pc ≤ total (usesEntry e) s.pc := by
    apply total_le_total
    intro t
    cases place : s.pc t with
    | idle => exact Nat.le_refl 0
    | resumed idx => exact Nat.zero_le _
    | waiting idx cap =>
      simp only [waitsOnCap, usesEntry]
      by_cases same : cap = (s.futexEntries e).notificCap
      · have counted := inv.threads.counted place
        have own := inv.threads.caps t idx cap place
        rw [if_pos same, if_pos (inv.table.caps idx e (.inl counted) used (own.trans same))]
      · rw [if_neg same]
        exact Nat.zero_le _
  have users := inv.threads.users e
  omega

omit [DecidableEq T] in
/-- If nobody was requeued to the address, those who wait for it wait on its notification. -/
theorem FutexInv.waitersAt_eq (inv : FutexInv s) (serves : (s.futexEntries e).Serves uaddr)
    (alone : (s.futexEntries e).requeuedFutexList = []) :
    waitersAt s.waiters uaddr = s.waiters.count ((s.futexEntries e).notificCap, uaddr) := by
  apply countP_congr
  rintro ⟨c, a⟩ member
  rw [decide_eq_true_iff, beq_iff_eq, Prod.mk.injEq]
  constructor
  · intro same
    have same : a = uaddr := same
    subst same
    obtain ⟨e', serves', site⟩ := inv.placed c a member
    rw [inv.table.address e' e serves'.1 serves.1 (serves'.2.trans serves.2.symm)] at site
    refine ⟨?_, rfl⟩
    rcases site with own | listed
    · exact own.symm
    · rw [alone, count_nil] at listed
      exact absurd (count_pos_iff.mpr member) (Nat.not_lt.mpr listed)
  · exact fun both => both.2

def FutexEntry.Settled (entry : FutexEntry) (waiters : List (Nat × Nat)) (uaddr val : Nat) : Prop :=
  val ≤ waiters.count (entry.notificCap, uaddr) ∨
    entry.waiterCount = waiters.count (entry.notificCap, uaddr) ∧ entry.requeuedFutexList = []

instance (entry : FutexEntry) (waiters : List (Nat × Nat)) (uaddr val : Nat) :
    Decidable (entry.Settled waiters uaddr val) :=
  inferInstanceAs (Decidable (_ ∨ _))

def Settled (s : Futex T) : FutexOp T → Prop
  | .wake uaddr val =>
    ((findEntry s.futexEntries uaddr).all fun i =>
      (s.futexEntries i).Settled s.waiters uaddr val) = true
  | _ => True

def Room (s : Futex T) : FutexOp T → Prop
  | .wait _ uaddr _ => EntryFor s.futexEntries uaddr
  | .requeue _ uaddr2 => EntryFor s.futexEntries uaddr2
  | _ => True

instance (s : Futex T) : ∀ op, Decidable (Room s op) := by
  rintro ⟨⟩ <;> dsimp only [Room] <;> infer_instance

instance (s : Futex T) : ∀ op, Decidable (Settled s op) := by
  rintro ⟨⟩ <;> dsimp only [Settled] <;> infer_instance

/-- The entry of a settled wake sends `min(val, w)` notifications, all on its own. -/
theorem FutexInv.sends (inv : FutexInv s) (serves : (s.futexEntries e).Serves uaddr)
    (settled : (s.futexEntries e).Settled s.waiters uaddr val) :
    (if (s.futexEntries e).waiterCount < val then (s.futexEntries e).waiterCount else val) =
        ((min val (waitersAt s.waiters uaddr) : Nat) : Int) ∧
      min val (waitersAt s.waiters uaddr) ≤
        s.waiters.count ((s.futexEntries e).notificCap, uaddr) ∧
      (min val (waitersAt s.waiters uaddr) < val →
        (s.futexEntries e).requeuedFutexList = []) := by
  have counted := inv.count_le serves.1 uaddr
  have waiting : s.waiters.count ((s.futexEntries e).notificCap, uaddr) ≤
      waitersAt s.waiters uaddr := by
    apply countP_mono_left
    intro w _ same
    rw [beq_iff_eq] at same
    simp [same]
  rcases settled with few | ⟨own, alone⟩
  · rw [if_neg (by omega), Nat.min_eq_left (few.trans waiting)]
    exact ⟨rfl, few, fun more => absurd more (Nat.lt_irrefl val)⟩
  · have all := inv.waitersAt_eq serves alone
    rw [own, all]
    refine ⟨?_, Nat.min_le_right _ _, fun _ => alone⟩
    split <;> omega

theorem FutexInv.wake (inv : FutexInv s) (settled : Settled s (.wake uaddr val)) :
    FutexInv (futexStep s (.wake uaddr val)) := by
  rw [futexStep, chcoreFutexWake]
  rw [Settled] at settled
  cases found : findEntry s.futexEntries uaddr with
  | none =>
    have zero : waitersAt s.waiters uaddr = 0 := by
      apply countP_eq_zero.mpr
      rintro ⟨c, a⟩ member same
      obtain ⟨e, serves, -⟩ := inv.placed c a member
      have same : a = uaddr := by simpa using same
      subst same
      obtain ⟨i, later, rfl⟩ := inv.table.later serves.1
      have place := mem_laterEntries.mp later
      have none := find?_eq_none.mp found i (mem_range.mpr place.2)
      exact none (by simpa using serves)
    refine ⟨inv.table, inv.threads, inv.account, inv.placed, inv.exact, ?_, ?_, ?_⟩
    · rw [zero, Nat.min_zero]
      rfl
    · rw [zero, Nat.min_zero]
    · exact fun a _ => rfl
  | some i =>
    have serves : (s.futexEntries i).Serves uaddr := by
      simpa using find?_some found
    rw [found] at settled
    obtain ⟨sent, enough, alone⟩ := inv.sends serves (by simpa using settled)
    obtain ⟨left, state, perm⟩ := notifyTimes_eq (s.futexEntries i).notificCap uaddr
      (min val (waitersAt s.waiters uaddr)) s enough
    -- the loop over the requeued waiters has nothing to do
    have rest : ∀ t : Futex T, (if ((min val (waitersAt s.waiters uaddr) : Nat) : Int) < val then
          (t.notifyRequeued i uaddr (s.futexEntries i).requeuedFutexList,
            ((min val (waitersAt s.waiters uaddr) : Nat) : Int))
        else (t, ((min val (waitersAt s.waiters uaddr) : Nat) : Int))) =
          (t, ((min val (waitersAt s.waiters uaddr) : Nat) : Int)) := by
      intro t
      split
      · next more =>
          rw [alone (Int.ofNat_lt.mp more)]
          rfl
      · rfl
    simp only [sent, Int.toNat_natCast, rest, state]
    apply inv.woken perm
    refine ⟨inv.exact, rfl, ?_, ?_⟩
    · have woken := waitersAt_perm perm uaddr
      rw [if_pos rfl] at woken
      exact woken.symm
    · intro a other
      have same := waitersAt_perm perm a
      rw [if_neg (Ne.symm other)] at same
      exact same.symm

end Wake

/-! ## Every run -/

section Runs
variable {T : Type} [Fintype T] [DecidableEq T]

omit [DecidableEq T] in
theorem startFutex_inv : FutexInv (startFutex T) := by
  have free : ∀ e, ¬ ((startFutex T).futexEntries e).HasWaiter := by
    rintro e (counted | listed)
    · exact absurd counted (Int.lt_irrefl 0)
    · exact listed rfl
  refine ⟨⟨?_, ?_, ?_, ?_, ?_, nodup_nil⟩, ⟨?_, ?_⟩, ?_, ?_, trivial⟩
  · exact fun e used => absurd used (free e)
  · exact fun e _ used => absurd used (free e)
  · exact fun e _ used => absurd used (free e)
  · exact fun e used => absurd used (free e)
  · exact fun cap member => absurd member not_mem_nil
  · intro e
    have zero : total (usesEntry e) (startFutex T).pc = 0 := total_eq_zero fun t => rfl
    rw [zero]
    exact Int.le_refl 0
  · exact fun t e cap waits => nomatch waits
  · intro cap
    have zero : total (waitsOnCap cap) (startFutex T).pc = 0 := total_eq_zero fun t => rfl
    rw [zero]
    rfl
  · exact fun cap a member => absurd member not_mem_nil

theorem futexStep_keeps {s : Futex T} (inv : FutexInv s) (op : FutexOp T) (room : Room s op)
    (settled : Settled s op) : FutexInv (futexStep s op) := by
  cases op with
  | wait t uaddr same =>
    rw [futexStep]
    cases place : s.pc t with
    | idle => exact inv.wait place room same
    | waiting | resumed => exact inv
  | receive t => exact inv.receive t
  | timeout t uaddr => exact inv.timeout t uaddr
  | resume t => exact inv.resume t
  | wake uaddr val => exact inv.wake settled
  | requeue uaddr uaddr2 => exact inv.requeue uaddr room

/-- Every wake was exact, those who wait are the threads in `sys_wait` without a notification on
its way, and no address has two entries with waiters. -/
structure FutexExact (s : Futex T) : Prop where
  wakes : s.exact
  account : ∀ cap, waitersOn s.waiters cap + s.pending cap = total (waitsOnCap cap) s.pc
  one : ∀ e e', (s.futexEntries e).HasWaiter → (s.futexEntries e').HasWaiter →
    (s.futexEntries e).uaddr = (s.futexEntries e').uaddr → e = e'

/-- With room in the table, a run in which every wake is settled is exact. -/
theorem futex_wake_exact (ops : List (FutexOp T)) (room : RunMeets futexStep Room (startFutex T) ops)
    (settled : RunMeets futexStep Settled (startFutex T) ops) :
    ∀ pre, pre <+: ops → FutexExact (pre.foldl futexStep (startFutex T)) := by
  rintro pre ⟨rest, rfl⟩
  have inv := run_invariant futexStep _ FutexInv
    (fun s op inv both => futexStep_keeps inv op both.1 both.2) pre (startFutex T) startFutex_inv
    (room.append.1.and settled.append.1)
  exact ⟨inv.exact, inv.account, inv.table.address⟩

def threeWaiters : List (FutexOp (Fin 3)) :=
  [.wait 0 7 true, .wait 1 7 true, .wait 2 9 true, .wake 7 1, .receive 0, .resume 0,
    .timeout 1 7, .wake 9 5]

theorem futex_wake_exact_three : FutexExact (threeWaiters.foldl futexStep (startFutex (Fin 3))) :=
  futex_wake_exact threeWaiters (by decide +kernel) (by decide +kernel) threeWaiters
    (prefix_refl _)

def wokenOnce : Futex (Fin 1) :=
  [FutexOp.wait 0 7 true, .wake 7 1].foldl futexStep (startFutex (Fin 1))

/-- The next wake returns 1 although nobody waits. -/
theorem futex_wake_counts_woken :
    waitersAt wokenOnce.waiters 7 = 0 ∧ (chcoreFutexWake wokenOnce 7 1).2 = 1 ∧
      ¬ FutexExact (futexStep wokenOnce (.wake 7 1)) := by
  have nobody : waitersAt wokenOnce.waiters 7 = 0 := by decide +kernel
  have sent : (chcoreFutexWake wokenOnce 7 1).2 = 1 := by decide +kernel
  refine ⟨nobody, sent, ?_⟩
  intro good
  have result := good.wakes.2.result
  rw [nobody, sent] at result
  exact absurd result (by decide)

end Runs

end KernelLabs.ChCore
