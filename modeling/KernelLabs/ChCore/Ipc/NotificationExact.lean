import KernelLabs.ChCore.Ipc.NotificationLaw

/-!
# The runs that conserve notifications

Every safe step keeps the conservation law, and every step that is not safe breaks it or stops the
kernel.
-/

set_option autoImplicit false

namespace KernelLabs.ChCore

open Lib Function List Option NotificSys WaitPhase

/-! ## What each step keeps -/

structure NotificInv {N : Nat} (S : NotificSys N) : Prop where
  law : Conserved S
  cpus : CpusOk S.kernel.current S.kernel.cpu S.kernel.state S.phase

section Steps
variable {N : Nat} {S : NotificSys N} {c : Fin N} {t n : Nat} {pc : SignalPc}

def StepKept (S : NotificSys N) (result : Option (NotificKernel N × NotificEvent)) : Prop :=
  ∃ p, result = some p ∧ NotificInv (S.record p.1 p.2)

variable (inv : NotificInv S)
include inv

theorem NotificInv.block (place : S.kernel.current c = some t) :
    CpusOk (update S.kernel.current c none) S.kernel.cpu
      (update S.kernel.state t .waiting) (update S.phase t (.blocked n)) := by
  have active := (inv.cpus.onCpu c t place).1
  exact (inv.cpus.release c).thread .waiting (.blocked n) (inv.cpus.released place)
    (inv.cpus.not_target (by simp [active])) (by simp)

theorem wait_kept {isBlock timeout : Bool} (place : S.kernel.current c = some t)
    (safe : SafeOn S (.wait c t n isBlock timeout)) :
    StepKept S (waitNotific S.kernel c t n isBlock timeout) := by
  have active := (inv.cpus.onCpu c t place).1
  unfold waitNotific
  by_cases positive : 0 < (S.kernel.notific n).notDelivered
  · simp only [positive, if_true]
    refine ⟨_, rfl, ?_, inv.cpus⟩
    have sum := inv.law.signals n
    apply inv.law.counted
    · intro _
      exact inv.law.noWaiter n positive
    · intro m other
      simp only [return0, if_true, update_of_ne other, and_self]
    · simp only [return0, if_true, update_self]
      omega
  · have none : (S.kernel.notific n).notDelivered = 0 := by omega
    simp only [positive, if_false]
    cases isBlock with
    | false =>
      refine ⟨_, rfl, ?_, inv.cpus⟩
      have nonzero : ¬ (-eAGAIN = 0) := by decide
      simp only [record, return0, nonzero, if_false]
      exact inv.law
    | true =>
      obtain ⟨unslept, small⟩ := safe none rfl
      have blocks := inv.block (n := n) place
      rw [if_pos rfl]
      cases timeout with
      | false =>
        refine ⟨_, rfl, ?_, blocks⟩
        refine inv.law.blocked (c := c) active ?_ none small ?_ ?_ ?_ ?_
        · rfl
        · exact update_self t _ _
        · exact update_self t _ _
        · intro this
          cases this
        · intro x other
          simp only [WaitsIn, blockOn, update_of_ne other]
          exact inv.law.once x
      | true =>
        have free : (blockOn S.kernel c t n).cb t = false := unslept rfl
        rw [if_pos rfl, enqueueSleeper, free]
        refine ⟨_, rfl, ?_, blocks⟩
        refine inv.law.blocked (c := c) active ?_ none small ?_ ?_ ?_ ?_
        · rfl
        · exact update_self t _ _
        · exact update_self t _ _
        · intro _
          exact ⟨update_self t _ _, update_self t _ _⟩
        · intro x other
          simp only [WaitsIn, blockOn, update_of_ne other]
          exact inv.law.once x

variable {rest : List Nat} {wakes : Nat} {ret : Int}

theorem enqueueCurrent_once {target : Nat} (x : Nat) :
    WaitOk ((enqueueCurrent (takeTarget S.kernel c n target rest true) c).state x)
      ((enqueueCurrent (takeTarget S.kernel c n target rest true) c).ret x)
      ((enqueueCurrent (takeTarget S.kernel c n target rest true) c).cb x)
      ((enqueueCurrent (takeTarget S.kernel c n target rest true) c).pendingNotific x)
      (S.wakes x) (S.timed x) (S.phase x) := by
  have once := inv.law.once x
  unfold enqueueCurrent takeTarget
  cases place : S.kernel.current c with
  | none => exact once
  | some cur =>
    by_cases same : x = cur
    · subst same
      rw [(inv.cpus.onCpu c x place).1] at once ⊢
      exact once
    · simpa only [update_of_ne same] using once

theorem NotificInv.blocked_waits (blocked : S.phase t = .blocked n) :
    S.kernel.state t = .waiting := by
  have once := inv.law.once t
  rw [blocked] at once
  exact once.2.1

variable {k : NotificKernel N}

theorem NotificInv.signalled (notific : k.notific = update S.kernel.notific n
      { S.kernel.notific n with
        waitingCount := (S.kernel.notific n).waitingCount - 1
        waitingThreads := rest }) (list : (S.kernel.notific n).waitingThreads = t :: rest)
    (ret : k.ret t = 0) (others : ∀ x, x ≠ t → WaitsIn S k x) :
    Conserved (S.record k (.signalled t n)) := by
  have blocked : S.phase t = .blocked n := inv.law.mem.mp (by simp [list])
  refine inv.law.leaves notific blocked rfl ?_ rfl rfl ?_ ?_ ⟨rfl, ret⟩ others
  · simp [list]
  · apply inv.law.woken.append
    simp [signalledOf, blocked, signalledBy]
  · intro m
    have sum := inv.law.signals m
    by_cases same : m = n
    · subst same
      simp only [update_self, length_append, length_singleton]
      omega
    · simpa only [update_of_ne same] using sum

theorem NotificInv.head_blocked (list : (S.kernel.notific n).waitingThreads = t :: rest) :
    S.kernel.state t = .waiting ∧ S.kernel.ret t = 0 ∧ (∀ d, S.kernel.current d ≠ some t) ∧
      ¬ DirectTarget S.kernel.cpu t := by
  have blocked : S.phase t = .blocked n := inv.law.mem.mp (by simp [list])
  have waits := inv.blocked_waits blocked
  have once := inv.law.once t
  rw [blocked] at once
  exact ⟨waits, once.2.2.1, inv.cpus.not_current waits, inv.cpus.not_target (by simp [blocked])⟩

section
variable (idle : S.kernel.cpu c = none) (list : (S.kernel.notific n).waitingThreads = t :: rest)
include idle list

theorem NotificInv.wakes_ready : NotificInv (S.record
      { takeTarget S.kernel c n t rest false with
        state := update S.kernel.state t .ready } (.signalled t n)) := by
  obtain ⟨_, zero, off, free⟩ := inv.head_blocked list
  constructor
  · refine inv.signalled rfl list zero ?_
    intro x other
    simp only [WaitsIn, update_of_ne other]
    exact inv.law.once x
  · apply (inv.cpus.thread .ready (.signalled n) off free (by simp)).enter idle rfl free
    simp

theorem NotificInv.wakes_direct :
    NotificInv (S.record (enqueueCurrent (takeTarget S.kernel c n t rest true) c)
      (.signalled t n)) := by
  obtain ⟨waits, zero, off, free⟩ := inv.head_blocked list
  have enters : CpusOk S.kernel.current (update S.kernel.cpu c (some ⟨.readCb, n, t, true⟩))
      S.kernel.state (update S.phase t (.signalled n)) := by
    have stays := inv.cpus.thread .waiting (.signalled n) off free (by simp)
    rw [← waits, update_eq_self] at stays
    apply stays.enter idle rfl free
    simp [waits]
  constructor
  · refine inv.signalled ?_ list ?_ ?_
    · unfold enqueueCurrent takeTarget
      cases S.kernel.current c <;> rfl
    · unfold enqueueCurrent takeTarget
      cases place : S.kernel.current c with
      | none => exact zero
      | some cur =>
        have other : t ≠ cur := fun same => off c (same ▸ place)
        simp only [update_of_ne other]
        exact zero
    · intro x _
      exact enqueueCurrent_once inv x
  · simp only [record, enqueueCurrent, takeTarget]
    cases place : S.kernel.current c with
    | none => exact enters
    | some cur => exact enters.ready place ⟨_, update_self c _ _, rfl⟩

end

theorem signal_kept {enableDirectSwitch fits : Bool} (idle : S.kernel.cpu c = none)
    (safe : SafeOn S (.signal c n enableDirectSwitch fits)) :
    StepKept S (signalNotific S.kernel c n enableDirectSwitch fits) := by
  unfold signalNotific
  by_cases kept : 0 < (S.kernel.notific n).notDelivered ∨ (S.kernel.notific n).waitingCount = 0
  · have small := safe kept
    have sum := inv.law.signals n
    have noWaiter : (S.kernel.notific n).waitingThreads = [] := by
      rcases kept with positive | zero
      · exact inv.law.noWaiter n positive
      · rw [inv.law.count n] at zero
        exact length_eq_zero_iff.mp zero
    simp only [kept, if_true, Nat.mod_eq_of_lt small]
    refine ⟨_, rfl, ?_, inv.cpus⟩
    apply inv.law.counted
    · exact fun _ => noWaiter
    · intro m other
      simp only [update_of_ne other, and_self]
    · simp only [update_self]
      omega
  · simp only [kept, if_false]
    cases list : (S.kernel.notific n).waitingThreads with
    | nil =>
      rw [inv.law.count n, list] at kept
      simp at kept
    | cons target rest =>
      cases direct : enableDirectSwitch && fits with
      | false => exact ⟨_, rfl, inv.wakes_ready idle list⟩
      | true => exact ⟨_, rfl, inv.wakes_direct idle list⟩

variable {state : TState}

omit inv in
/-- The sleep state matters to a thread that is blocked with a timeout only. -/
theorem WaitOk.unsleep {cb cb' timed : Bool} {pending pending' : Option Nat} {p : WaitPhase}
    (once : WaitOk state ret cb pending wakes timed p)
    (safe : ¬ (p.blockedOn ≠ none ∧ timed = true)) :
    WaitOk state ret cb' pending' wakes timed p := by
  cases p with
  | active | signalled | timedOut => exact once
  | blocked m =>
    refine ⟨once.1, once.2.1, once.2.2.1, fun sleeps => ?_⟩
    exact absurd ⟨by simp [blockedOn], sleeps⟩ safe

omit inv in
theorem afterTimeout_same {p : SignalPc} (next : p ∈ afterTimeout pc) :
    p.target = pc.target ∧ p.notifc = pc.notifc ∧ p.direct = pc.direct ∧
      (p.stage = .switch → p.direct = true) := by
  unfold afterTimeout at next
  obtain ⟨direct, next⟩ := ite_none_right_eq_some.mp next
  cases next
  exact ⟨rfl, rfl, rfl, fun _ => direct⟩

omit inv in
theorem afterTimeout_left (none : afterTimeout pc = none) : pc.direct = false := by
  by_contra direct
  rw [afterTimeout, if_pos (by simpa using direct)] at none
  cases none

theorem NotificInv.afterTimeout (place : S.kernel.cpu c = some pc) :
    CpusOk S.kernel.current (update S.kernel.cpu c (afterTimeout pc)) S.kernel.state S.phase := by
  apply inv.cpus.move place
  · exact fun p next => afterTimeout_same next
  · intro none direct
    rw [afterTimeout_left none] at direct
    cases direct

theorem NotificInv.stage (place : S.kernel.cpu c = some pc) {stage : SignalStage}
    (early : stage ≠ .switch) :
    CpusOk S.kernel.current (update S.kernel.cpu c (some { pc with stage := stage }))
      S.kernel.state S.phase := by
  apply inv.cpus.move place
  · intro p next
    cases next
    exact ⟨rfl, rfl, rfl, fun last => absurd last early⟩
  · intro none
    cases none

omit inv in
theorem record_resumed_phase {r : Int} (free : ∀ m, S.phase t ≠ .blocked m) :
    (S.record k (.resumed t r)).phase = update S.phase t .active := by
  cases phase : S.phase t with
  | blocked m => exact absurd phase (free m)
  | active =>
    rw [record_runs_on phase, ← phase, update_eq_self]
    rfl
  | signalled | timedOut => rw [record_comes_back (by rw [phase]; rfl)]; rfl

omit inv in
theorem record_kernel (e : NotificEvent) : (S.record k e).kernel = k := by
  cases e with
  | resumed t r =>
    simp only [record]
    cases (S.phase t).wokenFrom <;> rfl
  | _ => rfl

theorem switch_kept (place : S.kernel.cpu c = some pc) (last : pc.stage = .switch) :
    StepKept S (signalStep S.kernel c pc) := by
  have direct := inv.cpus.switch c pc place last
  obtain ⟨waits, signalled⟩ := inv.cpus.direct c pc place direct
  have unready : S.kernel.state pc.target ≠ .ready := by simp [waits]
  have free : ∀ m, S.phase pc.target ≠ .blocked m := by simp [signalled]
  unfold signalStep
  simp only [last, unready, if_false]
  refine ⟨_, rfl, ?_, ?_⟩
  · refine inv.law.resumed rfl free fun x other => ?_
    simp only [WaitsIn, update_of_ne other]
    exact inv.law.once x
  rw [record_kernel, record_resumed_phase free]
  have released := inv.cpus.release c
  have left : CpusOk (update S.kernel.current c none)
      (update S.kernel.cpu c none) S.kernel.state S.phase := by
    apply released.move place
    · intro p next
      cases next
    · intro _ _
      exact update_self c _ _
  have off : ∀ d, update S.kernel.current c none d ≠ some pc.target := released.not_current waits
  have alone : ¬ DirectTarget (update S.kernel.cpu c none) pc.target := by
    rintro ⟨d, p, now, directs, same⟩
    rcases update_eq_some now with ⟨_, none⟩ | ⟨other, old⟩
    · cases none
    · exact other (inv.cpus.one d c p pc old place directs direct same)
  have stopped := left.thread .running .active off alone (by simp)
  have runs := stopped.hold (c := c) (update_self _ _ _) (update_self _ _ _) off
  rw [update_idem] at runs
  exact runs

theorem signalStep_kept (place : S.kernel.cpu c = some pc) (safe : SafeOn S (.signalStep c pc)) :
    StepKept S (signalStep S.kernel c pc) := by
  cases stage : pc.stage with
  | readCb =>
    simp only [signalStep, stage]
    refine ⟨_, rfl, inv.law.silent rfl inv.law.once, ?_⟩
    cases sleeps : S.kernel.cb pc.target with
    | false => exact inv.afterTimeout place
    | true => exact inv.stage place (by simp)
  | dequeue =>
    simp only [signalStep, stage]
    refine ⟨_, rfl, inv.law.silent rfl fun x => ?_, inv.stage place (by simp)⟩
    by_cases same : x = pc.target
    · rw [same]
      exact (inv.law.once pc.target).unsleep (safe.1 (Or.inl stage))
    · simp only [WaitsIn, update_of_ne same]
      exact inv.law.once x
  | compare =>
    have pending : ¬ (S.kernel.pendingNotific pc.target ≠ none ∧
        S.kernel.pendingNotific pc.target ≠ some pc.notifc) := by
      rcases safe.2 stage with none | own
      · simp [none]
      · simp [own]
    simp only [signalStep, stage, pending, if_false]
    exact ⟨_, rfl, inv.law.silent rfl inv.law.once, inv.stage place (by simp)⟩
  | clear =>
    simp only [signalStep, stage]
    refine ⟨_, rfl, inv.law.silent rfl fun x => ?_, inv.afterTimeout place⟩
    by_cases same : x = pc.target
    · rw [same]
      exact (inv.law.once pc.target).unsleep (safe.1 (Or.inr stage))
    · simp only [WaitsIn, update_of_ne same]
      exact inv.law.once x
  | switch => exact switch_kept inv place stage

omit inv in
/-- `list_del` of a blocked thread changes the list it is blocked in only. -/
theorem listDel_blocked {r : Notific} (law : Conserved S) (blocked : S.phase t = .blocked n) :
    update (listDel S.kernel.notific t) n r = update S.kernel.notific n r := by
  funext m
  by_cases same : m = n
  · rw [same, update_self, update_self]
  · have absent : t ∉ (S.kernel.notific m).waitingThreads := by
      rw [law.mem, blocked]
      simp [Ne.symm same]
    rw [update_of_ne same, update_of_ne same, listDel, erase_of_not_mem absent]

theorem expire_kept (safe : SafeOn S (.expire t)) : StepKept S (timerExpires S.kernel t) := by
  obtain ⟨some_, timed⟩ := safe
  obtain ⟨m, pending⟩ := ne_none_iff_exists'.mp some_
  have once := inv.law.once t
  unfold timerExpires
  simp only [pending]
  by_cases waits : S.kernel.state t = .waiting
  · obtain ⟨blockedOn, sleeps⟩ := timed waits
    cases phase : S.phase t with
    | active | signalled | timedOut => simp [phase, WaitPhase.blockedOn] at blockedOn
    | blocked n =>
      rw [phase] at once
      have own := (once.2.2.2 sleeps).2
      rw [pending] at own
      cases own
      have member := inv.law.mem.mpr phase
      have counted : (S.kernel.notific m).waitingCount ≠ 0 := by
        rw [inv.law.count m]
        exact (length_pos_of_mem member).ne'
      simp only [waits, ne_eq, not_true_eq_false, if_false, counted, listDel_blocked inv.law phase]
      refine ⟨_, rfl, ?_, ?_⟩
      · refine inv.law.leaves rfl phase rfl rfl rfl rfl ?_ inv.law.signals ⟨rfl, sleeps, ?_⟩
          fun x other => ?_
        · have place : signalledOf S.phase t = none := by
            simp [signalledOf, phase, signalledBy]
          change Queued S.woken (update (signalledOf S.phase) t none)
          rw [← place, update_eq_self]
          exact inv.law.woken
        · exact update_self t _ _
        · simp only [WaitsIn, update_of_ne other]
          exact inv.law.once x
      · exact inv.cpus.thread .ready (.timedOut m) (inv.cpus.not_current waits)
          (inv.cpus.not_target (by simp [phase])) (by simp)
  · simp only [waits, ne_eq, not_false_eq_true, if_true]
    refine ⟨_, rfl, inv.law.silent rfl fun x => ?_, inv.cpus⟩
    by_cases same : x = t
    · rw [same]
      apply once.unsleep
      rintro ⟨blockedOn, _⟩
      cases phase : S.phase t with
      | blocked n => exact waits (inv.blocked_waits phase)
      | active | signalled | timedOut => simp [phase, WaitPhase.blockedOn] at blockedOn
    · simp only [WaitsIn, update_of_ne same]
      exact inv.law.once x

theorem run_kept (ready : S.kernel.state t = .ready) (off : ∀ d, S.kernel.current d ≠ some t) :
    StepKept S (some (runReady S.kernel c t)) := by
  have free : ∀ m, S.phase t ≠ .blocked m := by
    intro m blocked
    rw [inv.blocked_waits blocked] at ready
    cases ready
  have alone : ¬ DirectTarget S.kernel.cpu t := by
    rintro ⟨d, p, place, direct, rfl⟩
    rw [(inv.cpus.direct d p place direct).1] at ready
    cases ready
  refine ⟨_, rfl, ?_, ?_⟩
  · refine inv.law.resumed rfl free fun x other => ?_
    simp only [WaitsIn, runReady, update_of_ne other]
    exact inv.law.once x
  · rw [record_kernel]
    unfold runReady
    rw [record_resumed_phase free]
    exact (inv.cpus.thread .running .active off alone (by simp)).hold (update_self _ _ _)
      (update_self _ _ _) off

theorem preempt_kept (place : S.kernel.current c = some t) :
    StepKept S (some (preempt S.kernel c t)) := by
  have active := (inv.cpus.onCpu c t place).1
  refine ⟨_, rfl, inv.law.silent rfl fun x => ?_, ?_⟩
  · have once := inv.law.once x
    by_cases same : x = t
    · subst same
      rw [active] at once
      rw [WaitsIn, active]
      exact once
    · simpa only [WaitsIn, preempt, update_of_ne same] using once
  · have ready := (inv.cpus.release c).thread .ready (S.phase t)
      (inv.cpus.released place) (inv.cpus.not_target (by simp [active])) (by simp)
    rw [update_eq_self] at ready
    exact ready

variable {op : NotificOp N}

theorem step_kept (enabled : NotificEnabled S.kernel op) (safe : SafeOn S op) :
    StepKept S (notificOp S.kernel op) := by
  cases op with
  | wait c t n isBlock timeout => exact wait_kept inv enabled.1 safe
  | signal c n enableDirectSwitch fits => exact signal_kept inv enabled safe
  | signalStep c pc => exact signalStep_kept inv enabled safe
  | expire t => exact expire_kept inv safe
  | run c t => exact run_kept inv enabled.2.2.1 enabled.2.2.2
  | preempt c t => exact preempt_kept inv enabled.1

/-! ## What a step that keeps the law was -/

variable {p : NotificKernel N × NotificEvent}

theorem wait_safe {isBlock timeout : Bool}
    (result : waitNotific S.kernel c t n isBlock timeout = some p)
    (law : Conserved (S.record p.1 p.2)) : SafeOn S (.wait c t n isBlock timeout) := by
  intro none blocks
  have positive : ¬ 0 < (S.kernel.notific n).notDelivered := by omega
  have free : timeout = true → S.kernel.cb t = false := by
    intro sleeps
    by_contra linked
    rw [Bool.not_eq_false] at linked
    have again : (blockOn S.kernel c t n).cb t = true := linked
    simp [waitNotific, positive, blocks, sleeps, enqueueSleeper, again] at result
  have notific : p.1.notific = (blockOn S.kernel c t n).notific := by
    cases timeout with
    | false =>
      simp only [waitNotific, positive, blocks, if_true, if_false] at result
      cases result
      rfl
    | true =>
      have again : (blockOn S.kernel c t n).cb t = false := free rfl
      simp only [waitNotific, positive, blocks, if_true, if_false, enqueueSleeper, again] at result
      cases result
      rfl
  refine ⟨free, ?_⟩
  have count := law.count n
  have before := inv.law.count n
  rw [record_kernel, notific] at count
  simp only [blockOn, update_self, length_append, length_singleton] at count
  omega

theorem signal_safe {enableDirectSwitch fits : Bool}
    (result : signalNotific S.kernel c n enableDirectSwitch fits = some p)
    (law : Conserved (S.record p.1 p.2)) : SafeOn S (.signal c n enableDirectSwitch fits) := by
  intro kept
  simp only [signalNotific, kept, if_true] at result
  cases result
  have sum := law.signals n
  have before := inv.law.signals n
  simp only [record, update_self] at sum
  omega

omit inv in
theorem WaitOk.sleeps {cb timed : Bool} {pending : Option Nat} {p : WaitPhase}
    (once : WaitOk state ret cb pending wakes timed p) (blocked : p.blockedOn ≠ none)
    (sleeps : timed = true) : cb = true ∧ pending ≠ none := by
  cases p with
  | active | signalled | timedOut => simp [blockedOn] at blocked
  | blocked m =>
    obtain ⟨linked, own⟩ := once.2.2.2 sleeps
    exact ⟨linked, by simp [own]⟩

omit inv in
theorem signalStep_safe (result : signalStep S.kernel c pc = some p)
    (law : Conserved (S.record p.1 p.2)) : SafeOn S (.signalStep c pc) := by
  constructor
  · rintro (stage | stage) ⟨blocked, sleeps⟩
    · simp only [signalStep, stage] at result
      cases result
      obtain ⟨linked, _⟩ := (law.once pc.target).sleeps blocked sleeps
      simp [record] at linked
    · simp only [signalStep, stage] at result
      cases result
      obtain ⟨_, pending⟩ := (law.once pc.target).sleeps blocked sleeps
      simp [record] at pending
  · intro stage
    by_contra foreign
    rw [not_or] at foreign
    simp [signalStep, stage, foreign] at result

theorem expire_safe (result : timerExpires S.kernel t = some p)
    (law : Conserved (S.record p.1 p.2)) : SafeOn S (.expire t) := by
  rcases pending : S.kernel.pendingNotific t with _ | n
  · simp [timerExpires, pending] at result
  refine ⟨by simp [pending], fun waits => ?_⟩
  by_cases counted : (S.kernel.notific n).waitingCount = 0
  · simp [timerExpires, pending, waits, counted] at result
  simp only [timerExpires, pending, waits, counted, ne_eq, not_true_eq_false, if_false] at result
  cases result
  -- the timer has woken it: it was not woken before, and its wait had a timeout
  have after := law.once t
  simp only [record, update_self] at after
  obtain ⟨woken, sleeps, _⟩ := after
  have unwoken : S.wakes t ≠ 1 := by omega
  have once := inv.law.once t
  refine ⟨?_, sleeps⟩
  cases phase : S.phase t with
  | active => exact absurd phase (inv.cpus.awake t waits)
  | blocked m => simp [blockedOn]
  | signalled | timedOut =>
    rw [phase] at once
    exact absurd once.1 unwoken

theorem step_safe (result : notificOp S.kernel op = some p) (law : Conserved (S.record p.1 p.2)) :
    SafeOn S op := by
  cases op with
  | wait c t n isBlock timeout => exact wait_safe inv result law
  | signal c n enableDirectSwitch fits => exact signal_safe inv result law
  | signalStep c pc => exact signalStep_safe result law
  | expire t => exact expire_safe inv result law
  | run | preempt => trivial

end Steps

/-! ## Whole runs -/

structure NotificStart {N : Nat} (T : NotificSys N) : Prop where
  notific : ∀ n, T.kernel.notific n = ⟨0, 0, []⟩
  cpu : ∀ c, T.kernel.cpu c = none
  onCpu : ∀ c t, T.kernel.current c = some t → T.kernel.state t = .running
  apart : ∀ c c' t, T.kernel.current c = some t → T.kernel.current c' = some t → c = c'
  awake : ∀ t, T.kernel.state t ≠ .waiting
  phase : ∀ t, T.phase t = .active ∧ T.wakes t = 0
  counts : ∀ n, T.woken n = [] ∧ T.signals n = 0 ∧ T.returned n = 0

section Runs
variable {N : Nat}

theorem NotificStart.inv {T : NotificSys N} (start : NotificStart T) : NotificInv T := by
  refine ⟨⟨?_, ?_, ?_, ?_, ?_, ?_⟩, ⟨?_, start.apart, ?_, ?_, ?_, ?_⟩⟩
  · intro n
    simp [start.notific n]
  · intro n
    simp [waitingOf, blockedOf, start.notific n, start.phase, blockedOn]
  · intro n
    simp [start.notific n]
  · intro n
    simp [signalledOf, start.counts n, start.phase, signalledBy]
  · intro n
    simp [start.counts n, start.notific n]
  · intro t
    simp [start.phase t, WaitOk]
  · intro c t place
    exact ⟨(start.phase t).1, Or.inl (start.onCpu c t place)⟩
  · intro c pc place
    simp [start.cpu c] at place
  · intro c c' pc pc' place
    simp [start.cpu c] at place
  · intro c pc place
    simp [start.cpu c] at place
  · intro t waits
    exact absurd waits (start.awake t)

/-- From a state without signals and waits, the runs in which every step is safe are exactly the
runs that never stop the kernel and conserve the notifications in every state. -/
theorem notifications_conserved (T : NotificSys N) (start : NotificStart T)
    (ops : List (NotificOp N)) : RunMeets notificStep NotificSafe (some T) ops ↔
      ∀ pre, pre <+: ops → NotificKept (pre.foldl notificStep (some T)) := by
  apply run_exact notificStep NotificSafe (fun S => ∃ T, S = some T ∧ NotificInv T) NotificKept
  · rintro S ⟨T, rfl, inv⟩
    exact ⟨T, rfl, inv.law⟩
  · rintro S op ⟨T, rfl, inv⟩ safe
    by_cases enabled : NotificEnabled T.kernel op
    · obtain ⟨p, result, kept⟩ := step_kept inv enabled (safe T rfl enabled)
      refine ⟨T.record p.1 p.2, ?_, kept⟩
      simp [notificStep, enabled, result]
    · exact ⟨T, by simp [notificStep, enabled], inv⟩
  · rintro S op ⟨T, rfl, inv⟩ ⟨T', stepped, law⟩ U same enabled
    cases same
    simp only [notificStep, bind_some, enabled, if_true] at stepped
    obtain ⟨p, result, rfl⟩ := map_eq_some_iff.mp stepped
    exact step_safe inv result law
  · exact ⟨T, rfl, start.inv⟩

end Runs

def cpu0 : Fin 2 := ⟨0, Nat.two_pos⟩

def cpu1 : Fin 2 := ⟨1, Nat.one_lt_two⟩

def exampleNotific : NotificSys 2 where
  kernel :=
    { notific := fun _ => ⟨0, 0, []⟩
      state := fun t => if t < 2 then .running else .ready
      ret := fun _ => 0
      cb := fun _ => false
      pendingNotific := fun _ => none
      sleepCpu := fun _ => cpu0
      current := fun c => some c.val
      cpu := fun _ => none }
  phase := fun _ => .active
  wakes := fun _ => 0
  timed := fun _ => false
  woken := fun _ => []
  signals := fun _ => 0
  returned := fun _ => 0

theorem exampleNotific_start : NotificStart exampleNotific where
  notific := fun _ => rfl
  cpu := fun _ => rfl
  onCpu := by
    intro c t place
    cases place
    exact if_pos c.isLt
  apart := by
    intro c c' t place place'
    cases place
    exact Fin.ext (Option.some.inj place').symm
  awake := by
    intro t
    simp only [exampleNotific]
    split <;> simp
  phase := fun _ => ⟨rfl, rfl⟩
  counts := fun _ => ⟨rfl, rfl, rfl⟩

/-- A wait with a timeout ended by a direct switch, and one ended by the timer. -/
theorem notifications_conserved_signal_and_timeout :
    NotificKept ([.wait cpu0 0 5 true true, .signal cpu1 5 true true,
      .signalStep cpu1 ⟨.readCb, 5, 0, true⟩, .signalStep cpu1 ⟨.dequeue, 5, 0, true⟩,
      .signalStep cpu1 ⟨.compare, 5, 0, true⟩, .signalStep cpu1 ⟨.clear, 5, 0, true⟩,
      .signalStep cpu1 ⟨.switch, 5, 0, true⟩, .wait cpu1 0 5 true true, .expire 0,
      .run cpu0 0].foldl notificStep (some exampleNotific)) :=
  (notifications_conserved exampleNotific exampleNotific_start _).mp (by decide) _ (prefix_refl _)

def exampleRace : List (NotificOp 2) :=
  [.wait cpu0 0 5 true true, .run cpu0 2, .wait cpu0 2 5 true false, .signal cpu1 5 true true,
    .expire 0]

/-- The threads 0, with a timeout, and 2 wait.  The signal on CPU 1 takes thread 0 out of the list
for a direct switch; before it removes the timeout, the timer on CPU 0 finds thread 0 still in
`TS_WAITING`: the count drops to 0 with thread 2 in the list, and thread 0 is woken twice. -/
theorem timer_before_direct_switch : NotificStart exampleNotific ∧
      (exampleRace.foldl notificStep (some exampleNotific)).map
        (fun T => (T.kernel.notific 5, T.wakes 0)) = some (⟨0, 0, [2]⟩, 2) ∧
      ¬ NotificKept (exampleRace.foldl notificStep (some exampleNotific)) := by
  have reached : (exampleRace.foldl notificStep (some exampleNotific)).map
      (fun T => (T.kernel.notific 5, T.wakes 0)) = some (⟨0, 0, [2]⟩, 2) := by decide
  refine ⟨exampleNotific_start, reached, ?_⟩
  rintro ⟨T, run, law⟩
  rw [run, map_some, Option.some.injEq, Prod.mk.injEq] at reached
  have count := law.count 5
  rw [reached.1] at count
  cases count

end KernelLabs.ChCore
