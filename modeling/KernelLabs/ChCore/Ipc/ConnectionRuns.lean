import KernelLabs.Lib.Runs
import KernelLabs.ChCore.Ipc.Connection

/-!
# Calls and returns over whole runs

The lock of a handler is taken in the client's call and released in the handler's return, and
`active_conn` and `current_client_thread` say whom to resume.  A call whose transfer of
capabilities fails returns with the lock held.  A registration makes a new config for its handler
thread, with the lock free and `active_conn` as the memory was, whether the thread serves a call
or not.  In every run without such calls the lock is held exactly while a call is served, and in
every run without such registrations every return resumes the client that is served.
-/

set_option autoImplicit false

namespace KernelLabs.ChCore

open Lib Function List Option

/-- The kernel's data, and the jobs that are open: who waits for which handler or register_cb
thread. -/
structure IpcSys where
  ipc : Ipc
  jobs : List (Nat × Nat)

def IpcSys.record (S : IpcSys) (s : Ipc) : IpcEvent → IpcSys
  | .returned _ => ⟨s, S.jobs⟩
  | .served client handler => ⟨s, (client, handler) :: S.jobs⟩
  | .resumed client handler _ => ⟨s, S.jobs.erase (client, handler)⟩
  | .asked client registrar => ⟨s, (client, registrar) :: S.jobs⟩
  | .registered client registrar => ⟨s, S.jobs.erase (client, registrar)⟩

def ipcStep (S : Option IpcSys) (op : IpcOp) : Option IpcSys :=
  S.bind fun S => (ipcOp S.ipc op).map fun p => S.record p.1 p.2

def Worker (s : Ipc) (w : Nat) : Prop := s.handler w ≠ none ∨ s.register w ≠ none

def Serves (s : Ipc) (t w : Nat) : Prop :=
  ∃ c, s.handler w = some ⟨true, some c⟩ ∧ s.conn c = some ⟨some t, some w⟩

def Registers (s : Ipc) (t w : Nat) : Prop :=
  ∃ c, s.register w = some ⟨true, some c⟩ ∧ s.conn c = some ⟨some t, none⟩

structure IpcInv (S : IpcSys) : Prop where
  jobs : Jobs S.ipc.state (Worker S.ipc) S.jobs
  open_ : ∀ t w, (t, w) ∈ S.jobs → Serves S.ipc t w ∨ Registers S.ipc t w
  roles : ∀ w, S.ipc.handler w = none ∨ S.ipc.register w = none

variable {active old : Option Nat}

section Steps
variable {S : IpcSys} {s' : Ipc} {t c h r : Nat} (inv : IpcInv S)
include inv

theorem IpcInv.serves (job : (t, h) ∈ S.jobs) (config : S.ipc.handler h ≠ none) :
    Serves S.ipc t h := by
  rcases inv.open_ t h job with serves | ⟨c, register, _⟩
  · exact serves
  · rcases inv.roles h with none | none
    · exact absurd none config
    · rw [none] at register
      cases register

theorem IpcInv.registers (job : (t, r) ∈ S.jobs) (config : S.ipc.register r ≠ none) :
    Registers S.ipc t r := by
  rcases inv.open_ t r job with ⟨c, handler, _⟩ | registers
  · rcases inv.roles r with none | none
    · rw [none] at handler
      cases handler
    · exact absurd none config
  · exact registers

theorem IpcInv.idle (free : S.ipc.handler h = some ⟨false, active⟩) (x : Nat) :
    (x, h) ∉ S.jobs := by
  intro job
  obtain ⟨c, config, _⟩ := inv.serves job (by simp [free])
  rw [free] at config
  cases config

theorem IpcInv.refused {leak : Prop} (refused : Refused S.ipc s' c leak) : IpcInv ⟨s', S.jobs⟩ := by
  obtain ⟨conns, registers, states, handlers⟩ := refused
  have locked : ∀ w, S.ipc.handler w ≠ none ↔ s'.handler w ≠ none := by
    intro w
    rcases handlers with same | ⟨_, h, old, active, _, free, lock⟩
    · rw [same]
    · rw [lock]
      by_cases this : w = h
      · subst this
        simp [free]
      · rw [update_of_ne this]
  refine ⟨?_, ?_, ?_⟩
  · change Jobs s'.state (Worker s') S.jobs
    rw [states]
    apply inv.jobs.workers
    intro v works
    unfold Worker at *
    rw [← locked, registers] at works
    exact .inr works
  · intro t w job
    rcases inv.open_ t w job with ⟨c', config, object⟩ | ⟨c', config, object⟩
    · left
      refine ⟨c', ?_, by rw [conns]; exact object⟩
      rcases handlers with same | ⟨_, h, old, active, _, free, lock⟩
      · rw [same]
        exact config
      have apart : w ≠ h := by
        intro this
        rw [this, free] at config
        cases config
      rw [lock, update_of_ne apart]
      exact config
    · exact .inr ⟨c', by rw [registers]; exact config, by rw [conns]; exact object⟩
  · intro w
    rcases inv.roles w with none | none
    · left
      by_contra some
      exact (locked w).mpr some none
    · right
      rw [registers]
      exact none

theorem IpcInv.entered (runs : S.ipc.state t = .running) (entered : Entered S.ipc s' t c h) :
    IpcInv ⟨s', (t, h) :: S.jobs⟩ := by
  obtain ⟨⟨old, object⟩, ⟨active, free⟩, _, conns, handlers, registers, states⟩ := entered
  have idle := inv.idle free
  have worker : ∀ w, Worker s' w → Worker S.ipc w := by
    intro w works
    unfold Worker at *
    rw [handlers, registers] at works
    by_cases this : w = h
    · exact .inl (by simp [this, free])
    · rwa [update_of_ne this] at works
  refine ⟨?_, ?_, ?_⟩
  · change Jobs s'.state (Worker s') ((t, h) :: S.jobs)
    rw [states]
    apply (inv.jobs.begin runs (.inl (by simp [free])) idle).workers
    exact fun v works => .inr (worker v works)
  · intro x w job
    rcases mem_cons.mp job with equal | job
    · cases equal
      exact .inl ⟨c, by rw [handlers, update_self], by rw [conns, update_self]⟩
    have apart : w ≠ h := fun this => idle x (this ▸ job)
    rcases inv.open_ x w job with ⟨c', config, other⟩ | ⟨c', config, other⟩
    · have differ : c' ≠ c := by
        intro this
        rw [this, object] at other
        cases other
        exact apart rfl
      refine .inl ⟨c', ?_, ?_⟩
      · rw [handlers, update_of_ne apart]
        exact config
      · rw [conns, update_of_ne differ]
        exact other
    · have differ : c' ≠ c := by
        intro this
        rw [this, object] at other
        cases other
      refine .inr ⟨c', ?_, ?_⟩
      · rw [registers]
        exact config
      · rw [conns, update_of_ne differ]
        exact other
  · intro w
    change s'.handler w = none ∨ s'.register w = none
    rw [handlers, registers]
    by_cases this : w = h
    · right
      rcases inv.roles h with none | none
      · rw [free] at none
        cases none
      · rw [this]
        exact none
    · rw [update_of_ne this]
      exact inv.roles w

theorem IpcInv.handler_running (runs : S.ipc.state h = .running) (config : S.ipc.handler h ≠ none) :
    ∃ t c, (t, h) ∈ S.jobs ∧ S.ipc.handler h = some ⟨true, some c⟩ ∧
      S.ipc.conn c = some ⟨some t, some h⟩ := by
  obtain ⟨t, job⟩ := inv.jobs.busy h (.inl config) (by simp [runs])
  obtain ⟨c, active, object⟩ := inv.serves job config
  exact ⟨t, c, job, active, object⟩

theorem IpcInv.registrar_running (runs : S.ipc.state r = .running)
    (config : S.ipc.register r ≠ none) :
    ∃ t c, (t, r) ∈ S.jobs ∧ S.ipc.register r = some ⟨true, some c⟩ ∧
      S.ipc.conn c = some ⟨some t, none⟩ := by
  obtain ⟨t, job⟩ := inv.jobs.busy r (.inr config) (by simp [runs])
  obtain ⟨c, active, object⟩ := inv.registers job config
  exact ⟨t, c, job, active, object⟩

theorem IpcInv.resumed (job : (t, h) ∈ S.jobs) (runs : S.ipc.state h = .running)
    (config : S.ipc.handler h ≠ none) (ret : Int) :
    IpcInv ⟨threadMigrateToClient S.ipc t h ret, S.jobs.erase (t, h)⟩ := by
  have noRegister : S.ipc.register h = none := (inv.roles h).resolve_left config
  refine ⟨?_, ?_, ?_⟩
  · apply (inv.jobs.finish job runs).workers
    intro v works
    right
    unfold Worker at *
    by_cases this : v = h
    · exact .inl (this ▸ config)
    · simpa only [threadMigrateToClient, update_of_ne this] using works
  · intro x w rest
    obtain ⟨other, _, apart⟩ := inv.jobs.left job rest
    rcases inv.open_ x w other with ⟨c, active, object⟩ | registers
    · exact .inl ⟨c, (update_of_ne apart ..).trans active, object⟩
    · exact .inr registers
  · intro w
    by_cases this : w = h
    · exact .inr (this ▸ noRegister)
    · rcases inv.roles w with none | none
      · exact .inl ((update_of_ne this ..).trans none)
      · exact .inr none

theorem IpcInv.asked (runs : S.ipc.state t = .running) (free : S.ipc.register r = some ⟨false, old⟩)
    (fresh : S.ipc.conn c = none) : IpcInv ⟨S.ipc.ask t r c, (t, r) :: S.jobs⟩ := by
  have config : S.ipc.register r ≠ none := by simp [free]
  have idle : ∀ x, (x, r) ∉ S.jobs := by
    intro x job
    obtain ⟨c', active, _⟩ := inv.registers job config
    rw [free] at active
    cases active
  have otherConn : ∀ c' conn, S.ipc.conn c' = some conn → c' ≠ c := by
    intro c' conn object this
    rw [this, fresh] at object
    cases object
  refine ⟨?_, ?_, ?_⟩
  · apply (inv.jobs.begin runs (.inr config) idle).workers
    intro v works
    right
    unfold Worker at *
    by_cases this : v = r
    · exact .inr (this ▸ config)
    · simpa only [Ipc.ask, update_of_ne this] using works
  · intro x w job
    rcases mem_cons.mp job with equal | job
    · cases equal
      exact .inr ⟨c, update_self .., update_self ..⟩
    · have apart : w ≠ r := fun this => idle x (this ▸ job)
      rcases inv.open_ x w job with ⟨c', active, object⟩ | ⟨c', active, object⟩
      · exact .inl ⟨c', active, (update_of_ne (otherConn c' _ object) ..).trans object⟩
      · exact .inr ⟨c', (update_of_ne apart ..).trans active,
          (update_of_ne (otherConn c' _ object) ..).trans object⟩
  · intro w
    by_cases this : w = r
    · exact .inl (this ▸ (inv.roles r).resolve_right config)
    · rcases inv.roles w with none | none
      · exact .inl none
      · exact .inr ((update_of_ne this ..).trans none)

theorem IpcInv.registered (job : (t, r) ∈ S.jobs) (runs : S.ipc.state r = .running)
    (active : S.ipc.register r = some ⟨true, some c⟩) (object : S.ipc.conn c = some ⟨some t, none⟩)
    (passive : S.ipc.state h = .passive) (role : S.ipc.register h = none) (garbage : Option Nat) :
    IpcInv ⟨S.ipc.bindHandler t r h c garbage false, S.jobs.erase (t, r)⟩ := by
  have config : S.ipc.register r ≠ none := by simp [active]
  have waiting := (inv.jobs.waits t).mpr ⟨r, job⟩
  have notRegistrar : h ≠ r := fun this => by simp [this, runs] at passive
  have notClient : h ≠ t := fun this => by simp [this, waiting] at passive
  refine ⟨?_, ?_, ?_⟩
  · apply (inv.jobs.finish job runs).workers
    intro v works
    unfold Worker at *
    by_cases this : v = h
    · left
      subst this
      rw [handBack_other notClient notRegistrar]
      exact passive
    · right
      by_cases this' : v = r
      · exact .inr (this' ▸ config)
      · simpa only [Ipc.bindHandler, update_of_ne this, update_of_ne this'] using works
  · intro x w rest
    obtain ⟨other, _, notWorker⟩ := inv.jobs.left job rest
    have notHandler : w ≠ h := fun this => inv.jobs.active x w other (this ▸ passive)
    have notConn : ∀ c' server, S.ipc.conn c' = some ⟨some x, server⟩ → c' ≠ c := by
      intro c' server object' this
      rw [this, object] at object'
      cases object'
      exact notWorker (inv.jobs.oneWorker t w r other job)
    rcases inv.open_ x w other with ⟨c', active', object'⟩ | ⟨c', active', object'⟩
    · exact .inl ⟨c', (update_of_ne notHandler ..).trans active',
        (update_of_ne (notConn c' _ object') ..).trans object'⟩
    · exact .inr ⟨c', (update_of_ne notWorker ..).trans active',
        (update_of_ne (notConn c' _ object') ..).trans object'⟩
  · intro w
    by_cases this : w = h
    · right
      subst this
      exact (update_of_ne notRegistrar ..).trans role
    by_cases this' : w = r
    · left
      subst this'
      exact (update_of_ne this ..).trans ((inv.roles w).resolve_right config)
    · rcases inv.roles w with none | none
      · exact .inl ((update_of_ne this ..).trans none)
      · exact .inr ((update_of_ne this' ..).trans none)

end Steps

/-! ## Matching -/

/-- The thread that a registration names as handler is no register_cb thread and is passive: it
neither runs nor waits, so it serves no call.  It is not set running either. -/
def NamesIdle (S : Option IpcSys) : IpcOp → Prop
  | .registerCbReturn _ h _ flexIpc => ∀ T ∈ S,
    T.ipc.state h = .passive ∧ T.ipc.register h = none ∧ flexIpc = false
  | _ => True

instance decidableNamesIdle (S : Option IpcSys) : ∀ op, Decidable (NamesIdle S op) := by
  rintro ⟨⟩ <;> dsimp only [NamesIdle] <;> infer_instance

variable {op : IpcOp}

theorem IpcInv.step {S : IpcSys} (inv : IpcInv S) (idle : NamesIdle (some S) op) {s' : Ipc}
    {e : IpcEvent} (made : ipcOp S.ipc op = some (s', e)) : IpcInv (S.record s' e) := by
  obtain ⟨runs, done⟩ := ipcOp_done made
  cases done with
  | refused error c _ refused => exact inv.refused refused
  | entered c h _ entered => exact inv.entered runs entered
  | resumed h ret sent lock c client server this active object =>
    subst this
    have config : S.ipc.handler h ≠ none := by simp [active]
    obtain ⟨t, c', job, active', object'⟩ := inv.handler_running runs config
    change S.ipc.handler h = _ at active'
    rw [active] at active'
    cases active'
    rw [object] at object'
    cases object'
    exact inv.resumed job runs config ret
  | asked t r c old this free fresh =>
    subst this
    exact inv.asked runs free fresh
  | registered r h garbage flexIpc lock c client server this active object =>
    subst this
    obtain ⟨passive, role, rfl⟩ := idle S rfl
    have config : S.ipc.register r ≠ none := by simp [active]
    obtain ⟨t, c', job, active', object'⟩ := inv.registrar_running runs config
    change S.ipc.register r = _ at active'
    rw [active] at active'
    cases active'
    rw [object] at object'
    cases object'
    exact inv.registered job runs active object passive role garbage

theorem ipcStep_inv (S : Option IpcSys) (op : IpcOp) (inv : ∀ T ∈ S, IpcInv T)
    (idle : NamesIdle S op) : ∀ T ∈ ipcStep S op, IpcInv T := by
  intro T after
  obtain ⟨before, here, done⟩ := bind_eq_some_iff.mp after
  obtain ⟨⟨s', e⟩, made, rfl⟩ := map_eq_some_iff.mp done
  subst here
  exact (inv before rfl).step idle made

structure Quiet (s : Ipc) : Prop where
  nobodyWaits : ∀ t, s.state t ≠ .waiting
  passive : ∀ w, Worker s w → s.state w = .passive
  roles : ∀ w, s.handler w = none ∨ s.register w = none

variable {s : Ipc}

theorem Quiet.inv (quiet : Quiet s) : IpcInv ⟨s, []⟩ where
  jobs := by
    refine ⟨nodup_nil, ?_, ?_, ?_, ?_, ?_⟩
    · intro t t' w job
      cases job
    · intro t w w' job
      cases job
    · intro t
      constructor
      · intro waiting
        exact absurd waiting (quiet.nobodyWaits t)
      · intro some
        obtain ⟨w, job⟩ := some
        cases job
    · intro w works active
      exact absurd (quiet.passive w works) active
    · intro t w job
      cases job
  open_ := fun _ _ job => by cases job
  roles := quiet.roles

/-- No handler serves two calls; a thread waits if and only if its call or registration is open;
and what a handler returns goes to the client it serves, which runs on with it. -/
structure Matched (S : IpcSys) : Prop where
  oneCall : ∀ h, (S.jobs.filter fun job => job.2 = h).length ≤ 1
  waiting : ∀ t, S.ipc.state t = .waiting ↔ ∃ w, (t, w) ∈ S.jobs
  returns : ∀ h ret, S.ipc.state h = .running → S.ipc.handler h ≠ none →
    ∃ t s', (t, h) ∈ S.jobs ∧ S.ipc.state t = .waiting ∧
      ipcOp S.ipc (.ipcReturn h ret true) = some (s', .resumed t h ret) ∧
      s'.ret t = ret ∧ s'.state t = .running ∧
      ∀ x, x ≠ t → s'.state x = .running → S.ipc.state x = .running

theorem length_le_one_of_nodup {A : Type} {l : List A} (nodup : l.Nodup)
    (same : ∀ a ∈ l, ∀ b ∈ l, a = b) : l.length ≤ 1 := by
  cases l with
  | nil => simp
  | cons a rest =>
    cases rest with
    | nil => simp
    | cons b rest =>
      have equal := same a (by simp) b (by simp)
      exact absurd nodup (by simp [equal])

theorem IpcInv.matched {S : IpcSys} (inv : IpcInv S) : Matched S where
  oneCall := by
    intro h
    apply length_le_one_of_nodup (inv.jobs.nodup.filter _)
    intro a first b second
    simp only [mem_filter, decide_eq_true_eq] at first second
    obtain ⟨t, w⟩ := a
    obtain ⟨t', w'⟩ := b
    obtain ⟨job, rfl⟩ := first
    obtain ⟨job', rfl⟩ := second
    rw [inv.jobs.oneClient t t' _ job job']
  waiting := inv.jobs.waits
  returns := by
    intro h ret runs config
    obtain ⟨t, c, job, active, object⟩ := inv.handler_running runs config
    have waiting := (inv.jobs.waits t).mpr ⟨h, job⟩
    refine ⟨t, threadMigrateToClient S.ipc t h ret, job, waiting, ?_, ?_, ?_, ?_⟩
    · simp only [ipcOp, IpcOp.thread, runs, sysIpcReturn, active, bind_some, object]
      rfl
    · exact update_self ..
    · exact update_self ..
    · intro x notClient running
      by_cases this : x = h
      · rw [this]
        exact runs
      · exact (handBack_other notClient this).symm.trans running

/-- In every run whose registrations name idle handler threads, calls and returns match. -/
theorem ipc_calls_match (s : Ipc) (quiet : Quiet s) (ops : List IpcOp)
    (meets : RunMeets ipcStep NamesIdle (some ⟨s, []⟩) ops) :
    ∀ S ∈ ops.foldl ipcStep (some ⟨s, []⟩), Matched S := by
  intro S reached
  have start : ∀ T ∈ some (⟨s, []⟩ : IpcSys), IpcInv T := by
    intro T here
    cases here
    exact quiet.inv
  exact (run_invariant ipcStep NamesIdle (fun S => ∀ T ∈ S, IpcInv T) ipcStep_inv ops _ start meets
    S reached).matched

def exampleIpc : Ipc where
  conn := fun _ => none
  handler := fun _ => none
  register := fun r => if r = 10 then some ⟨false, none⟩ else none
  state := fun t => if t = 10 ∨ t = 20 then .passive else .running
  ret := fun _ => 0

theorem exampleIpc_quiet : Quiet exampleIpc where
  nobodyWaits := by
    intro t waiting
    simp only [exampleIpc] at waiting
    split at waiting <;> cases waiting
  passive := by
    intro w works
    have registrar : w = 10 := by
      by_contra other
      simp [Worker, exampleIpc, other] at works
    simp [exampleIpc, registrar]
  roles := fun _ => .inl rfl

/-- The client 1 is registered, calls, and gets the value the handler returns. -/
theorem ipc_calls_match_one_call : (([.registerClient 1 10 100, .registerCbReturn 10 20 (some 7) false,
        .ipcCall 1 100 false 0 ⟨0, true, 0, 0⟩, .ipcReturn 20 42 true] : List IpcOp).foldl ipcStep
      (some ⟨exampleIpc, []⟩)).map (fun S => (S.ipc.ret 1, S.jobs)) = some (42, []) ∧
    ∀ S ∈ ([.registerClient 1 10 100, .registerCbReturn 10 20 (some 7) false,
        .ipcCall 1 100 false 0 ⟨0, true, 0, 0⟩, .ipcReturn 20 42 true] : List IpcOp).foldl ipcStep
      (some ⟨exampleIpc, []⟩), Matched S :=
  ⟨by decide, ipc_calls_match exampleIpc exampleIpc_quiet _ (by decide)⟩

/-- The handler is registered once more while it serves: its return stops the kernel. -/
theorem return_after_second_registration :
    ∃ S, ([.registerClient 1 10 100, .registerCbReturn 10 20 none false,
        .ipcCall 1 100 false 0 ⟨0, true, 0, 0⟩, .registerClient 2 10 200,
        .registerCbReturn 10 20 none false] : List IpcOp).foldl ipcStep (some ⟨exampleIpc, []⟩) = some S ∧
      S.jobs = [(1, 20)] ∧ S.ipc.state 1 = .waiting ∧ S.ipc.state 20 = .running ∧
      ipcOp S.ipc (.ipcReturn 20 42 true) = none ∧ ¬ Matched S := by
  refine ⟨_, rfl, by decide, by decide, by decide, rfl, ?_⟩
  intro matched
  obtain ⟨t, s', _, _, made, _⟩ := matched.returns 20 42 (by decide) (by decide)
  have never : (none : Option (Ipc × IpcEvent)) = some (s', .resumed t 20 42) := made
  cases never

/-! ## The lock -/

def SendsCaps (capNum : Nat) (env : SendCapEnv) : Prop :=
  capNum = 0 ∨ (capNum < maxCapTransfer ∧ 0 ≤ env.offsetCopy ∧ env.capBuf = true ∧
    0 ≤ env.slotsCopy ∧ 0 ≤ env.backCopy)

instance decidableSendsCaps (capNum : Nat) (env : SendCapEnv) : Decidable (SendsCaps capNum env) :=
  inferInstanceAs (Decidable (_ ∨ _))

theorem ipcSendCap_nonneg {capNum : Nat} {env : SendCapEnv} (sends : SendsCaps capNum env) :
    0 ≤ ipcSendCap capNum env := by
  unfold ipcSendCap
  rcases sends with rfl | ⟨few, offset, buf, slots, back⟩
  · simp
  · by_cases none : capNum = 0
    · simp [none]
    · simp [none, Nat.not_le.mpr few, Int.not_lt.mpr offset, buf, Int.not_lt.mpr slots,
        Int.not_lt.mpr back]

def lockFree (s : Ipc) (c : Nat) : Bool :=
  (((s.conn c).bind (·.serverHandlerThread)).bind s.handler).any (!·.ipcLock)

def TransfersOk (S : Option IpcSys) : IpcOp → Prop
  | .ipcCall _ c msg capNum env =>
    ∀ T ∈ S, lockFree T.ipc c = true → msg = true → SendsCaps capNum env
  | .ipcSendCap _ c cap => ∀ T ∈ S, lockFree T.ipc c = true → 0 ≤ cap
  | _ => True

instance decidableTransfersOk (S : Option IpcSys) : ∀ op, Decidable (TransfersOk S op) := by
  rintro ⟨⟩ <;> dsimp only [TransfersOk] <;> infer_instance

def IpcOp.isCall : IpcOp → Bool
  | .registerClient .. | .registerCbReturn .. => false
  | .ipcCall .. | .ipcSendCap .. | .ipcReturn .. => true

def LocksServe (S : IpcSys) : Prop :=
  ∀ h cfg, S.ipc.handler h = some cfg → cfg.ipcLock = true ∨ cfg.activeConn ≠ none →
    ∃ t, (t, h) ∈ S.jobs

def LockExact (s : Ipc) : Prop :=
  ∀ h cfg, s.handler h = some cfg → (cfg.ipcLock = true ↔
    ∃ c conn t, cfg.activeConn = some c ∧ s.conn c = some conn ∧
      conn.currentClientThread = some t ∧ s.state t = .waiting)

section Lock
variable {S : IpcSys} {s' : Ipc} {t c h : Nat} {e : IpcEvent}

theorem lockFree_of_free (object : s.conn c = some ⟨old, some h⟩)
    (free : s.handler h = some ⟨false, active⟩) : lockFree s c = true := by
  simp [lockFree, object, free]

/-- Without an error in the transfer, a call that returns leaves the locks. -/
theorem TransfersOk.kept (fine : TransfersOk (some S) op)
    (refused : Refused S.ipc s' c (TransferFails op c)) : s'.handler = S.ipc.handler := by
  rcases refused.handlers with same | ⟨failed, h, old, active, object, free, _⟩
  · exact same
  exfalso
  have unlocked := lockFree_of_free object free
  cases op with
  | ipcCall t c' msg capNum env =>
    obtain ⟨rfl, sent, error⟩ := failed
    have enough := ipcSendCap_nonneg (fine S rfl unlocked sent)
    omega
  | ipcSendCap t c' cap =>
    obtain ⟨rfl, error⟩ := failed
    have enough := fine S rfl unlocked
    omega
  | registerClient | registerCbReturn | ipcReturn => exact failed

theorem LocksServe.entered (locks : LocksServe S) (entered : Entered S.ipc s' t c h) :
    LocksServe ⟨s', (t, h) :: S.jobs⟩ := by
  intro w cfg config held
  by_cases this : w = h
  · exact ⟨t, this ▸ mem_cons_self⟩
  · have before : S.ipc.handler w = some cfg := by
      simpa only [entered.handlers, update_of_ne this] using config
    obtain ⟨x, job⟩ := locks w cfg before held
    exact ⟨x, mem_cons_of_mem _ job⟩

section
variable (inv : IpcInv S) (locks : LocksServe S)
include inv locks

theorem LocksServe.resumed (ret : Int) :
    LocksServe ⟨threadMigrateToClient S.ipc t h ret, S.jobs.erase (t, h)⟩ := by
  intro w cfg config held
  simp only [threadMigrateToClient] at config
  by_cases this : w = h
  · rw [this, update_self] at config
    cases config
    simp at held
  · rw [update_of_ne this] at config
    obtain ⟨x, other⟩ := locks w cfg config held
    exact ⟨x, inv.jobs.stays other (.inr this)⟩

theorem LocksServe.step (call : op.isCall = true) (fine : TransfersOk (some S) op)
    (made : ipcOp S.ipc op = some (s', e)) : LocksServe (S.record s' e) := by
  obtain ⟨_, done⟩ := ipcOp_done made
  cases done with
  | refused error c _ refused =>
    have same := fine.kept refused
    intro w cfg config held
    exact locks w cfg (same ▸ config) held
  | entered c h _ entered => exact locks.entered entered
  | resumed h ret sent lock c client server this active object => exact locks.resumed inv ret
  | asked t r c old this free fresh
  | registered r h garbage flexIpc lock c client server this active object =>
    subst this
    cases call

theorem LocksServe.exact : LockExact S.ipc := by
  intro h cfg config
  constructor
  · intro held
    obtain ⟨t, job⟩ := locks h cfg config (.inl held)
    obtain ⟨c, active, object⟩ := inv.serves job (by simp [config])
    rw [config] at active
    cases active
    exact ⟨c, _, t, rfl, object, rfl, (inv.jobs.waits t).mpr ⟨h, job⟩⟩
  · intro served
    obtain ⟨c, conn, t, active, _⟩ := served
    obtain ⟨t', job⟩ := locks h cfg config (.inr (by simp [active]))
    obtain ⟨c', active', _⟩ := inv.serves job (by simp [config])
    rw [config] at active'
    cases active'
    rfl

end

end Lock

/-- The lock of a handler is held exactly while it serves, a call that fails leaves the locks, and a
call whose handler serves nobody gets in. -/
structure LockDiscipline (S : IpcSys) : Prop where
  exact_ : LockExact S.ipc
  errors : ∀ op s' error, op.isCall = true → TransfersOk (some S) op →
    ipcOp S.ipc op = some (s', .returned error) → s'.handler = S.ipc.handler
  later : ∀ t c old h active, S.ipc.state t = .running → S.ipc.conn c = some ⟨old, some h⟩ →
    S.ipc.handler h = some ⟨false, active⟩ → ∀ env,
    ∃ s', ipcOp S.ipc (.ipcCall t c false 0 env) = some (s', .served t h)

theorem IpcInv.enters {S : IpcSys} (inv : IpcInv S) {t c h : Nat} (runs : S.ipc.state t = .running)
    (object : S.ipc.conn c = some ⟨old, some h⟩) (free : S.ipc.handler h = some ⟨false, active⟩)
    (env : SendCapEnv) : ∃ s', ipcOp S.ipc (.ipcCall t c false 0 env) = some (s', .served t h) := by
  have off := inv.jobs.passive (.inl (by simp [free])) (inv.idle free)
  refine ⟨threadMigrateToServer S.ipc t c h ⟨old, some h⟩, ?_⟩
  simp [ipcOp, IpcOp.thread, runs, sysIpcCall, object, ipcEnter, free, off]

/-- In every run of calls, cap transfers and returns whose transfers meet no error once the lock is
taken, the lock is held exactly while a call is served. -/
theorem ipc_lock_discipline (s : Ipc) (quiet : Quiet s)
    (unlocked : ∀ h cfg, s.handler h = some cfg → cfg.ipcLock = false)
    (cleared : ∀ h cfg, s.handler h = some cfg → cfg.activeConn = none) (ops : List IpcOp)
    (calls : ∀ op ∈ ops, op.isCall = true)
    (meets : RunMeets ipcStep TransfersOk (some ⟨s, []⟩) ops) :
    ∀ S ∈ ops.foldl ipcStep (some ⟨s, []⟩), LockDiscipline S := by
  have start : ∀ T ∈ some (⟨s, []⟩ : IpcSys), IpcInv T ∧ LocksServe T := by
    intro T here
    cases here
    refine ⟨quiet.inv, ?_⟩
    intro h cfg config held
    rw [unlocked h cfg config, cleared h cfg config] at held
    simp at held
  have keep : ∀ S op, (∀ T ∈ S, IpcInv T ∧ LocksServe T) →
      (op.isCall = true ∧ TransfersOk S op) → ∀ T ∈ ipcStep S op, IpcInv T ∧ LocksServe T := by
    intro S op inv cond T after
    obtain ⟨before, here, done⟩ := bind_eq_some_iff.mp after
    obtain ⟨⟨s', e⟩, made, rfl⟩ := map_eq_some_iff.mp done
    subst here
    obtain ⟨ok, locks⟩ := inv before rfl
    have idle : NamesIdle (some before) op := by
      cases op with
      | registerCbReturn r h garbage flexIpc => cases cond.1
      | _ => trivial
    exact ⟨ok.step idle made, locks.step ok cond.1 cond.2 made⟩
  intro S reached
  obtain ⟨inv, locks⟩ := run_invariant ipcStep (fun S op => op.isCall = true ∧ TransfersOk S op)
    (fun S => ∀ T ∈ S, IpcInv T ∧ LocksServe T) keep ops _ start (meets.and_forall calls) S reached
  refine ⟨locks.exact inv, ?_, fun t c old h active runs object free env =>
    inv.enters runs object free env⟩
  intro op s' error _ fine made
  obtain ⟨_, done⟩ := ipcOp_done made
  cases done with
  | refused _ c _ refused => exact fine.kept refused

def exampleBound : Ipc :=
  { exampleIpc with
    conn := fun c => if c = 100 then some ⟨none, some 20⟩ else none
    handler := fun h => if h = 20 then some ⟨false, none⟩ else none }

theorem exampleBound_config {h : Nat} {cfg : HandlerConfig}
    (config : exampleBound.handler h = some cfg) : h = 20 ∧ cfg = ⟨false, none⟩ := by
  by_cases this : h = 20
  · subst this
    exact ⟨rfl, (Option.some.inj config).symm⟩
  · simp [exampleBound, this] at config

theorem exampleBound_quiet : Quiet exampleBound where
  nobodyWaits := exampleIpc_quiet.nobodyWaits
  passive := by
    intro w works
    have server : w = 10 ∨ w = 20 := by
      by_contra other
      simp only [not_or] at other
      simp [Worker, exampleBound, exampleIpc, other] at works
    simp [exampleBound, exampleIpc, server]
  roles := by
    intro w
    by_cases this : w = 20
    · exact .inr (by simp [exampleBound, exampleIpc, this])
    · exact .inl (by simp [exampleBound, this])

/-- Two clients: a call with capabilities, one that has to try again, a return, and a call of the
other client. -/
theorem ipc_lock_discipline_two_clients :
    (([.ipcCall 1 100 true 2 ⟨0, true, 0, 0⟩, .ipcCall 2 100 true 9 ⟨0, true, 0, 0⟩,
        .ipcReturn 20 5 true, .ipcSendCap 2 100 3] : List IpcOp).foldl ipcStep
      (some ⟨exampleBound, []⟩)).map (fun S => S.jobs) = some [(2, 20)] ∧
    ∀ S ∈ ([.ipcCall 1 100 true 2 ⟨0, true, 0, 0⟩, .ipcCall 2 100 true 9 ⟨0, true, 0, 0⟩,
        .ipcReturn 20 5 true, .ipcSendCap 2 100 3] : List IpcOp).foldl ipcStep
      (some ⟨exampleBound, []⟩), LockDiscipline S := by
  refine ⟨by decide, ?_⟩
  apply ipc_lock_discipline exampleBound exampleBound_quiet
  · intro h cfg config
    rw [(exampleBound_config config).2]
  · intro h cfg config
    rw [(exampleBound_config config).2]
  · decide
  · decide

/-- A call with eight capabilities returns -EINVAL and keeps the lock: no later call gets in. -/
theorem lock_kept_after_error : ∃ s', ipcOp exampleBound (.ipcCall 1 100 true 8 ⟨0, true, 0, 0⟩) =
        some (s', .returned (-eINVAL)) ∧
      s'.handler 20 = some ⟨true, none⟩ ∧ s'.state 1 = .running ∧
      ipcOp s' (.ipcCall 2 100 false 0 ⟨0, true, 0, 0⟩) = some (s', .returned (-eAGAIN)) ∧
      ¬ LockExact s' := by
  refine ⟨_, rfl, rfl, rfl, rfl, ?_⟩
  intro locks
  obtain ⟨c, conn, t, active, _⟩ := (locks 20 ⟨true, none⟩ rfl).mp rfl
  cases active

end KernelLabs.ChCore
