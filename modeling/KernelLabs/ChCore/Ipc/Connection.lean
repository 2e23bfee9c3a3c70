import KernelLabs.Lib.Handoff
import KernelLabs.ChCore.Object.SlotTable

/-!
# IPC connections

Model of `kernel/ipc/connection.c`: registration of clients and handler threads, `sys_ipc_call`,
`sys_ipc_send_cap` and `sys_ipc_return`, each as one atomic step.  Threads, connections and the
memory of configs are numbers.  What the environment decides (the results of `kmalloc`, of the
copies from and to user memory and of `cap_copy`, the old contents of memory) is part of a call.
A step is `none` if the caller is not running, if a `BUG_ON` fires, a NULL pointer is read, or the
wait for the kernel stack of a thread that runs does not end.

A thread that serves, and waits for the next request, is off the CPU and in no queue; it is
`passive` here, whatever its `state` field says.
-/

set_option autoImplicit false

namespace KernelLabs.ChCore

open Lib Function

def eAGAIN : Int := 11

def eINVAL : Int := 22

structure IpcConnection where
  currentClientThread : Option Nat
  serverHandlerThread : Option Nat
  deriving DecidableEq, Repr

structure HandlerConfig where
  ipcLock : Bool
  activeConn : Option Nat
  deriving DecidableEq, Repr

structure RegisterCbConfig where
  registerLock : Bool
  connInServer : Option Nat
  deriving DecidableEq, Repr

/-- The connections, the configs of handler threads and of register_cb threads, and of each thread
the state and the value it is resumed with. -/
structure Ipc where
  conn : Nat → Option IpcConnection
  handler : Nat → Option HandlerConfig
  register : Nat → Option RegisterCbConfig
  state : Nat → Control
  ret : Nat → Int

/-- A step returned to its caller, let a handler serve it, resumed the client of a handler, let a
register_cb thread work for the caller, or finished a registration. -/
inductive IpcEvent where
  | returned (r : Int)
  | served (client handler : Nat)
  | resumed (client handler : Nat) (ret : Int)
  | asked (client registrar : Nat)
  | registered (client registrar : Nat)
  deriving DecidableEq, Repr

def maxCapTransfer : Nat := 8

structure SendCapEnv where
  offsetCopy : Int
  capBuf : Bool
  slotsCopy : Int
  backCopy : Int
  deriving DecidableEq, Repr

/-- What `ipc_send_cap` returns; `dest_cap` is unsigned, so a failed `cap_copy` is not seen. -/
def ipcSendCap (capNum : Nat) (env : SendCapEnv) : Int :=
  if capNum = 0 then 0
  else if maxCapTransfer ≤ capNum then -eINVAL
  else if env.offsetCopy < 0 then env.offsetCopy
  else if env.capBuf = false then -eNOMEM
  else if env.slotsCopy < 0 then env.slotsCopy
  else if env.backCopy < 0 then env.backCopy
  else 0

def Ipc.setLock (s : Ipc) (h : Nat) (cfg : HandlerConfig) (held : Bool) : Ipc :=
  { s with handler := update s.handler h (some { cfg with ipcLock := held }) }

def threadMigrateToServer (s : Ipc) (t c h : Nat) (conn : IpcConnection) : Ipc :=
  { s with
    handler := update s.handler h (some { ipcLock := true, activeConn := some c })
    conn := update s.conn c (some { conn with currentClientThread := some t })
    state := handTo s.state t h }

/-- From `grab_ipc_lock` to the migration, for a transfer of capabilities that returns `r`.  On an
error of the transfer the lock stays as it is. -/
def ipcEnter (s : Ipc) (t c : Nat) (conn : IpcConnection) (r : Int) : Option (Ipc × IpcEvent) :=
  match conn.serverHandlerThread with
  | none => none
  | some h =>
    match s.handler h with
    | none => none
    | some cfg =>
      if cfg.ipcLock then some (s, .returned (-eAGAIN))
      else if s.state h = .running then none
      else if r < 0 then some (s.setLock h cfg true, .returned r)
      else some (threadMigrateToServer s t c h conn, .served t h)

/-- `sys_ipc_call`; `msg` says that `ipc_msg_in_client` is not NULL. -/
def sysIpcCall (s : Ipc) (t c : Nat) (msg : Bool) (capNum : Nat) (env : SendCapEnv) :
    Option (Ipc × IpcEvent) :=
  match s.conn c with
  | none => none
  | some conn => ipcEnter s t c conn (if msg then ipcSendCap capNum env else 0)

/-- `sys_ipc_send_cap`; `cap` is what `cap_copy` returns in `transfer_cap`. -/
def sysIpcSendCap (s : Ipc) (t c : Nat) (cap : Int) : Option (Ipc × IpcEvent) :=
  match s.conn c with
  | none => some (s, .returned (-eCAPBILITY))
  | some conn => ipcEnter s t c conn cap

/-- `thread_migrate_to_client`, after `active_conn` was reset and the lock released. -/
def threadMigrateToClient (s : Ipc) (client h : Nat) (ret : Int) : Ipc :=
  { s with
    handler := update s.handler h (some { ipcLock := false, activeConn := none })
    state := handBack s.state client h
    ret := update s.ret client ret }

/-- `sys_ipc_return`; `sent` says that no `BUG_ON` of `ipc_send_cap_to_client` fires. -/
def sysIpcReturn (s : Ipc) (h : Nat) (ret : Int) (sent : Bool) : Option (Ipc × IpcEvent) :=
  match s.handler h with
  | none => none
  | some cfg =>
    match cfg.activeConn.bind s.conn with
    | none => none
    | some conn =>
      match conn.currentClientThread with
      | none => none
      | some client =>
        if sent = false then none
        else some (threadMigrateToClient s client h ret, .resumed client h ret)

/-- The data once the register_cb thread `r` works for `t`, on the new connection `c`. -/
def Ipc.ask (s : Ipc) (t r c : Nat) : Ipc :=
  { s with
    conn := update s.conn c
      (some { currentClientThread := some t, serverHandlerThread := none })
    register := update s.register r (some { registerLock := true, connInServer := some c })
    state := handTo s.state t r }

/-- `sys_register_client` for the register_cb thread `r` of the server, with a new connection
object `c`. -/
def sysRegisterClient (s : Ipc) (t r c : Nat) : Option (Ipc × IpcEvent) :=
  match s.register r with
  | none => some (s, .returned (-eAGAIN))
  | some cfg =>
    if cfg.registerLock then some (s, .returned (-eAGAIN))
    else if s.state r = .running then none
    else if s.conn c ≠ none then none
    else some (s.ask t r c, .asked t r)

/-- `r` has bound the connection `c` of `client` to the handler thread `h`; the new config keeps in
`active_conn` what the memory held before.  With `flex_ipc` the handler is enqueued at once. -/
def Ipc.bindHandler (s : Ipc) (client r h c : Nat) (garbage : Option Nat) (flexIpc : Bool) : Ipc :=
  { s with
    conn := update s.conn c
      (some { currentClientThread := none, serverHandlerThread := some h })
    handler := update s.handler h (some { ipcLock := false, activeConn := garbage })
    register := update s.register r (some { registerLock := false, connInServer := some c })
    state := let state := handBack s.state client r
      if flexIpc then update state h .running else state
    ret := update s.ret client c }

/-- `sys_ipc_register_cb_return` by the register_cb thread `r` with the handler thread `h`. -/
def sysIpcRegisterCbReturn (s : Ipc) (r h : Nat) (garbage : Option Nat) (flexIpc : Bool) :
    Option (Ipc × IpcEvent) :=
  match s.register r with
  | none => none
  | some cfg =>
    match cfg.connInServer with
    | none => none
    | some c =>
      match (s.conn c).bind (·.currentClientThread) with
      | none => none
      | some client => some (s.bindHandler client r h c garbage flexIpc, .registered client r)

inductive IpcOp where
  | registerClient (t r c : Nat)
  | registerCbReturn (r h : Nat) (garbage : Option Nat) (flexIpc : Bool)
  | ipcCall (t c : Nat) (msg : Bool) (capNum : Nat) (env : SendCapEnv)
  | ipcSendCap (t c : Nat) (cap : Int)
  | ipcReturn (h : Nat) (ret : Int) (sent : Bool)
  deriving DecidableEq, Repr

def IpcOp.thread : IpcOp → Nat
  | .registerClient t _ _ => t
  | .registerCbReturn r _ _ _ => r
  | .ipcCall t _ _ _ _ => t
  | .ipcSendCap t _ _ => t
  | .ipcReturn h _ _ => h

def ipcOp (s : Ipc) (op : IpcOp) : Option (Ipc × IpcEvent) :=
  if s.state op.thread = .running then
    match op with
    | .registerClient t r c => sysRegisterClient s t r c
    | .registerCbReturn r h garbage flexIpc => sysIpcRegisterCbReturn s r h garbage flexIpc
    | .ipcCall t c msg capNum env => sysIpcCall s t c msg capNum env
    | .ipcSendCap t c cap => sysIpcSendCap s t c cap
    | .ipcReturn h ret sent => sysIpcReturn s h ret sent
  else none

/-! ## What the steps can do -/

section Cases
variable {s s' : Ipc} {t c h r : Nat} {e : IpcEvent}

structure Entered (s s' : Ipc) (t c h : Nat) : Prop where
  conn : ∃ old, s.conn c = some ⟨old, some h⟩
  free : ∃ active, s.handler h = some ⟨false, active⟩
  off : s.state h ≠ .running
  conns : s'.conn = update s.conn c (some ⟨some t, some h⟩)
  handlers : s'.handler = update s.handler h (some ⟨true, some c⟩)
  registers : s'.register = s.register
  states : s'.state = handTo s.state t h

structure Refused (s s' : Ipc) (c : Nat) (leak : Prop) : Prop where
  conns : s'.conn = s.conn
  registers : s'.register = s.register
  states : s'.state = s.state
  handlers : s'.handler = s.handler ∨
    (leak ∧ ∃ h old active, s.conn c = some ⟨old, some h⟩ ∧ s.handler h = some ⟨false, active⟩ ∧
      s'.handler = update s.handler h (some ⟨true, active⟩))

variable {conn : IpcConnection} {result : Int}

theorem ipcEnter_cases (known : s.conn c = some conn)
    (done : ipcEnter s t c conn result = some (s', e)) :
    (∃ error, e = .returned error ∧ Refused s s' c (result < 0)) ∨
      ∃ h, e = .served t h ∧ Entered s s' t c h := by
  obtain ⟨client, server⟩ := conn
  rcases server with _ | h
  · simp [ipcEnter] at done
  rcases config : s.handler h with _ | ⟨lock, active⟩
  · simp [ipcEnter, config] at done
  simp only [ipcEnter, config] at done
  cases lock with
  | true =>
    cases done
    exact .inl ⟨_, rfl, rfl, rfl, rfl, .inl rfl⟩
  | false =>
    rw [if_neg (by simp)] at done
    obtain ⟨running, done⟩ := Option.ite_none_left_eq_some.mp done
    by_cases failed : result < 0
    · rw [if_pos failed] at done
      cases done
      exact .inl ⟨_, rfl, rfl, rfl, rfl, .inr ⟨failed, h, client, active, known, config, rfl⟩⟩
    · rw [if_neg failed] at done
      cases done
      exact .inr ⟨h, rfl, ⟨client, known⟩, ⟨active, config⟩, running, rfl, rfl, rfl, rfl⟩

def TransferFails : IpcOp → Nat → Prop
  | .ipcCall _ c msg capNum env, c' => c' = c ∧ msg = true ∧ ipcSendCap capNum env < 0
  | .ipcSendCap _ c cap, c' => c' = c ∧ cap < 0
  | _, _ => False

inductive IpcDone (s : Ipc) (op : IpcOp) : Ipc → IpcEvent → Prop
  | refused (error : Int) (c : Nat) (s' : Ipc) (refused : Refused s s' c (TransferFails op c)) :
      IpcDone s op s' (.returned error)
  | entered (c h : Nat) (s' : Ipc) (entered : Entered s s' op.thread c h) :
      IpcDone s op s' (.served op.thread h)
  | resumed (h : Nat) (ret : Int) (sent lock : Bool) (c client : Nat) (server : Option Nat)
      (this : op = .ipcReturn h ret sent) (active : s.handler h = some ⟨lock, some c⟩)
      (object : s.conn c = some ⟨some client, server⟩) :
      IpcDone s op (threadMigrateToClient s client h ret) (.resumed client h ret)
  | asked (t r c : Nat) (old : Option Nat) (this : op = .registerClient t r c)
      (free : s.register r = some ⟨false, old⟩) (fresh : s.conn c = none) :
      IpcDone s op (s.ask t r c) (.asked t r)
  | registered (r h : Nat) (garbage : Option Nat) (flexIpc lock : Bool) (c client : Nat)
      (server : Option Nat) (this : op = .registerCbReturn r h garbage flexIpc)
      (active : s.register r = some ⟨lock, some c⟩)
      (object : s.conn c = some ⟨some client, server⟩) :
      IpcDone s op (s.bindHandler client r h c garbage flexIpc) (.registered client r)

theorem sysIpcReturn_done {ret : Int} {sent : Bool}
    (done : sysIpcReturn s h ret sent = some (s', e)) : IpcDone s (.ipcReturn h ret sent) s' e := by
  rcases config : s.handler h with _ | ⟨lock, active⟩
  · simp [sysIpcReturn, config] at done
  rcases active with _ | c
  · simp [sysIpcReturn, config] at done
  rcases object : s.conn c with _ | ⟨client, server⟩
  · simp [sysIpcReturn, config, object] at done
  rcases client with _ | client
  · simp [sysIpcReturn, config, object] at done
  simp only [sysIpcReturn, config, Option.bind_some, object] at done
  obtain ⟨_, done⟩ := Option.ite_none_left_eq_some.mp done
  cases done
  exact .resumed h ret sent lock c client server rfl config object

theorem sysRegisterClient_done (done : sysRegisterClient s t r c = some (s', e)) :
    IpcDone s (.registerClient t r c) s' e := by
  have unchanged : IpcDone s (.registerClient t r c) s (.returned (-eAGAIN)) :=
    .refused _ c s ⟨rfl, rfl, rfl, .inl rfl⟩
  cases config : s.register r with
  | none =>
    simp only [sysRegisterClient, config] at done
    cases done
    exact unchanged
  | some cfg =>
    obtain ⟨lock, old⟩ := cfg
    simp only [sysRegisterClient, config] at done
    cases lock with
    | true =>
      cases done
      exact unchanged
    | false =>
      rw [if_neg (by simp)] at done
      by_cases running : s.state r = .running
      · rw [if_pos running] at done
        cases done
      by_cases used : s.conn c ≠ none
      · rw [if_neg running, if_pos used] at done
        cases done
      · rw [if_neg running, if_neg used] at done
        cases done
        exact .asked t r c old rfl config (not_not.mp used)

theorem sysIpcRegisterCbReturn_done {garbage : Option Nat} {flexIpc : Bool}
    (done : sysIpcRegisterCbReturn s r h garbage flexIpc = some (s', e)) :
    IpcDone s (.registerCbReturn r h garbage flexIpc) s' e := by
  rcases config : s.register r with _ | ⟨lock, building⟩
  · simp [sysIpcRegisterCbReturn, config] at done
  rcases building with _ | c
  · simp [sysIpcRegisterCbReturn, config] at done
  rcases object : s.conn c with _ | ⟨client, server⟩
  · simp [sysIpcRegisterCbReturn, config, object] at done
  cases client with
  | none => simp [sysIpcRegisterCbReturn, config, object] at done
  | some client =>
    simp only [sysIpcRegisterCbReturn, config, object, Option.bind_some] at done
    cases done
    exact .registered r h garbage flexIpc lock c client server rfl config object

variable {op : IpcOp}

theorem ipcEnter_done (known : s.conn c = some conn) (fails : result < 0 → TransferFails op c)
    (done : ipcEnter s op.thread c conn result = some (s', e)) : IpcDone s op s' e := by
  rcases ipcEnter_cases known done with ⟨error, rfl, refused⟩ | ⟨h, rfl, entered⟩
  · refine .refused error c s' { refused with handlers := ?_ }
    rcases refused.handlers with same | ⟨failed, rest⟩
    · exact .inl same
    · exact .inr ⟨fails failed, rest⟩
  · exact .entered c h s' entered

theorem ipcOp_done (done : ipcOp s op = some (s', e)) :
    s.state op.thread = .running ∧ IpcDone s op s' e := by
  unfold ipcOp at done
  obtain ⟨runs, done⟩ := Option.ite_none_right_eq_some.mp done
  refine ⟨runs, ?_⟩
  cases op with
  | registerClient t r c => exact sysRegisterClient_done done
  | registerCbReturn r h garbage flexIpc => exact sysIpcRegisterCbReturn_done done
  | ipcCall t c msg capNum env =>
    rcases known : s.conn c with _ | conn
    · simp [sysIpcCall, known] at done
    simp only [sysIpcCall, known] at done
    refine ipcEnter_done known ?_ done
    intro failed
    cases msg with
    | false => simp at failed
    | true => exact ⟨rfl, rfl, by simpa using failed⟩
  | ipcSendCap t c cap =>
    cases known : s.conn c with
    | none =>
      simp only [sysIpcSendCap, known] at done
      cases done
      exact .refused _ c s ⟨rfl, rfl, rfl, .inl rfl⟩
    | some conn =>
      simp only [sysIpcSendCap, known] at done
      exact ipcEnter_done known (fun failed => ⟨rfl, failed⟩) done
  | ipcReturn h ret sent => exact sysIpcReturn_done done

end Cases

end KernelLabs.ChCore
