import KernelLabs.Lib.Refs
import KernelLabs.ChCore.Ipc.Notification
import KernelLabs.ChCore.Ipc.SendCap
import KernelLabs.ChCore.Mm.Uaccess

/-!
# The references a system call takes

Model of nine system calls of `kernel/ipc`, `kernel/object/thread.c` and `kernel/object/memory.c`
as programs over `obj_get` and `obj_put`.  Everything else a call does is kept as far as it decides
which of the two is called next.  What the environment decides is part of a call: what each
`obj_get` finds (the slot tables may change between two of them), the results of allocations, of
`cap_alloc` and of `cap_copy`, the state of locks, what is read from user memory.  `cap_copy`,
`cap_alloc` and `obj_free` count references too, but not through `obj_get` and `obj_put`.

A call that fails a `BUG_ON` or reads through a NULL pointer stops.  A call that ends in
`eret_to_thread(switch_context())` leaves: its thread is resumed in user mode, by a signal, a
timeout, the return of a server or the scheduler, none of which puts a reference for it.
-/

set_option autoImplicit false

namespace KernelLabs.ChCore.Refs

open Lib RefProg

def typeCapGroup : Nat := 0

def typeConnection : Nat := 2

def typeNotification : Nat := 3

def typePmo : Nat := 5

def typeVmspace : Nat := 6

def capGroupObjId : Int := 0

def vmspaceObjId : Int := 1

def ePERM : Int := 1

/-- What `obj_get` finds, at one moment, under a slot id for a type. -/
abbrev Look := Int → Nat → Option Nat

abbrev Call := RefProg Nat

def objGet (look : Look) (slotId : Int) (type : Nat) : Call (Option Nat) :=
  get (look slotId type)

def objPut (p : Option Nat) : Call Unit := put p

def bugOn (b : Bool) : Call Unit := stopIf b

/-- `eret_to_thread(switch_context())`, to another thread. -/
def eretToThread : Call Int := leave

/-! ## User memory -/

/-- What `transform_vaddr` finds at an address; `mapped` says that no `BUG_ON` after the look-up of
the vmspace fires. -/
structure PageEnv where
  vmspace : Look
  mapped : Bool

def transformVaddr (env : PageEnv) : Call Unit := do
  let vmspace ← objGet env.vmspace vmspaceObjId typeVmspace
  -- `lock(&vmspace->vmspace_lock)`
  bugOn vmspace.isNone
  bugOn (!env.mapped)
  objPut vmspace

inductive UserMem where
  | aarch64
  | x86 (page : Nat → PageEnv)

def pageRefs (page : Nat → PageEnv) (trace : List (RefEvent Nat)) (userBuf _off _len : Nat) :
    Option (List (RefEvent Nat)) :=
  match (transformVaddr (page userBuf)).result with
  | .ok _ => some (trace ++ (transformVaddr (page userBuf)).trace)
  | .error _ => none

/-- The common part of `copy_from_user` and `copy_to_user`, which return 0 or not at all. -/
def userCopy (mem : UserMem) (userBuf size : Nat) : Call Int :=
  match mem with
  | .aarch64 => if kbase ≤ userBuf then stop else pure 0
  | .x86 page =>
    match copyUser (pageRefs page) [] userBuf size with
    | none => stop
    | some trace => ⟨trace, .ok 0⟩

def copyFromUser (mem : UserMem) (userBuf size : Nat) : Call Int := userCopy mem userBuf size

def copyToUser (mem : UserMem) (userBuf size : Nat) : Call Int := userCopy mem userBuf size

/-! ## Connections -/

structure MapEnv where
  pmo : Look
  vmspace : Look
  mapped : Bool

def mapPmoInCurrentCapGroup (env : MapEnv) (pmoCap : Int) : Call Int := do
  let pmo ← objGet env.pmo pmoCap typePmo
  if pmo.isNone then pure (-eCAPBILITY)
  else do
    let vmspace ← objGet env.vmspace vmspaceObjId typeVmspace
    bugOn vmspace.isNone
    objPut vmspace
    objPut pmo
    pure (if env.mapped then 0 else -ePERM)

/-- Results of `obj_alloc`, `cap_alloc` and the second `cap_copy` of `client_connection`; the
result of the first one is not looked at. -/
structure ConnectionEnv where
  pmo : Look
  connOk : Bool
  connCap : Int
  serverConnCap : Int

def clientConnection (env : ConnectionEnv) (shmCapClient : Int) : Call Int := do
  let pmo ← objGet env.pmo shmCapClient typePmo
  bugOn pmo.isNone
  if env.connOk = false then do
    objPut pmo
    pure (-eNOMEM)
  else if env.connCap < 0 then do
    objPut pmo
    pure env.connCap
  else if env.serverConnCap < 0 then do
    objPut pmo
    pure env.serverConnCap
  else pure 0

/-- `config` is the config of the server's register_cb thread, `none` if the server has not
registered; `shmCap` is read from user memory. -/
structure RegisterEnv where
  server : Look
  config : Option RegisterCbConfig
  mem : UserMem
  shmCap : Int
  map : MapEnv
  connection : ConnectionEnv

def sizeofShmConfig : Nat := 16

def sysRegisterClient (env : RegisterEnv) (serverCap : BitVec 32) (shmConfigPtr : Nat) :
    Call Int := do
  let server ← objGet env.server serverCap.toInt typeThread
  if server.isNone then do
    objPut server
    pure (-eCAPBILITY)
  else
    match env.config with
    | none => do
      objPut server
      pure (-eAGAIN)
    | some config =>
      if config.registerLock then do
        objPut server
        pure (-eAGAIN)
      else do
        let r ← copyFromUser env.mem shmConfigPtr sizeofShmConfig
        bugOn (decide (r ≠ 0))
        let r ← mapPmoInCurrentCapGroup env.map env.shmCap
        bugOn (decide (r ≠ 0))
        let r ← clientConnection env.connection env.shmCap
        bugOn (decide (r ≠ 0))
        objPut server
        eretToThread

/-- `grab_ipc_lock`; `config` is the config of the connection's handler thread, `none` if there is
no handler yet. -/
def grabIpcLock (config : Option HandlerConfig) : Call Int :=
  match config with
  | none => stop
  | some config => pure (if config.ipcLock then -eAGAIN else 0)

def threadMigrateToServer (conn : Option Nat) : Call Int := do
  objPut conn
  eretToThread

/-- User memory at the three copies of `ipc_send_cap`, the offset that the first one reads, and
whether `cap_buf` is allocated. -/
structure SendEnv where
  offsetMem : UserMem
  capSlotsOffset : Nat
  bufOk : Bool
  readMem : UserMem
  writeMem : UserMem

def capSlotsOffsetField : Nat := 32

/-- `ipc_send_cap` on a connection whose handler thread has the config `config`; `dest_cap < 0` is
not true of any `u64`. -/
def ipcSendCap (env : SendEnv) (config : Option HandlerConfig) (ipcMsg capNum : Nat) : Call Int :=
  if capNum = 0 then pure 0
  else if maxCapTransfer ≤ capNum then pure (-eINVAL)
  else do
    let r ← copyFromUser env.offsetMem (addU64 ipcMsg capSlotsOffsetField) 8
    if r < 0 then pure r
    else if env.bufOk = false then pure (-eNOMEM)
    else do
      let r ← copyFromUser env.readMem (addU64 ipcMsg env.capSlotsOffset) (8 * capNum)
      if r < 0 then pure r
      else do
        -- `conn->server_handler_thread->cap_group`
        bugOn config.isNone
        let r ← copyToUser env.writeMem (addU64 ipcMsg env.capSlotsOffset) (8 * capNum)
        if r < 0 then pure r else pure 0

structure CallEnv where
  conn : Look
  config : Option HandlerConfig
  send : SendEnv

def sysIpcCall (env : CallEnv) (connCap : BitVec 32) (ipcMsgInClient capNum : Nat) :
    Call Int := do
  let conn ← objGet env.conn connCap.toInt typeConnection
  bugOn conn.isNone
  let r ← grabIpcLock env.config
  if r ≠ 0 then do
    objPut conn
    pure r
  else if ipcMsgInClient = 0 then threadMigrateToServer conn
  else if capNum ≠ 0 then do
    let r ← ipcSendCap env.send env.config ipcMsgInClient capNum
    if r < 0 then do
      objPut conn
      pure r
    else threadMigrateToServer conn
  else threadMigrateToServer conn

def sysFlexIpcSendCap (env : CallEnv) (connCap : BitVec 32) (ipcMsgInClient capNum : Nat) :
    Call Int := do
  let conn ← objGet env.conn connCap.toInt typeConnection
  bugOn conn.isNone
  -- the `obj_put(conn)` at the end is a comment
  if capNum ≠ 0 then ipcSendCap env.send env.config ipcMsgInClient capNum else pure 0

/-- `transfer_cap`; `cap` is what `cap_copy` returns. -/
def transferCap (cap : Int) (conn : Option Nat) : Call Int :=
  if cap < 0 then pure cap else threadMigrateToServer conn

structure SendCapEnv where
  conn : Look
  config : Option HandlerConfig
  cap : Int

def sysIpcSendCap (env : SendCapEnv) (connCap : BitVec 32) : Call Int := do
  let conn ← objGet env.conn connCap.toInt typeConnection
  if conn.isNone then pure (-eCAPBILITY)
  else do
    let r ← grabIpcLock env.config
    if r ≠ 0 then pure r else transferCap env.cap conn

/-- The two caps stand in the config of the caller, `hasClient` says that `current_client_thread` of
the connection is set, `configOk` that `kmalloc` does not fail. -/
structure CbReturnEnv where
  connCapInServer : Int
  shmCapInServer : Int
  conn : Look
  hasClient : Bool
  handler : Look
  configOk : Bool
  map : MapEnv

def sysIpcRegisterCbReturn (env : CbReturnEnv) (serverHandlerThreadCap : Word) : Call Int := do
  let conn ← objGet env.conn env.connCapInServer typeConnection
  bugOn conn.isNone
  -- `arch_set_thread_return(client_thread, ...)`
  bugOn (!env.hasClient)
  let handler ← objGet env.handler (capId serverHandlerThreadCap) typeThread
  bugOn handler.isNone
  -- `lock_init(&handler_config->ipc_lock)`
  bugOn (!env.configOk)
  objPut handler
  let r ← mapPmoInCurrentCapGroup env.map env.shmCapInServer
  bugOn (decide (r ≠ 0))
  objPut conn
  eretToThread

/-! ## Notifications -/

/-- `wait_notific`; a timeout makes no difference to who puts the reference. -/
def waitNotific (notifc : Notific) (isBlock : Bool) : Call Int :=
  if 0 < notifc.notDelivered then pure 0
  else if isBlock then eretToThread
  else pure (-eAGAIN)

structure WaitEnv where
  notifc : Look
  mem : UserMem
  state : Notific

def sizeofTimespec : Nat := 16

/-- `sys_wait`; a `timeout` of 0 is NULL. -/
def sysWait (env : WaitEnv) (notifcCap : BitVec 32) (isBlock : Bool) (timeout : Nat) :
    Call Int := do
  let notifc ← objGet env.notifc notifcCap.toInt typeNotification
  if notifc.isNone then pure (-eCAPBILITY)
  else do
    let r ← if timeout ≠ 0 then copyFromUser env.mem timeout sizeofTimespec else pure 0
    if r ≠ 0 then do
      objPut notifc
      pure r
    else do
      let r ← waitNotific env.state isBlock
      objPut notifc
      pure r

/-- `signal_notific`; `fits` says that the affinity of the first waiting thread allows this CPU,
`queued` that no `BUG_ON` on the way to the queues and the sleep list fires. -/
def signalNotific (notifc : Notific) (fits queued enableDirectSwitch : Bool) : Call Int :=
  if 0 < notifc.notDelivered ∨ notifc.waitingCount = 0 then pure 0
  else do
    bugOn (!queued)
    if enableDirectSwitch && fits then eretToThread else pure 0

structure NotifyEnv where
  notifc : Look
  state : Notific
  fits : Bool
  queued : Bool

def sysNotify (env : NotifyEnv) (notifcCap : BitVec 32) : Call Int := do
  let notifc ← objGet env.notifc notifcCap.toInt typeNotification
  if notifc.isNone then pure (-eCAPBILITY)
  else do
    let r ← signalNotific env.state env.fits env.queued true
    objPut notifc
    pure r

/-! ## Threads -/

/-- The two look-ups are in the new thread's cap_group. -/
structure ThreadInitEnv where
  capGroup : Look
  vmspace : Look
  ctxOk : Bool

def threadInit (env : ThreadInitEnv) : Call Int := do
  let capGroup ← objGet env.capGroup capGroupObjId typeCapGroup
  let vmspace ← objGet env.vmspace vmspaceObjId typeVmspace
  objPut capGroup
  objPut vmspace
  pure (if env.ctxOk then 0 else -eNOMEM)

/-- `cap` is the result of `cap_alloc`, `capCopied` that of `cap_copy`; `queued` says that
`sched_enqueue` takes the thread. -/
structure CreateEnv where
  threadOk : Bool
  init : ThreadInitEnv
  cap : Int
  capCopied : Int
  queued : Bool

/-- `create_thread`; `user` says that the type is `TYPE_USER`. -/
def createThread (env : CreateEnv) (capGroup : Option Nat) (user : Bool) : Call Int :=
  if capGroup.isNone then pure (-eCAPBILITY)
  else if env.threadOk = false then do
    objPut capGroup
    pure (-eNOMEM)
  else do
    let ret ← threadInit env.init
    if ret ≠ 0 then do
      objPut capGroup
      pure ret
    else if env.cap < 0 then do
      objPut capGroup
      pure env.cap
    else do
      bugOn (user && !env.queued)
      pure env.capCopied

/-- `capGroupCap` and `isShadow` are read from user memory. -/
structure CreateThreadEnv where
  mem : UserMem
  capGroupCap : Word
  isShadow : Bool
  capGroup : Look
  create : CreateEnv

def sizeofThreadArgs : Nat := 56

def sysCreateThread (env : CreateThreadEnv) (threadArgsP : Nat) : Call Int := do
  let r ← copyFromUser env.mem threadArgsP sizeofThreadArgs
  bugOn (decide (r ≠ 0))
  let capGroup ← objGet env.capGroup (capId env.capGroupCap) typeCapGroup
  let threadCap ← createThread env.create capGroup (!env.isShadow)
  objPut capGroup
  pure threadCap

/-! ## Memory -/

/-- `start` is `user_current_mmap_addr` of the vmspace, `added` the result of
`add_vmr_to_vmspace`. -/
structure FmapEnv where
  aarrayPmo : Look
  pmoType : PmoType
  vmspace : Look
  vmrOk : Bool
  start : Int
  added : Int

def vmspaceMmapWithPmo (env : FmapEnv) (vmspace : Option Nat) (len : Nat) : Call Int :=
  if env.vmrOk = false then pure (-1)
  else do
    -- `lock(&vmspace->vmspace_lock)`
    bugOn vmspace.isNone
    bugOn (decide (len % pageSize ≠ 0))
    bugOn (decide (env.pmoType ∉ [.anonym, .shm, .file]))
    pure (if env.added < 0 then -1 else env.start)

def protCheckMask : BitVec 32 := ~~~7

def mapAnonymous : BitVec 32 := 0x20

def fmapRefused (length : Nat) (prot flags : BitVec 32) (translatedAarrayCap : Int) : Bool :=
  translatedAarrayCap == 0 || prot &&& protCheckMask != 0 || flags &&& mapAnonymous != 0 ||
    length % pageSize != 0

/-- `sys_handle_fmap`; the address and the offset are not read. -/
def sysHandleFmap (env : FmapEnv) (length : Nat) (prot flags : BitVec 32)
    (translatedAarrayCap : Int) : Call Int :=
  if fmapRefused length prot flags translatedAarrayCap then pure (-eINVAL)
  else do
    let aarrayPmo ← objGet env.aarrayPmo translatedAarrayCap typePmo
    bugOn aarrayPmo.isNone
    let vmspace ← objGet env.vmspace vmspaceObjId typeVmspace
    let mapAddr ← vmspaceMmapWithPmo env vmspace length
    objPut vmspace
    pure mapAddr

/-! ## The calls -/

inductive SysCall where
  | registerClient (env : RegisterEnv) (serverCap : BitVec 32) (shmConfigPtr : Nat)
  | ipcCall (env : CallEnv) (connCap : BitVec 32) (ipcMsgInClient capNum : Nat)
  | ipcSendCap (env : SendCapEnv) (connCap : BitVec 32)
  | flexIpcSendCap (env : CallEnv) (connCap : BitVec 32) (ipcMsgInClient capNum : Nat)
  | ipcRegisterCbReturn (env : CbReturnEnv) (serverHandlerThreadCap : Word)
  | wait (env : WaitEnv) (notifcCap : BitVec 32) (isBlock : Bool) (timeout : Nat)
  | notify (env : NotifyEnv) (notifcCap : BitVec 32)
  | createThread (env : CreateThreadEnv) (threadArgsP : Nat)
  | handleFmap (env : FmapEnv) (length : Nat) (prot flags : BitVec 32) (translatedAarrayCap : Int)

def SysCall.run : SysCall → Call Int
  | .registerClient env serverCap shmConfigPtr => sysRegisterClient env serverCap shmConfigPtr
  | .ipcCall env connCap ipcMsgInClient capNum => sysIpcCall env connCap ipcMsgInClient capNum
  | .ipcSendCap env connCap => sysIpcSendCap env connCap
  | .flexIpcSendCap env connCap ipcMsgInClient capNum =>
    sysFlexIpcSendCap env connCap ipcMsgInClient capNum
  | .ipcRegisterCbReturn env serverHandlerThreadCap =>
    sysIpcRegisterCbReturn env serverHandlerThreadCap
  | .wait env notifcCap isBlock timeout => sysWait env notifcCap isBlock timeout
  | .notify env notifcCap => sysNotify env notifcCap
  | .createThread env threadArgsP => sysCreateThread env threadArgsP
  | .handleFmap env length prot flags translatedAarrayCap =>
    sysHandleFmap env length prot flags translatedAarrayCap

end KernelLabs.ChCore.Refs
