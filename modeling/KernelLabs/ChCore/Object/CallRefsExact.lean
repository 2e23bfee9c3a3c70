import KernelLabs.ChCore.Object.CallRefs
import Mathlib.Tactic.Abel

/-!
# Which system calls give back their references

Every call is settled by the rules for `Settles`: along a path the references that are owed are
known at each point, and the path ends in a return, in a switch to another thread or in a stop.
`sys_ipc_call` and `sys_ipc_register_cb_return` give back everything on every path.  The other
seven keep a reference, give back one too many or put NULL on some paths, and `GivesBack` says on
which paths they do not.
-/

set_option autoImplicit false

namespace KernelLabs.ChCore.Refs

open Lib Function List
open Lib.RefProg

/-! ## Checked look-ups -/

variable {condition : Prop} {o : Nat}

section Lookups
variable {α : Type} {known : List Nat} {owed : Nat → Int} {look : Look} {slotId : Int} {type : Nat}

/-- A look-up under `BUG_ON`: the call goes on with the object and owes it. -/
theorem settles_getOrBug (f : Option Nat → Call α) :
    (objGet look slotId type >>= fun p => bugOn p.isNone >>= fun _ => f p).Settles known owed ↔
      ∀ o, look slotId type = some o → (f (some o)).Settles (o :: known) (owed + oneRef o) := by
  rw [objGet]
  cases look slotId type with
  | none =>
    rw [settles_get_none, bugOn, settles_stopIf]
    refine ⟨fun _ o never => ?_, fun _ never => ?_⟩
    · cases never
    · cases never
  | some o =>
    rw [settles_get_some, bugOn, settles_stopIf]
    constructor
    · intro settles other same
      cases same
      exact settles rfl
    · intro settles _
      exact settles o rfl

/-- A look-up that fails with an error code, before anything is owed. -/
theorem settles_getOrReturn (error : Int) (f : Option Nat → Call Int) :
    (objGet look slotId type >>= fun p => if p.isNone then pure error else f p).Settles known 0 ↔
      ∀ o, look slotId type = some o → (f (some o)).Settles (o :: known) (0 + oneRef o) := by
  rw [objGet]
  rcases look slotId type with _ | o
  · rw [settles_get_none, if_pos Option.isNone_none, settles_pure]
    refine ⟨fun _ o never => ?_, fun _ => rfl⟩
    cases never
  rw [settles_get_some, if_neg (by simp)]
  constructor
  · intro settles other same
    cases same
    exact settles
  · intro settles
    exact settles o rfl

theorem forall_some_iff {found : Option Nat} {holds : Nat → Prop}
    (each : ∀ o, holds o ↔ condition) :
    (∀ o, found = some o → holds o) ↔ (found ≠ none → condition) := by
  constructor
  · intro all present
    obtain ⟨o, same⟩ := Option.ne_none_iff_exists'.mp present
    exact (each o).mp (all o same)
  · intro implies o same
    rw [same] at implies
    exact (each o).mpr (implies (Option.some_ne_none o))

end Lookups

/-! ## Copies from and to user memory -/

section Driver
variable {S : Type} {P : S → Prop} {page : S → Nat → Nat → Nat → Option S}

section
variable (keep : ∀ st ua off len st', P st → page st ua off len = some st' → P st')
include keep

theorem copyRest_keep {fuel : Nat} {st st' : S} {userBuf off leftSize : Nat} (start : P st)
    (run : copyRest page fuel st userBuf off leftSize = some st') : P st' := by
  induction fuel generalizing st userBuf off leftSize with
  | zero => cases run
  | succ fuel ih =>
    rw [copyRest] at run
    by_cases more : pageSize < leftSize
    · rw [if_pos more] at run
      obtain ⟨next, pageRun, restRun⟩ := Option.bind_eq_some_iff.mp run
      exact ih (keep _ _ _ _ _ start pageRun) restRun
    · rw [if_neg more] at run
      exact keep _ _ _ _ _ start run

theorem copyUser_keep {st st' : S} {userBuf size : Nat} (start : P st)
    (run : copyUser page st userBuf size = some st') : P st' := by
  rw [copyUser] at run
  obtain ⟨outside, run⟩ := Option.ite_none_left_eq_some.mp run
  by_cases one : size + userBuf % pageSize ≤ pageSize
  · simp only [if_pos one] at run
    exact keep _ _ _ _ _ start run
  · simp only [if_neg one] at run
    obtain ⟨next, pageRun, restRun⟩ := Option.bind_eq_some_iff.mp run
    obtain ⟨aligned, restRun⟩ := Option.ite_none_left_eq_some.mp restRun
    exact copyRest_keep keep (keep _ _ _ _ _ start pageRun) restRun

end

end Driver

/-- The copy does not come back: the address is not a user address, or a page of it is not there. -/
def UserMem.faults (mem : UserMem) (userBuf size : Nat) : Bool :=
  match mem with
  | .aarch64 => decide (kbase ≤ userBuf)
  | .x86 page => (copyUser (pageRefs page) [] userBuf size).isNone

theorem transformVaddr_balanced (env : PageEnv) : (transformVaddr env).Balanced := by
  rw [balanced_iff, transformVaddr, settles_getOrBug]
  intro vmspace _
  rw [bugOn, settles_stopIf]
  intro _
  rw [objPut, ← bind_pure (put (some vmspace)), settles_put_some mem_cons_self, settles_pure]
  abel

theorem pageRefs_keep {page : Nat → PageEnv} {trace trace' : List (RefEvent Nat)}
    {userBuf off len : Nat} (clean : PutsObtained [] trace ∧ netChange trace = 0)
    (run : pageRefs page trace userBuf off len = some trace') :
    PutsObtained [] trace' ∧ netChange trace' = 0 := by
  have balanced := transformVaddr_balanced (page userBuf)
  rw [pageRefs] at run
  cases result : (transformVaddr (page userBuf)).result with
  | error e =>
    rw [result] at run
    cases run
  | ok value =>
    rw [result] at run
    cases run
    have net : netChange (transformVaddr (page userBuf)).trace = 0 := by
      rcases balanced.net with stopped | net
      · rw [result] at stopped
        cases stopped
      · exact net
    constructor
    · exact putsObtained_append.mpr ⟨clean.1, balanced.puts.mono (nil_subset _)⟩
    · rw [netChange_append, clean.2, net, add_zero]

variable (mem : UserMem) (userBuf size : Nat)

theorem userCopy_cases : (userCopy mem userBuf size).Balanced ∧
      (userCopy mem userBuf size).result =
        if mem.faults userBuf size then .error .stopped else .ok 0 := by
  cases mem with
  | aarch64 =>
    by_cases outside : kbase ≤ userBuf
    · simp only [userCopy, UserMem.faults, outside, decide_true, if_true]
      exact ⟨(balanced_iff _).mpr settles_stop, rfl⟩
    · simp only [userCopy, UserMem.faults, outside, decide_false]
      exact ⟨(balanced_iff _).mpr ((settles_pure 0).mpr rfl), rfl⟩
  | x86 page =>
    cases run : copyUser (pageRefs page) [] userBuf size with
    | none =>
      simp only [userCopy, UserMem.faults, run, Option.isNone_none, if_true]
      exact ⟨(balanced_iff _).mpr settles_stop, rfl⟩
    | some trace =>
      have start : PutsObtained [] ([] : List (RefEvent Nat)) ∧
          netChange ([] : List (RefEvent Nat)) = 0 := ⟨trivial, rfl⟩
      have clean := copyUser_keep (P := fun trace => PutsObtained [] trace ∧ netChange trace = 0)
        (fun _ _ _ _ _ clean run => pageRefs_keep clean run) start run
      simp only [userCopy, UserMem.faults, run, Option.isNone_some]
      exact ⟨⟨clean.1, .inr clean.2⟩, rfl⟩

section Helpers
variable {α : Type} {known : List Nat} {owed : Nat → Int}

theorem settles_putLast (member : o ∈ known) (r : Int) :
    (do objPut (some o); pure r : Call Int).Settles known (0 + oneRef o) := by
  rw [objPut, settles_put_some member, settles_pure]
  abel

/-- A copy that comes back returns 0 and owes nothing; what its pages got stays known. -/
theorem settles_userCopy (f : Int → Call α) :
    (userCopy mem userBuf size >>= f).Settles known owed ↔
      (mem.faults userBuf size = false →
        (f 0).Settles ((obtained (userCopy mem userBuf size).trace).reverse ++ known) owed) := by
  obtain ⟨balanced, result⟩ := userCopy_cases mem userBuf size
  cases faults : mem.faults userBuf size with
  | true =>
    rw [faults, if_pos rfl] at result
    refine ⟨fun _ never => ?_, fun _ => settles_bind_of_stopped balanced result f⟩
    cases never
  | false =>
    rw [faults, if_neg Bool.false_ne_true] at result
    rw [settles_bind balanced result f]
    exact ⟨fun settles _ => settles, fun settles => settles rfl⟩

theorem settles_bugOn_error {r : Int} (error : r ≠ 0) (f : Unit → Call α) :
    (bugOn (decide (r ≠ 0)) >>= f).Settles known owed := by
  rw [bugOn, settles_stopIf]
  intro never
  exact absurd error (of_decide_eq_false never)

theorem settles_bugOn_zero (f : Unit → Call α) :
    (bugOn (decide ((0 : Int) ≠ 0)) >>= f).Settles known owed ↔ (f ()).Settles known owed := by
  rw [bugOn, settles_stopIf]
  exact ⟨fun settles => settles rfl, fun settles _ => settles⟩

/-- Both callers of `map_pmo_in_current_cap_group` stop if it fails. -/
theorem settles_map (env : MapEnv) (pmoCap : Int) (f : Unit → Call α) :
    (mapPmoInCurrentCapGroup env pmoCap >>= fun r => bugOn (decide (r ≠ 0)) >>= f).Settles
        known owed ↔
      ∀ pmo, env.pmo pmoCap typePmo = some pmo →
        ∀ vmspace, env.vmspace vmspaceObjId typeVmspace = some vmspace → env.mapped = true →
          (f ()).Settles (vmspace :: pmo :: known) owed := by
  rw [mapPmoInCurrentCapGroup, objGet, bind_assoc]
  rcases env.pmo pmoCap typePmo with _ | pmo
  · rw [settles_get_none, if_pos Option.isNone_none, pure_bind]
    refine ⟨fun _ pmo never => ?_, fun _ => settles_bugOn_error (by decide) f⟩
    cases never
  rw [settles_get_some, if_neg (by simp)]
  simp only [bind_assoc, Option.some.injEq, forall_eq']
  rw [settles_getOrBug]
  refine forall_congr' fun vmspace => forall_congr' fun _ => ?_
  have settled : owed + oneRef pmo + oneRef vmspace - oneRef vmspace - oneRef pmo = owed := by
    abel
  rw [objPut, settles_put_some mem_cons_self, objPut, settles_put_some (by simp),
    pure_bind, settled]
  cases env.mapped with
  | false =>
    refine ⟨fun _ never => ?_, fun _ => settles_bugOn_error (by decide) f⟩
    cases never
  | true =>
    rw [if_pos rfl, settles_bugOn_zero]
    exact ⟨fun settles _ => settles, fun settles => settles rfl⟩

/-- A connection that is made keeps the reference to its shared memory; after a failure the caller
stops. -/
theorem settles_clientConnection (env : ConnectionEnv) (shmCap : Int) (f : Unit → Call α) :
    (clientConnection env shmCap >>= fun r => bugOn (decide (r ≠ 0)) >>= f).Settles known owed ↔
      ∀ pmo, env.pmo shmCap typePmo = some pmo → env.connOk = true → 0 ≤ env.connCap →
        0 ≤ env.serverConnCap → (f ()).Settles (pmo :: known) (owed + oneRef pmo) := by
  simp only [clientConnection, bind_assoc]
  rw [settles_getOrBug]
  refine forall_congr' fun pmo => forall_congr' fun _ => ?_
  have failed : ∀ r : Int, r ≠ 0 → ((do objPut (some pmo); pure r : Call Int) >>= fun r =>
        bugOn (decide (r ≠ 0)) >>= f).Settles (pmo :: known) (owed + oneRef pmo) := by
    intro r error
    rw [bind_assoc, objPut, settles_put_some mem_cons_self, pure_bind]
    exact settles_bugOn_error error f
  by_cases connOk : env.connOk = false
  · rw [if_pos connOk]
    refine ⟨fun _ ok => ?_, fun _ => failed _ (by decide)⟩
    rw [connOk] at ok
    cases ok
  rw [if_neg connOk]
  by_cases connCap : env.connCap < 0
  · rw [if_pos connCap]
    exact ⟨fun _ _ ok => absurd ok (by omega), fun _ => failed _ (by omega)⟩
  rw [if_neg connCap]
  by_cases serverConnCap : env.serverConnCap < 0
  · rw [if_pos serverConnCap]
    exact ⟨fun _ _ _ ok => absurd ok (by omega), fun _ => failed _ (by omega)⟩
  · rw [if_neg serverConnCap, pure_bind, settles_bugOn_zero]
    refine ⟨fun settles _ _ _ => settles, fun settles => ?_⟩
    exact settles (by simpa using connOk) (by omega) (by omega)

/-- `ipc_send_cap` stops in a copy, or since the connection has no handler thread. -/
def SendStops (env : SendEnv) (config : Option HandlerConfig) (ipcMsg capNum : Nat) : Prop :=
  capNum ≠ 0 ∧ capNum < maxCapTransfer ∧
    (env.offsetMem.faults (addU64 ipcMsg capSlotsOffsetField) 8 = true ∨
      env.bufOk = true ∧
        (env.readMem.faults (addU64 ipcMsg env.capSlotsOffset) (8 * capNum) = true ∨
          config = none ∨
          env.writeMem.faults (addU64 ipcMsg env.capSlotsOffset) (8 * capNum) = true))

variable (env : SendEnv) (config : Option HandlerConfig) (ipcMsg capNum : Nat)

/-- `ipc_send_cap` puts nothing but what it got: it only passes the references of its caller on. -/
theorem settles_ipcSendCap (f : Int → Call α)
    (rest : ∀ r more, (f r).Settles (more ++ known) owed) :
    (ipcSendCap env config ipcMsg capNum >>= f).Settles known owed := by
  rw [ipcSendCap]
  by_cases zero : capNum = 0
  · rw [if_pos zero, pure_bind]
    exact rest 0 []
  rw [if_neg zero]
  by_cases many : maxCapTransfer ≤ capNum
  · rw [if_pos many, pure_bind]
    exact rest _ []
  rw [if_neg many, bind_assoc, copyFromUser, settles_userCopy]
  intro _
  rw [if_neg (lt_irrefl _)]
  by_cases bufOk : env.bufOk = false
  · rw [if_pos bufOk, pure_bind]
    exact rest _ _
  rw [if_neg bufOk, bind_assoc, copyFromUser, settles_userCopy]
  intro _
  rw [if_neg (lt_irrefl _), bind_assoc, bugOn, settles_stopIf]
  intro _
  rw [bind_assoc, copyToUser, settles_userCopy]
  intro _
  rw [if_neg (lt_irrefl _), pure_bind, ← append_assoc, ← append_assoc]
  exact rest _ _

theorem settles_ipcSendCap_iff (owes : owed ≠ 0) :
    (ipcSendCap env config ipcMsg capNum).Settles known owed ↔
      SendStops env config ipcMsg capNum := by
  rw [ipcSendCap, SendStops]
  by_cases zero : capNum = 0
  · rw [if_pos zero, settles_pure]
    exact ⟨fun none => absurd none owes, fun stops => absurd zero stops.1⟩
  rw [if_neg zero]
  by_cases many : maxCapTransfer ≤ capNum
  · rw [if_pos many, settles_pure]
    exact ⟨fun none => absurd none owes, fun stops => absurd stops.2.1 (by omega)⟩
  have few : capNum < maxCapTransfer := by omega
  rw [if_neg many, copyFromUser, settles_userCopy, if_neg (lt_irrefl _)]
  simp only [ne_eq, zero, not_false_iff, few, true_and]
  cases env.offsetMem.faults (addU64 ipcMsg capSlotsOffsetField) 8 with
  | true => simp
  | false =>
    cases env.bufOk with
    | false => simp [settles_pure, owes]
    | true =>
      rw [if_neg (by decide), copyFromUser, settles_userCopy, if_neg (lt_irrefl _), bugOn,
        settles_stopIf, copyToUser, settles_userCopy, if_neg (lt_irrefl _), settles_pure]
      cases config with
      | none => simp
      | some config =>
        cases env.readMem.faults (addU64 ipcMsg env.capSlotsOffset) (8 * capNum) with
        | true => simp
        | false => simp [owes]

end Helpers

/-! ## The paths without a fault -/

def MapEnv.fits (env : MapEnv) (pmoCap : Int) : Prop :=
  env.pmo pmoCap typePmo ≠ none ∧ env.vmspace vmspaceObjId typeVmspace ≠ none ∧ env.mapped = true

def ConnectionEnv.fits (env : ConnectionEnv) (shmCap : Int) : Prop :=
  env.pmo shmCap typePmo ≠ none ∧ env.connOk = true ∧ 0 ≤ env.connCap ∧ 0 ≤ env.serverConnCap

def RegisterEnv.succeeds (env : RegisterEnv) (shmConfigPtr : Nat) : Prop :=
  (∃ config, env.config = some config ∧ config.registerLock = false) ∧
    env.mem.faults shmConfigPtr sizeofShmConfig = false ∧ env.map.fits env.shmCap ∧
      env.connection.fits env.shmCap

/-- The thread can be made: memory is there, the cap_group has its own object and its vmspace, and a
slot is free. -/
def CreateEnv.fits (env : CreateEnv) : Prop :=
  env.threadOk = true ∧ env.init.capGroup capGroupObjId typeCapGroup ≠ none ∧
    env.init.vmspace vmspaceObjId typeVmspace ≠ none ∧ env.init.ctxOk = true ∧ 0 ≤ env.cap

/-- `vmspace_mmap_with_pmo` stops: there is no vmspace to lock, or the pmo is of another type. -/
def FmapEnv.stops (env : FmapEnv) (vmspace : Option Nat) : Prop :=
  env.vmrOk = true ∧ (vmspace = none ∨ env.pmoType ∉ [PmoType.anonym, .shm, .file])

/-- The call does not reach a path on which a reference is kept, put twice or put as NULL. -/
def SysCall.GivesBack : SysCall → Prop
  | .registerClient env serverCap shmConfigPtr =>
    env.server serverCap.toInt typeThread ≠ none ∧ ¬ env.succeeds shmConfigPtr
  | .ipcCall _ _ _ _ => True
  | .ipcSendCap env connCap =>
    env.conn connCap.toInt typeConnection ≠ none →
      ∀ config, env.config = some config → config.ipcLock = false ∧ 0 ≤ env.cap
  | .flexIpcSendCap env connCap ipcMsgInClient capNum =>
    env.conn connCap.toInt typeConnection ≠ none →
      SendStops env.send env.config ipcMsgInClient capNum
  | .ipcRegisterCbReturn _ _ => True
  | .wait env notifcCap isBlock timeout =>
    env.notifc notifcCap.toInt typeNotification ≠ none → isBlock = true →
      (timeout ≠ 0 ∧ env.mem.faults timeout sizeofTimespec = true) ∨
        0 < env.state.notDelivered
  | .notify env notifcCap =>
    env.notifc notifcCap.toInt typeNotification ≠ none → env.fits = true →
      0 < env.state.notDelivered ∨ env.state.waitingCount = 0 ∨ env.queued = false
  | .createThread env threadArgsP =>
    env.mem.faults threadArgsP sizeofThreadArgs = false →
      env.capGroup (capId env.capGroupCap) typeCapGroup ≠ none ∧ env.create.fits
  | .handleFmap env length prot flags translatedAarrayCap =>
    fmapRefused length prot flags translatedAarrayCap = false →
      env.aarrayPmo translatedAarrayCap typePmo ≠ none →
        env.stops (env.vmspace vmspaceObjId typeVmspace)

/-! ## The calls on connections -/

open SysCall

theorem sysRegisterClient_balanced_iff (env : RegisterEnv) (serverCap : BitVec 32)
    (shmConfigPtr : Nat) : (sysRegisterClient env serverCap shmConfigPtr).Balanced ↔
      (registerClient env serverCap shmConfigPtr).GivesBack := by
  rw [balanced_iff, sysRegisterClient, objGet, SysCall.GivesBack]
  cases env.server serverCap.toInt typeThread with
  | none =>
    rw [settles_get_none, if_pos Option.isNone_none]
    exact ⟨fun never => absurd never (settles_put_none _), fun never => absurd rfl never.1⟩
  | some server =>
    rw [settles_get_some, if_neg (by simp)]
    refine Iff.trans ?_ (and_iff_right (Option.some_ne_none server)).symm
    rw [RegisterEnv.succeeds]
    rcases env.config with _ | config
    · refine ⟨fun _ succeeds => ?_, fun _ => settles_putLast mem_cons_self _⟩
      obtain ⟨⟨config, never, _⟩, _⟩ := succeeds
      cases never
    cases lock : config.registerLock with
    | true =>
      simp only [lock, if_true]
      refine ⟨fun _ succeeds => ?_, fun _ => settles_putLast mem_cons_self _⟩
      obtain ⟨⟨other, same, free⟩, _⟩ := succeeds
      cases same
      rw [lock] at free
      cases free
    | false =>
      simp only [lock, Bool.false_eq_true, if_false]
      rw [copyFromUser, settles_userCopy, settles_bugOn_zero, settles_map]
      simp only [settles_clientConnection]
      -- past this point the reference to the shared memory stays
      constructor
      · intro settles succeeds
        obtain ⟨_, readable, ⟨pmo, vmspace, mapped⟩, shm, connOk, connCap, serverCap⟩ := succeeds
        obtain ⟨pmo, pmoFound⟩ := Option.ne_none_iff_exists'.mp pmo
        obtain ⟨vmspace, vmspaceFound⟩ := Option.ne_none_iff_exists'.mp vmspace
        obtain ⟨shm, shmFound⟩ := Option.ne_none_iff_exists'.mp shm
        have kept := settles readable pmo pmoFound vmspace vmspaceFound mapped shm shmFound
          connOk connCap serverCap
        rw [objPut, settles_put_some (by simp), eretToThread, settles_leave] at kept
        have one : (0 : Nat → Int) + oneRef server + oneRef shm - oneRef server =
            oneRef shm := by abel
        exact oneRef_ne_zero shm (one.symm.trans kept)
      · intro fails readable pmo pmoFound vmspace vmspaceFound mapped shm shmFound connOk
          connCap serverCap
        refine absurd ⟨⟨config, rfl, lock⟩, readable, ⟨?_, ?_, mapped⟩, ?_, connOk, connCap,
          serverCap⟩ fails
        · rw [pmoFound]
          exact Option.some_ne_none pmo
        · rw [vmspaceFound]
          exact Option.some_ne_none vmspace
        · rw [shmFound]
          exact Option.some_ne_none shm

theorem settles_migrate {conn : Nat} {known : List Nat} (member : conn ∈ known) :
    (threadMigrateToServer (some conn)).Settles known (0 + oneRef conn) := by
  rw [threadMigrateToServer, objPut, settles_put_some member, eretToThread, settles_leave]
  abel

theorem sysIpcCall_balanced (env : CallEnv) (connCap : BitVec 32) (ipcMsgInClient capNum : Nat) :
    (sysIpcCall env connCap ipcMsgInClient capNum).Balanced := by
  rw [balanced_iff, sysIpcCall, settles_getOrBug]
  intro conn _
  cases env.config with
  | none => exact settles_stop_bind _
  | some config =>
    rw [grabIpcLock, pure_bind]
    cases config.ipcLock with
    | true => exact settles_putLast mem_cons_self _
    | false =>
      rw [if_neg Bool.false_ne_true, if_neg (by simp)]
      by_cases fast : ipcMsgInClient = 0
      · rw [if_pos fast]
        exact settles_migrate mem_cons_self
      rw [if_neg fast]
      by_cases caps : capNum ≠ 0
      · rw [if_pos caps]
        apply settles_ipcSendCap
        intro r more
        have member : conn ∈ more ++ [conn] := by simp
        by_cases failed : r < 0
        · rw [if_pos failed]
          exact settles_putLast member r
        · rw [if_neg failed]
          exact settles_migrate member
      · rw [if_neg caps]
        exact settles_migrate mem_cons_self

theorem sysIpcSendCap_balanced_iff (env : SendCapEnv) (connCap : BitVec 32) :
    (sysIpcSendCap env connCap).Balanced ↔ (SysCall.ipcSendCap env connCap).GivesBack := by
  rw [balanced_iff, sysIpcSendCap, settles_getOrReturn]
  refine forall_some_iff fun conn => ?_
  have kept : ∀ r : Int, ¬ (pure r : Call Int).Settles [conn] (0 + oneRef conn) := by
    intro r
    rw [settles_pure, zero_add]
    exact oneRef_ne_zero conn
  rcases env.config with _ | config
  · refine ⟨fun _ config never => ?_, fun _ => settles_stop_bind _⟩
    cases never
  rw [grabIpcLock, pure_bind]
  cases lock : config.ipcLock with
  | true =>
    rw [if_pos rfl, if_pos (by decide)]
    refine ⟨fun never => absurd never (kept _), fun all => ?_⟩
    have free := (all config rfl).1
    rw [lock] at free
    cases free
  | false =>
    rw [if_neg Bool.false_ne_true, if_neg (by simp), transferCap]
    by_cases failed : env.cap < 0
    · rw [if_pos failed]
      refine ⟨fun never => absurd never (kept _), fun all => ?_⟩
      have copied := (all config rfl).2
      omega
    · rw [if_neg failed]
      refine ⟨fun _ other same => ?_, fun _ => settles_migrate mem_cons_self⟩
      cases same
      exact ⟨lock, by omega⟩

theorem sysFlexIpcSendCap_balanced_iff (env : CallEnv) (connCap : BitVec 32)
    (ipcMsgInClient capNum : Nat) : (sysFlexIpcSendCap env connCap ipcMsgInClient capNum).Balanced ↔
      (flexIpcSendCap env connCap ipcMsgInClient capNum).GivesBack := by
  rw [balanced_iff, sysFlexIpcSendCap, settles_getOrBug]
  refine forall_some_iff fun conn => ?_
  have owes : (0 : Nat → Int) + oneRef conn ≠ 0 := by
    rw [zero_add]
    exact oneRef_ne_zero conn
  by_cases caps : capNum ≠ 0
  · rw [if_pos caps]
    exact settles_ipcSendCap_iff env.send env.config ipcMsgInClient capNum owes
  · rw [if_neg caps, settles_pure]
    exact ⟨fun none => absurd none owes, fun stops => absurd stops.1 caps⟩

theorem sysIpcRegisterCbReturn_balanced (env : CbReturnEnv) (serverHandlerThreadCap : Word) :
    (sysIpcRegisterCbReturn env serverHandlerThreadCap).Balanced := by
  rw [balanced_iff, sysIpcRegisterCbReturn, settles_getOrBug]
  intro conn _
  rw [bugOn, settles_stopIf]
  intro _
  rw [settles_getOrBug]
  intro handler _
  rw [bugOn, settles_stopIf]
  intro _
  rw [objPut, settles_put_some mem_cons_self, settles_map]
  intro pmo _ vmspace _ _
  rw [objPut, settles_put_some (by simp), eretToThread, settles_leave]
  abel

/-! ## The calls on notifications -/

/-- The wait and the put behind it, whatever was got by the copy before it: a thread that blocks
does not come back to the put. -/
theorem settles_wait (state : Notific) (isBlock : Bool) {notifc : Nat} (more : List Nat) :
    (waitNotific state isBlock >>= fun r => objPut (some notifc) >>= fun _ =>
        (pure r : Call Int)).Settles (more ++ [notifc]) (0 + oneRef notifc) ↔
      (isBlock = true → 0 < state.notDelivered) := by
  have member : notifc ∈ more ++ [notifc] := by simp
  rw [waitNotific]
  by_cases pending : 0 < state.notDelivered
  · rw [if_pos pending, pure_bind]
    exact ⟨fun _ _ => pending, fun _ => settles_putLast member 0⟩
  rw [if_neg pending]
  cases isBlock with
  | true =>
    rw [if_pos rfl, eretToThread, settles_leave_bind, zero_add]
    exact ⟨fun never => absurd never (oneRef_ne_zero notifc),
      fun never => absurd (never rfl) pending⟩
  | false =>
    rw [if_neg Bool.false_ne_true, pure_bind]
    refine ⟨fun _ never => ?_, fun _ => settles_putLast member _⟩
    cases never

theorem sysWait_balanced_iff (env : WaitEnv) (notifcCap : BitVec 32) (isBlock : Bool)
    (timeout : Nat) : (sysWait env notifcCap isBlock timeout).Balanced ↔
      (wait env notifcCap isBlock timeout).GivesBack := by
  rw [balanced_iff, sysWait, settles_getOrReturn]
  refine forall_some_iff fun notifc => ?_
  by_cases timed : timeout ≠ 0
  · rw [if_pos timed, copyFromUser, settles_userCopy]
    simp only [ne_eq, not_true_eq_false, if_false, settles_wait]
    cases env.mem.faults timeout sizeofTimespec with
    | true => simp [timed]
    | false => simp
  · rw [if_neg timed, pure_bind]
    simp only [ne_eq, not_true_eq_false, if_false]
    refine (settles_wait env.state isBlock []).trans ?_
    simp [not_not.mp timed]

theorem sysNotify_balanced_iff (env : NotifyEnv) (notifcCap : BitVec 32) :
    (sysNotify env notifcCap).Balanced ↔ (notify env notifcCap).GivesBack := by
  rw [balanced_iff, sysNotify, settles_getOrReturn]
  refine forall_some_iff fun notifc => ?_
  rw [signalNotific]
  by_cases kept : 0 < env.state.notDelivered ∨ env.state.waitingCount = 0
  · rw [if_pos kept, pure_bind]
    refine ⟨fun _ _ => ?_, fun _ => settles_putLast mem_cons_self 0⟩
    rcases kept with pending | nobody
    · exact .inl pending
    · exact .inr (.inl nobody)
  rw [if_neg kept, bind_assoc, bugOn, settles_stopIf]
  obtain ⟨nothing, somebody⟩ := not_or.mp kept
  cases env.fits with
  | true =>
    rw [Bool.and_self, if_pos rfl, eretToThread, settles_leave_bind, zero_add]
    simp [oneRef_ne_zero, somebody, nothing]
  | false =>
    rw [Bool.and_false, if_neg Bool.false_ne_true, pure_bind]
    refine ⟨fun _ never => ?_, fun _ _ => settles_putLast mem_cons_self 0⟩
    cases never

/-! ## Threads and memory -/

/-- `thread_init` gives back what it got; it puts NULL if the cap_group lacks one of the two. -/
theorem settles_threadInit {α : Type} {known : List Nat} {owed : Nat → Int} (env : ThreadInitEnv)
    (f : Int → Call α) : (threadInit env >>= f).Settles known owed ↔
      ∃ capGroup vmspace, env.capGroup capGroupObjId typeCapGroup = some capGroup ∧
        env.vmspace vmspaceObjId typeVmspace = some vmspace ∧
        (f (if env.ctxOk then 0 else -eNOMEM)).Settles (vmspace :: capGroup :: known) owed := by
  rw [threadInit, objGet, bind_assoc]
  cases env.capGroup capGroupObjId typeCapGroup with
  | none =>
    rw [settles_get_none, bind_assoc, objGet]
    refine ⟨fun settles => ?_, fun found => ?_⟩
    · cases vmspaceFound : env.vmspace vmspaceObjId typeVmspace with
      | none =>
        rw [vmspaceFound, settles_get_none, bind_assoc] at settles
        exact absurd settles (settles_put_none _)
      | some vmspace =>
        rw [vmspaceFound, settles_get_some, bind_assoc] at settles
        exact absurd settles (settles_put_none _)
    · obtain ⟨_, _, missing, _⟩ := found
      cases missing
  | some capGroup =>
    rw [settles_get_some, bind_assoc, objGet]
    cases env.vmspace vmspaceObjId typeVmspace with
    | none =>
      rw [settles_get_none, bind_assoc, objPut, settles_put_some mem_cons_self, bind_assoc]
      refine ⟨fun settles => absurd settles (settles_put_none _), fun found => ?_⟩
      obtain ⟨_, _, _, missing, _⟩ := found
      cases missing
    | some vmspace =>
      have settled : owed + oneRef capGroup + oneRef vmspace - oneRef capGroup -
          oneRef vmspace = owed := by abel
      rw [settles_get_some, bind_assoc, objPut, settles_put_some (by simp), bind_assoc, objPut,
        settles_put_some mem_cons_self, pure_bind, settled]
      constructor
      · intro settles
        exact ⟨capGroup, vmspace, rfl, rfl, settles⟩
      · intro found
        obtain ⟨_, _, sameGroup, sameVmspace, settles⟩ := found
        cases sameGroup
        cases sameVmspace
        exact settles

/-- `create_thread` puts the cap_group on its error paths, and so does its caller. -/
theorem settles_createThread_iff {known : List Nat} (env : CreateEnv) (user : Bool)
    {capGroup : Nat} (member : capGroup ∈ known) :
    (createThread env (some capGroup) user >>= fun r => objPut (some capGroup) >>= fun _ =>
        (pure r : Call Int)).Settles known (0 + oneRef capGroup) ↔ env.fits := by
  have twice : ∀ {known : List Nat}, capGroup ∈ known → ∀ r : Int,
      ¬ ((do objPut (some capGroup); pure r : Call Int) >>= fun r => objPut (some capGroup) >>=
        fun _ => (pure r : Call Int)).Settles known (0 + oneRef capGroup) := by
    intro known member r
    have less : (0 : Nat → Int) + oneRef capGroup - oneRef capGroup - oneRef capGroup =
        -oneRef capGroup := by abel
    rw [bind_assoc, objPut, settles_put_some member, pure_bind, settles_put_some member,
      settles_pure, less, neg_eq_zero]
    exact oneRef_ne_zero capGroup
  rw [createThread, if_neg (by simp), CreateEnv.fits]
  by_cases threadOk : env.threadOk = false
  · rw [if_pos threadOk]
    refine ⟨fun never => absurd never (twice member _), fun fits => ?_⟩
    rw [threadOk] at fits
    cases fits.1
  rw [if_neg threadOk, bind_assoc, settles_threadInit]
  have ready : env.threadOk = true := by simpa using threadOk
  constructor
  · intro found
    obtain ⟨own, vmspace, ownFound, vmspaceFound, settles⟩ := found
    have inside : capGroup ∈ vmspace :: own :: known := mem_cons_of_mem _ (mem_cons_of_mem _ member)
    rw [ownFound, vmspaceFound]
    refine ⟨ready, Option.some_ne_none own, Option.some_ne_none vmspace, ?_⟩
    cases ctxOk : env.init.ctxOk with
    | false =>
      rw [ctxOk, if_neg Bool.false_ne_true, if_pos (by decide)] at settles
      exact absurd settles (twice inside _)
    | true =>
      rw [ctxOk, if_pos rfl, if_neg (by simp)] at settles
      by_cases full : env.cap < 0
      · rw [if_pos full] at settles
        exact absurd settles (twice inside _)
      · exact ⟨rfl, by omega⟩
  · intro fits
    obtain ⟨_, own, vmspace, ctxOk, free⟩ := fits
    obtain ⟨own, ownFound⟩ := Option.ne_none_iff_exists'.mp own
    obtain ⟨vmspace, vmspaceFound⟩ := Option.ne_none_iff_exists'.mp vmspace
    refine ⟨own, vmspace, ownFound, vmspaceFound, ?_⟩
    rw [ctxOk, if_pos rfl, if_neg (by simp), if_neg (by omega), bind_assoc, bugOn, settles_stopIf]
    intro _
    rw [pure_bind]
    exact settles_putLast (mem_cons_of_mem _ (mem_cons_of_mem _ member)) _

theorem sysCreateThread_balanced_iff (env : CreateThreadEnv) (threadArgsP : Nat) :
    (sysCreateThread env threadArgsP).Balanced ↔
      (SysCall.createThread env threadArgsP).GivesBack := by
  rw [balanced_iff, sysCreateThread, copyFromUser, settles_userCopy, settles_bugOn_zero, objGet]
  refine forall_congr' fun _ => ?_
  cases env.capGroup (capId env.capGroupCap) typeCapGroup with
  | none =>
    rw [settles_get_none, createThread, if_pos Option.isNone_none, pure_bind]
    exact ⟨fun never => absurd never (settles_put_none _), fun never => absurd rfl never.1⟩
  | some capGroup =>
    rw [settles_get_some, settles_createThread_iff env.create _ mem_cons_self]
    exact (and_iff_right (Option.some_ne_none capGroup)).symm

theorem settles_vmspaceMmap {α : Type} {known : List Nat} {owed : Nat → Int} (env : FmapEnv)
    (vmspace : Option Nat) {len : Nat} (aligned : len % pageSize = 0) (f : Int → Call α)
    (rest : ∀ r, (f r).Settles known owed ↔ condition) :
    (vmspaceMmapWithPmo env vmspace len >>= f).Settles known owed ↔
      env.stops vmspace ∨ condition := by
  rw [vmspaceMmapWithPmo, FmapEnv.stops]
  cases env.vmrOk with
  | false =>
    rw [if_pos rfl, pure_bind, rest]
    simp
  | true =>
    rw [if_neg (by decide), bind_assoc, bugOn, settles_stopIf, bind_assoc, bugOn, settles_stopIf,
      bind_assoc, bugOn, settles_stopIf, pure_bind, rest]
    by_cases typed : env.pmoType ∉ [PmoType.anonym, .shm, .file]
    · simp only [typed, aligned]
      simp
    · simp only [typed, decide_false, aligned]
      cases vmspace with
      | none | some => simp

theorem sysHandleFmap_balanced_iff (env : FmapEnv) (length : Nat) (prot flags : BitVec 32)
    (translatedAarrayCap : Int) :
    (sysHandleFmap env length prot flags translatedAarrayCap).Balanced ↔
      (handleFmap env length prot flags translatedAarrayCap).GivesBack := by
  rw [balanced_iff, sysHandleFmap, SysCall.GivesBack]
  cases refused : fmapRefused length prot flags translatedAarrayCap with
  | true =>
    rw [if_pos rfl, settles_pure]
    refine ⟨fun _ never => ?_, fun _ => rfl⟩
    cases never
  | false =>
    have aligned : length % pageSize = 0 := by
      simp only [fmapRefused, Bool.or_eq_false_iff, bne_eq_false_iff_eq] at refused
      exact refused.2
    rw [if_neg Bool.false_ne_true, settles_getOrBug]
    refine Iff.trans ?_ (forall_prop_of_true rfl).symm
    refine forall_some_iff fun aarrayPmo => ?_
    -- the reference to the pmo is kept on every path that comes back
    rw [objGet]
    cases env.vmspace vmspaceObjId typeVmspace with
    | none =>
      rw [settles_get_none]
      refine (settles_vmspaceMmap env none aligned _ fun r => ?_).trans (or_iff_left not_false)
      exact iff_of_false (settles_put_none _) not_false
    | some vmspace =>
      rw [settles_get_some]
      refine (settles_vmspaceMmap env (some vmspace) aligned _ fun r => ?_).trans
        (or_iff_left not_false)
      rw [objPut, settles_put_some mem_cons_self, settles_pure, add_sub_cancel_right, zero_add]
      exact iff_of_false (oneRef_ne_zero aarrayPmo) not_false

/-! ## All calls -/

/-- A call gives back exactly the references it took, and puts no other pointer, if and only if it
does not reach one of these paths. -/
theorem sysCall_balanced_iff (call : SysCall) : call.run.Balanced ↔ call.GivesBack := by
  cases call with
  | registerClient env serverCap shmConfigPtr =>
    exact sysRegisterClient_balanced_iff env serverCap shmConfigPtr
  | ipcCall env connCap ipcMsgInClient capNum =>
    exact iff_of_true (sysIpcCall_balanced env connCap ipcMsgInClient capNum) trivial
  | ipcSendCap env connCap => exact sysIpcSendCap_balanced_iff env connCap
  | flexIpcSendCap env connCap ipcMsgInClient capNum =>
    exact sysFlexIpcSendCap_balanced_iff env connCap ipcMsgInClient capNum
  | ipcRegisterCbReturn env serverHandlerThreadCap =>
    exact iff_of_true (sysIpcRegisterCbReturn_balanced env serverHandlerThreadCap) trivial
  | wait env notifcCap isBlock timeout => exact sysWait_balanced_iff env notifcCap isBlock timeout
  | notify env notifcCap => exact sysNotify_balanced_iff env notifcCap
  | createThread env threadArgsP => exact sysCreateThread_balanced_iff env threadArgsP
  | handleFmap env length prot flags translatedAarrayCap =>
    exact sysHandleFmap_balanced_iff env length prot flags translatedAarrayCap

def blockingWait : SysCall :=
  .wait { notifc := fun _ _ => some 7, mem := .aarch64, state := ⟨0, 0, []⟩ } 2 true 0

/-- The waiting thread is resumed, and the notification has one reference more. -/
theorem blockingWait_keeps_ref :
    blockingWait.run.result = .error .resumed ∧ netChange blockingWait.run.trace 7 = 1 ∧
      ¬ blockingWait.run.Balanced := by
  have one : netChange blockingWait.run.trace 7 = 1 := by decide
  refine ⟨rfl, one, fun balanced => ?_⟩
  rcases balanced.net with never | net
  · cases never
  · rw [net] at one
    cases one

end KernelLabs.ChCore.Refs
