import KernelLabs.Lib.Keyed
import KernelLabs.Lib.Runs
import KernelLabs.ChCore.Ipc.Connection
import Mathlib.Data.List.GetD

/-!
# The socket table of the network server

Model of `get_socket`, `set_socket` and `free_socket` of `user/lwip/main.c`.  A client is known by
its badge and has a table of connection ids; `-1` marks a free entry.  The table of a new client is
`malloc`ed memory of which `memset` fills `MAX_SOCK_PER_CLIENT` bytes, a quarter of the entries.
An index outside the table is recorded by the `Acc` layer.  Each function runs under
`sockinfo_lock` and is one step.
-/

set_option autoImplicit false

namespace KernelLabs.ChCore

open Lib List

def maxSockPerClient : Nat := 4096

def eNOSPC : Int := 28

/-- The entries that `memset(table, -1, MAX_SOCK_PER_CLIENT)` reaches: an `int` has four bytes. -/
def memsetEntries : Nat := maxSockPerClient / 4

structure SockNode where
  badge : Nat
  socketTable : List Int
  length : socketTable.length = maxSockPerClient

/-- `socket_table = { -1 }`: the other entries are 0. -/
def headNode : SockNode where
  badge := 2 ^ 64 - 1
  socketTable := -1 :: replicate (maxSockPerClient - 1) 0
  length := by rw [length_cons, length_replicate]; rfl

def SockNode.write (node : SockNode) (i : Nat) (v : Int) : SockNode where
  badge := node.badge
  socketTable := node.socketTable.set i v
  length := by rw [length_set, node.length]

/-- What entry `i` of the table of a new node holds; `junk` is the `malloc`ed memory. -/
def newEntry (junk : Nat → Int) (i : Nat) : Int := if i < memsetEntries then -1 else junk i

def newNode (junk : Nat → Int) (badge : Nat) : SockNode where
  badge := badge
  socketTable := (List.range maxSockPerClient).map (newEntry junk)
  length := by rw [length_map, length_range]

def registerSockinfoNode (junk : Nat → Int) (nodes : List SockNode) (badge : Nat) :
    List SockNode :=
  match findNode SockNode.badge badge nodes with
  | some _ => nodes
  | none => nodes ++ [newNode junk badge]

/-- `behind` is what the memory behind the table holds. -/
def getSocket (behind : Int) (nodes : List SockNode) (badge : Nat) (connId : Int) : Acc Int :=
  if connId < 0 ∨ (maxSockPerClient : Int) < connId then pure (-eINVAL)
  else
    match findNode SockNode.badge badge nodes with
    | some node => readAt (fun _ => behind) node.socketTable connId.toNat
    | none => pure (-eINVAL)

def findConnId (table : List Int) : Nat → Nat → Acc (Option Nat)
  | 0, _ => pure none
  | n + 1, i => do
    let entry ← readAt (fun _ => 0) table i
    if entry = -1 then pure (some i) else findConnId table n (i + 1)

def setSocket (junk : Nat → Int) (nodes : List SockNode) (badge : Nat) (socketFd : Int) :
    Acc (List SockNode × Int) :=
  let nodes := registerSockinfoNode junk nodes badge
  match findNode SockNode.badge badge nodes with
  | some node => do
    match ← findConnId node.socketTable maxSockPerClient 0 with
    | some i => pure (changeNode SockNode.badge badge (·.write i socketFd) nodes, (i : Int))
    | none => pure (nodes, -eNOSPC)
  | none => pure (nodes, -eNOSPC)

/-- A negative index or one behind the table writes to other memory. -/
def freeSocket (nodes : List SockNode) (badge : Nat) (connId : Int) : Acc (List SockNode × Int) :=
  match findNode SockNode.badge badge nodes with
  | some _ =>
    if 0 ≤ connId ∧ connId < maxSockPerClient then
      pure (changeNode SockNode.badge badge (·.write connId.toNat (-1)) nodes, 0)
    else ⟨(nodes, 0), false⟩
  | none => pure (nodes, -eINVAL)

/-! ## The map it should be -/

inductive SockOp where
  | set (badge : Nat) (socketFd : Int) (junk : Nat → Int)
  | get (badge : Nat) (connId behind : Int)
  | free (badge : Nat) (connId : Int)

/-- The nodes, the map from badge and id to the socket that was set and not freed since, and whether
all calls so far were exact. -/
structure SockRun where
  nodes : List SockNode
  used : Nat → Int → Option Int
  exact : Prop

def setUsed (used : Nat → Int → Option Int) (badge : Nat) (connId : Int) (fd : Option Int) :
    Nat → Int → Option Int :=
  fun b id => if b = badge ∧ id = connId then fd else used b id

def AllUsed (used : Nat → Int → Option Int) (badge : Nat) : Prop :=
  ∀ i : Nat, i < maxSockPerClient → used badge i ≠ none

def OthersSame (badge : Nat) (nodes nodes' : List SockNode) : Prop :=
  ∀ b, b ≠ badge → findNode SockNode.badge b nodes' = findNode SockNode.badge b nodes

/-- `get_socket` returns the socket of the id, or a negative value if there is none. -/
def GetExact (used : Option Int) (result : Acc Int) : Prop :=
  result.inb = true ∧ (∀ fd, used = some fd → result.val = fd) ∧ (used = none → result.val < 0)

/-- `set_socket` returns an id that is not in use, and fails only if all are. -/
def SetExact (S : SockRun) (badge : Nat) (result : Acc (List SockNode × Int)) : Prop :=
  result.inb = true ∧ OthersSame badge S.nodes result.val.1 ∧
    (0 ≤ result.val.2 → result.val.2 < maxSockPerClient ∧ S.used badge result.val.2 = none) ∧
    (result.val.2 < 0 → AllUsed S.used badge)

def FreeExact (S : SockRun) (badge : Nat) (result : Acc (List SockNode × Int)) : Prop :=
  result.inb = true ∧ OthersSame badge S.nodes result.val.1

def sockStep (S : SockRun) : SockOp → SockRun
  | .set badge fd junk =>
    let result := setSocket junk S.nodes badge fd
    { nodes := result.val.1
      used := if 0 ≤ result.val.2 then setUsed S.used badge result.val.2 (some fd) else S.used
      exact := S.exact ∧ SetExact S badge result }
  | .get badge connId behind =>
    { S with
      exact := S.exact ∧ GetExact (S.used badge connId) (getSocket behind S.nodes badge connId) }
  | .free badge connId =>
    let result := freeSocket S.nodes badge connId
    { nodes := result.val.1
      used := setUsed S.used badge connId none
      exact := S.exact ∧ FreeExact S badge result }

def startSockets : SockRun := { nodes := [headNode], used := fun _ _ => none, exact := True }

/-- For a client with a table: a look-up is not at the end of the table and the entry of an unused
id is negative; an allocation finds a `-1` or all ids are in use; a freed id is in the table. -/
def SockFits (S : SockRun) : SockOp → Prop
  | .set badge _ _ => ∀ node, findNode SockNode.badge badge S.nodes = some node →
      (-1 ∈ node.socketTable) ∨ AllUsed S.used badge
  | .get badge connId _ => ∀ node, findNode SockNode.badge badge S.nodes = some node →
      connId ≠ maxSockPerClient ∧
        ∀ i : Nat, connId = i → i < maxSockPerClient → S.used badge connId = none →
          node.socketTable.getD i 0 < 0
  | .free badge connId => ∀ node, findNode SockNode.badge badge S.nodes = some node →
      0 ≤ connId ∧ connId < maxSockPerClient

def SockOp.storesFd : SockOp → Prop
  | .set _ fd _ => 0 ≤ fd
  | _ => True

/-! ## One call -/

variable {i : Nat} {node : SockNode} (junk : Nat → Int)

section Calls

theorem findConnId_spec (table : List Int) : ∀ n i, i + n ≤ table.length →
    (findConnId table n i).inb = true ∧
    (∀ j, (findConnId table n i).val = some j → i ≤ j ∧ j < i + n ∧ table.getD j 0 = -1) ∧
    ((findConnId table n i).val = none → ∀ j, i ≤ j → j < i + n → table.getD j 0 ≠ -1) := by
  intro n
  induction n with
  | zero =>
    intro i _
    exact ⟨rfl, (fun j found => nomatch found), fun _ j low high => by omega⟩
  | succ n ih =>
    intro i inside
    obtain ⟨restIn, restFound, restNone⟩ := ih (i + 1) (by omega)
    have read := readAt_val_of_lt (fun _ => 0) table i 0 (by omega)
    have inb : decide (i < table.length) = true := decide_eq_true (by omega)
    simp only [findConnId, Acc.bind_inb, Acc.bind_val, readAt_inb, inb, read, Bool.true_and]
    by_cases free : table.getD i 0 = -1
    · rw [if_pos free]
      refine ⟨rfl, fun j found => ?_, fun none => nomatch none⟩
      cases found
      exact ⟨le_refl _, by omega, free⟩
    rw [if_neg free]
    refine ⟨restIn, fun j found => ?_, fun none j low high => ?_⟩
    · obtain ⟨low, high, entry⟩ := restFound j found
      exact ⟨by omega, by omega, entry⟩
    · rcases Nat.eq_or_lt_of_le low with rfl | later
      · exact free
      · exact restNone none j later (by omega)

theorem SockNode.write_badge (i : Nat) (v : Int) (node : SockNode) :
    (node.write i v).badge = node.badge := rfl

theorem SockNode.write_getD (node : SockNode) (j : Nat) (v : Int) (inside : i < maxSockPerClient) :
    (node.write i v).socketTable.getD j 0 = if j = i then v else node.socketTable.getD j 0 := by
  have below : i < node.socketTable.length := by rw [node.length]; exact inside
  simp only [SockNode.write, getD_eq_getElem?_getD, getElem?_set]
  by_cases same : j = i
  · subst same
    simp [below]
  · simp [same, Ne.symm same]

theorem newNode_getD (badge : Nat) (inside : i < maxSockPerClient) :
    (newNode junk badge).socketTable.getD i 0 = newEntry junk i := by
  simp [newNode, getD_eq_getElem?_getD, inside]

theorem registerSockinfoNode_spec (nodes : List SockNode) (badge : Nat) :
    OthersSame badge nodes (registerSockinfoNode junk nodes badge) ∧
      ∃ node, findNode SockNode.badge badge (registerSockinfoNode junk nodes badge) = some node ∧
        (findNode SockNode.badge badge nodes = some node ∨
          findNode SockNode.badge badge nodes = none ∧ node = newNode junk badge) := by
  rw [registerSockinfoNode]
  cases found : findNode SockNode.badge badge nodes with
  | some node => exact ⟨fun _ _ => rfl, node, found, .inl rfl⟩
  | none =>
    refine ⟨fun b other => ?_, newNode junk badge, ?_, .inr ⟨rfl, rfl⟩⟩
    · rw [findNode_append, if_neg (show ¬ (newNode junk badge).badge = b from other.symm),
        Option.or_none]
    · rw [findNode_append, found, if_pos (show (newNode junk badge).badge = badge from rfl)]
      rfl

/-- What `set_socket` does: it takes the entry `i`, or finds no `-1`. -/
inductive SetOutcome (junk : Nat → Int) (nodes : List SockNode) (badge : Nat) (fd : Int)
    (node : SockNode) : Acc (List SockNode × Int) → Prop where
  | taken (i : Nat) (inside : i < maxSockPerClient) (entry : node.socketTable.getD i 0 = -1) :
      SetOutcome junk nodes badge fd node
        ⟨(changeNode SockNode.badge badge (·.write i fd) (registerSockinfoNode junk nodes badge),
          (i : Int)), true⟩
  | full (none : ∀ i, i < maxSockPerClient → node.socketTable.getD i 0 ≠ -1) :
      SetOutcome junk nodes badge fd node
        ⟨(registerSockinfoNode junk nodes badge, -eNOSPC), true⟩

theorem setSocket_outcome {junk : Nat → Int} {nodes : List SockNode} {badge : Nat} (fd : Int)
    (found : findNode SockNode.badge badge (registerSockinfoNode junk nodes badge) = some node) :
    SetOutcome junk nodes badge fd node (setSocket junk nodes badge fd) := by
  obtain ⟨inb, taken, full⟩ :=
    findConnId_spec node.socketTable maxSockPerClient 0 (by rw [node.length, Nat.zero_add])
  rw [setSocket]
  simp only [found]
  generalize findConnId node.socketTable maxSockPerClient 0 = search at inb taken full
  obtain ⟨result, searchIn⟩ := search
  cases inb
  cases result with
  | some i =>
    obtain ⟨_, inside, entry⟩ := taken i rfl
    exact .taken i (by omega) entry
  | none => exact .full fun i inside => full rfl i (Nat.zero_le i) (by omega)

end Calls

/-! ## Runs -/

structure SockInv (S : SockRun) : Prop where
  exact : S.exact
  stored : ∀ b id fd, S.used b id = some fd → 0 ≤ fd ∧ ∃ (node : SockNode) (i : Nat),
    findNode SockNode.badge b S.nodes = some node ∧ id = i ∧ i < maxSockPerClient ∧
      node.socketTable.getD i 0 = fd

section Runs
variable {S : SockRun} {badge : Nat} {connId fd : Int}

theorem OthersSame.change {nodes nodes' : List SockNode} (same : OthersSame badge nodes nodes')
    (i : Nat) (v : Int) :
    OthersSame badge nodes (changeNode SockNode.badge badge (·.write i v) nodes') := by
  intro b other
  rw [findNode_changeNode_ne (SockNode.write_badge i v) other, same b other]

theorem SockInv.stored_write (inv : SockInv S) {nodes' : List SockNode} {v : Int} {new : Option Int}
    (others : OthersSame badge S.nodes nodes')
    (found : findNode SockNode.badge badge nodes' = some node)
    (old : ∀ before, findNode SockNode.badge badge S.nodes = some before → before = node)
    (inside : i < maxSockPerClient) (value : ∀ fd, new = some fd → fd = v ∧ 0 ≤ v) :
    ∀ b id fd, setUsed S.used badge i new b id = some fd → 0 ≤ fd ∧
      ∃ (node : SockNode) (j : Nat), findNode SockNode.badge b
        (changeNode SockNode.badge badge (·.write i v) nodes') = some node ∧ id = j ∧
          j < maxSockPerClient ∧ node.socketTable.getD j 0 = fd := by
  intro b id fd present
  have changed : findNode SockNode.badge badge
      (changeNode SockNode.badge badge (·.write i v) nodes') = some (node.write i v) := by
    rw [findNode_changeNode (SockNode.write_badge i v), found]
    rfl
  rw [setUsed] at present
  split at present
  · rename_i both
    obtain ⟨rfl, rfl⟩ := both
    obtain ⟨rfl, nonneg⟩ := value fd present
    refine ⟨nonneg, node.write i fd, i, changed, rfl, inside, ?_⟩
    rw [node.write_getD i fd inside, if_pos rfl]
  rename_i other
  obtain ⟨nonneg, before, j, place, rfl, jInside, entry⟩ := inv.stored b id fd present
  by_cases same : b = badge
  · subst same
    obtain rfl := old before place
    refine ⟨nonneg, _, j, changed, rfl, jInside, ?_⟩
    rw [before.write_getD j v inside, if_neg (fun equal => other ⟨rfl, by omega⟩)]
    exact entry
  · refine ⟨nonneg, before, j, ?_, rfl, jInside, entry⟩
    rw [others.change i v b same]
    exact place

theorem sockStep_set_keep (inv : SockInv S) (junk : Nat → Int) (nonneg : 0 ≤ fd)
    (fits : SockFits S (.set badge fd junk)) : SockInv (sockStep S (.set badge fd junk)) := by
  obtain ⟨others, node, found, origin⟩ := registerSockinfoNode_spec junk S.nodes badge
  have old : ∀ before, findNode SockNode.badge badge S.nodes = some before → before = node := by
    intro before place
    rcases origin with here | ⟨absent, _⟩
    · rw [here] at place
      exact (Option.some.inj place).symm
    · rw [absent] at place
      cases place
  have outcome := setSocket_outcome fd found
  rw [sockStep]
  generalize setSocket junk S.nodes badge fd = result at outcome
  cases outcome with
  | taken i inside entry =>
    have unused : S.used badge i = none := by
      cases present : S.used badge i with
      | none => rfl
      | some fd' =>
        obtain ⟨nonneg', before, j, place, same, _, stored⟩ := inv.stored badge i fd' present
        obtain rfl := old before place
        obtain rfl : i = j := by omega
        omega
    refine ⟨⟨inv.exact, rfl, others.change i fd, fun _ => ⟨Int.ofNat_lt.mpr inside, unused⟩,
      fun negative => ?_⟩, ?_⟩
    · exact absurd (show (i : Int) < 0 from negative) (by omega)
    · rw [if_pos (Int.natCast_nonneg i)]
      exact inv.stored_write others found old inside fun fd' same => by
        cases same
        exact ⟨rfl, nonneg⟩
  | full none =>
    have allUsed : AllUsed S.used badge := by
      rcases origin with here | ⟨_, rfl⟩
      · rcases fits node here with member | all
        · obtain ⟨i, below, entry⟩ := mem_iff_getElem.mp member
          rw [node.length] at below
          refine absurd ?_ (none i below)
          rw [getD_eq_getElem _ _ (by rw [node.length]; exact below), entry]
        · exact all
      · exact absurd (newNode_getD junk badge (by decide)) (none 0 (by decide))
    refine ⟨⟨inv.exact, rfl, others, fun nonneg => ?_, fun _ => allUsed⟩, ?_⟩
    · exact absurd (show 0 ≤ -eNOSPC from nonneg) (by decide)
    rw [if_neg (show ¬ 0 ≤ -eNOSPC by decide)]
    intro b id fd' present
    obtain ⟨nonneg', before, j, place, rest⟩ := inv.stored b id fd' present
    refine ⟨nonneg', before, j, ?_, rest⟩
    by_cases same : b = badge
    · subst same
      rw [found, old before place]
    · rw [others b same]
      exact place

theorem sockStep_set_leave (good : (sockStep S (.set badge fd junk)).exact) :
    SockFits S (.set badge fd junk) := by
  intro node here
  obtain ⟨_, _, _, _, full⟩ := good
  have same : registerSockinfoNode junk S.nodes badge = S.nodes := by
    rw [registerSockinfoNode, here]
  have outcome := setSocket_outcome fd (show findNode SockNode.badge badge
    (registerSockinfoNode junk S.nodes badge) = some node by rw [same]; exact here)
  generalize setSocket junk S.nodes badge fd = result at outcome full
  cases outcome with
  | taken i inside entry =>
    refine .inl ?_
    have below : i < node.socketTable.length := by rw [node.length]; exact inside
    rw [getD_eq_getElem _ _ below] at entry
    rw [← entry]
    exact getElem_mem below
  | full none => exact .inr (full (show -eNOSPC < 0 by decide))

theorem sockStep_get_exact (inv : SockInv S) (behind : Int) :
    GetExact (S.used badge connId) (getSocket behind S.nodes badge connId) ↔
      SockFits S (.get badge connId behind) := by
  rw [getSocket]
  by_cases outside : connId < 0 ∨ (maxSockPerClient : Int) < connId
  · rw [if_pos outside]
    refine ⟨fun _ node _ => ⟨by omega, fun i same inside => by omega⟩, fun _ => ⟨rfl, ?_, ?_⟩⟩
    · intro fd present
      obtain ⟨_, _, i, _, rfl, inside, _⟩ := inv.stored badge connId fd present
      omega
    · intro _
      decide
  rw [if_neg outside]
  rw [not_or, Int.not_lt, Int.not_lt] at outside
  obtain ⟨i, rfl⟩ := Int.eq_ofNat_of_zero_le outside.1
  cases found : findNode SockNode.badge badge S.nodes with
  | none =>
    refine ⟨fun _ node here => ?_, fun _ => ⟨rfl, ?_, fun _ => ?_⟩⟩
    · rw [found] at here
      cases here
    · intro fd present
      obtain ⟨_, node, _, here, _⟩ := inv.stored badge i fd present
      rw [found] at here
      cases here
    · exact (show -eINVAL < 0 by decide)
  | some node =>
    simp only [GetExact, readAt_inb, node.length, Int.toNat_natCast, decide_eq_true_eq]
    constructor
    · rintro ⟨inside, _, negative⟩ node' here
      rw [found] at here
      cases here
      refine ⟨by omega, ?_⟩
      intro j same _ unused
      obtain rfl : i = j := by omega
      have value := negative unused
      rwa [readAt_val_of_lt _ _ _ 0 (by rw [node.length]; exact inside)] at value
    · intro fits
      obtain ⟨notEnd, negative⟩ := fits node found
      have inside : i < maxSockPerClient := by omega
      refine ⟨inside, ?_, ?_⟩
      · intro fd present
        obtain ⟨_, node', j, here, same, _, entry⟩ := inv.stored badge i fd present
        rw [found] at here
        cases here
        obtain rfl : i = j := by omega
        rw [readAt_val_of_lt _ _ _ 0 (by rw [node.length]; exact inside)]
        exact entry
      · intro unused
        rw [readAt_val_of_lt _ _ _ 0 (by rw [node.length]; exact inside)]
        exact negative i rfl inside unused

theorem sockStep_free_keep (inv : SockInv S) (fits : SockFits S (.free badge connId)) :
    SockInv (sockStep S (.free badge connId)) := by
  rw [sockStep, freeSocket]
  cases found : findNode SockNode.badge badge S.nodes with
  | none =>
    refine ⟨⟨inv.exact, rfl, fun _ _ => rfl⟩, ?_⟩
    intro b id fd present
    simp only [setUsed] at present
    split at present
    · cases present
    · exact inv.stored b id fd present
  | some node =>
    have range := fits node found
    obtain ⟨i, rfl⟩ := Int.eq_ofNat_of_zero_le range.1
    simp only [if_pos range, Int.toNat_natCast]
    have same : OthersSame badge S.nodes S.nodes := fun _ _ => rfl
    refine ⟨⟨inv.exact, rfl, same.change i (-1)⟩, ?_⟩
    refine inv.stored_write same found (fun before here => ?_) (by omega) (fun fd never => ?_)
    · rw [found] at here
      exact (Option.some.inj here).symm
    · cases never

theorem sockStep_free_leave (good : (sockStep S (.free badge connId)).exact) :
    SockFits S (.free badge connId) := by
  intro node found
  obtain ⟨_, inb, _⟩ := good
  rw [freeSocket, found] at inb
  by_contra outside
  simp [if_neg outside] at inb

end Runs

/-- All calls are exact if and only if every call of a client with a table meets the condition. -/
theorem sockets_exact_iff (ops : List SockOp) (fds : ∀ op ∈ ops, op.storesFd) :
    RunMeets sockStep SockFits startSockets ops ↔
      ∀ pre, pre <+: ops → (pre.foldl sockStep startSockets).exact := by
  refine run_exact_within sockStep (fun _ op => op.storesFd) SockFits SockInv SockRun.exact
    (fun S inv => inv.exact) ?_ ?_ ops startSockets ⟨trivial, fun _ _ _ never => nomatch never⟩
    (runMeets_of_mem fds startSockets)
  · intro S op inv stores fits
    cases op with
    | set badge fd junk => exact sockStep_set_keep inv junk stores fits
    | get badge connId behind =>
      exact ⟨⟨inv.exact, (sockStep_get_exact inv behind).mpr fits⟩, inv.stored⟩
    | free badge connId => exact sockStep_free_keep inv fits
  · intro S op inv _ good
    cases op with
    | set badge fd junk => exact sockStep_set_leave junk good
    | get badge connId behind => exact (sockStep_get_exact inv behind).mp good.2
    | free badge connId => exact sockStep_free_leave good

theorem sockets_exact_set_get :
    ([SockOp.set 1 7 fun _ => 0, .get 1 0 5].foldl sockStep startSockets).exact := by
  refine (sockets_exact_iff _ ?_).mp ?_ _ (prefix_refl _)
  · intro op member
    rcases mem_pair.mp member with rfl | rfl
    · exact (show (0 : Int) ≤ 7 by decide)
    · trivial
  · refine ⟨(fun node found => nomatch found), (fun node _ => ⟨by decide, ?_⟩), trivial⟩
    intro i _ _ unused
    refine absurd unused ?_
    decide +kernel

/-- The id 1024 was never allocated, but its entry is not negative: `memset` does not reach it. -/
theorem sockets_unset_entry :
    ¬ ([SockOp.set 1 7 fun _ => 0, .get 1 1024 5].foldl sockStep startSockets).exact := by
  intro exact
  have unused : (sockStep startSockets (.set 1 7 fun _ => 0)).used 1 1024 = none := by
    decide +kernel
  have value : (getSocket 5 (sockStep startSockets (.set 1 7 fun _ => 0)).nodes 1 1024).val = 0 := by
    decide +kernel
  have negative : (getSocket 5 (sockStep startSockets (.set 1 7 fun _ => 0)).nodes 1 1024).val < 0 :=
    exact.2.2.2 unused
  omega

end KernelLabs.ChCore
