import KernelLabs.ChCore.Common.Radix
import KernelLabs.ChCore.User.IdManager

/-!
# Processes and their badges

The table of processes of `procmgr.c` and its look-up by badge.  A badge is an `int`, the drawn
number shifted by 10 bits plus the pid, widened to 64 bits; the look-up narrows it to `int` and
widens it again.  A process is named by its place in the order of creation, and is live until the
recycle thread has marked it `PROC_STATE_EXIT`.  Names, capabilities and the tree of parents and
children are left out.  The sum and the shift wrap around at 32 bits.
-/

set_option autoImplicit false

namespace KernelLabs.ChCore

open Lib Function List

def pidMax : Nat := 1024 * 1024

inductive ProcState where
  | init
  | running
  | exit
deriving DecidableEq

abbrev Rand := Fin (2 ^ 31)

def generateBadge (rand : Rand) (pid : BitVec 32) : BitVec 64 :=
  (BitVec.ofNat 32 rand <<< 10 + pid).signExtend 64

/-- Where a badge comes from: drawn by `new_proc_node`, or given to `init` by the kernel. -/
inductive Origin where
  | drawn (rand : Rand) (pid : BitVec 32)
  | given (badge : BitVec 64)

def Origin.badge : Origin → BitVec 64
  | .drawn rand pid => generateBadge rand pid
  | .given badge => badge

structure ProcNode where
  pid : BitVec 32
  badge : BitVec 64
  state : ProcState
  origin : Origin

structure Procmgr where
  pidMgr : IdManager
  badge2proc : UserRadix Nat
  procs : List ProcNode
  allocated : Nat

def initProcmgr : Procmgr :=
  ⟨initIdManager pidMax, initRadixWDeleter false, [], 0⟩

def radixAddProc (radix : UserRadix Nat) (badge : BitVec 64) (proc : Nat) : UserRadix Nat :=
  (userRadixAdd radix badge (some proc)).getD radix

def newProcNode (s : Procmgr) (rand : Rand) : Procmgr :=
  let pid := BitVec.ofInt 32 (allocId s.pidMgr).1
  let badge := generateBadge rand pid
  { pidMgr := (allocId s.pidMgr).2
    badge2proc := radixAddProc s.badge2proc badge s.procs.length
    procs := s.procs ++ [⟨pid, badge, .init, .drawn rand pid⟩]
    allocated := s.allocated + 1 }

/-- `handle_newproc` from `new_proc_node` on; `launched` is whether the launch succeeded. -/
def handleNewproc (s : Procmgr) (rand : Rand) (launched : Bool) : Procmgr :=
  let t := newProcNode s rand
  { t with
    procs := t.procs.modify s.procs.length fun proc =>
      { proc with state := if launched then .running else proc.state } }

/-- The branch `PROC_REQ_INIT` of `procmgr_dispatch`. -/
def handleInit (s : Procmgr) (clientBadge : BitVec 64) (rand : Rand) : Procmgr :=
  let t := newProcNode s rand
  { pidMgr := (allocId t.pidMgr).2
    badge2proc := radixAddProc t.badge2proc clientBadge s.procs.length
    procs := t.procs.modify s.procs.length fun proc =>
      { proc with
        pid := BitVec.ofInt 32 (allocId t.pidMgr).1
        badge := clientBadge
        origin := .given clientBadge }
    allocated := t.allocated + 1 }

/-- The argument `int client_badge` as the key of `radix_get`. -/
def clientKey (clientBadge : BitVec 64) : BitVec 64 :=
  (clientBadge.setWidth 32).signExtend 64

def procmgrFindClientProc (s : Procmgr) (clientBadge : BitVec 64) : Option Nat :=
  radixGet s.badge2proc (clientKey clientBadge)

def Live (s : Procmgr) (p : Nat) (proc : ProcNode) : Prop :=
  s.procs[p]? = some proc ∧ proc.state ≠ .exit

/-- The recycle thread takes the message with the badge of `p`; a process that is not in the table
stops it. -/
def recycleProc (s : Procmgr) (p : Nat) : Procmgr :=
  match s.procs[p]? with
  | none => s
  | some proc =>
    if proc.state = .exit then s
    else
      match procmgrFindClientProc s proc.badge with
      | none => s
      | some q => { s with procs := s.procs.modify q fun proc => { proc with state := .exit } }

inductive ProcOp where
  | newproc (rand : Rand) (launched : Bool)
  | init (clientBadge : BitVec 64) (rand : Rand)
  | recycle (p : Nat)

def procStep (s : Procmgr) : ProcOp → Procmgr
  | .newproc rand launched => handleNewproc s rand launched
  | .init clientBadge rand => handleInit s clientBadge rand
  | .recycle p => recycleProc s p

/-- No two live processes have the same badge, and the look-up of the badge of a live process
returns it. -/
def Identified (s : Procmgr) : Prop :=
  ∀ p proc, Live s p proc → procmgrFindClientProc s proc.badge = some p ∧
    ∀ q other, Live s q other → other.badge = proc.badge → q = p

/-! ## The arithmetic of badges -/

/-- The upper 22 and the lower 10 of the 32 bits that tell badges apart. -/
def Origin.parts : Origin → Nat × Nat
  | .drawn rand pid => ((rand.val + pid.toNat / 1024) % 2 ^ 22, pid.toNat % 1024)
  | .given badge => (badge.toNat / 1024 % 2 ^ 22, badge.toNat % 1024)

theorem setWidth_signExtend (x : BitVec 32) : (x.signExtend 64).setWidth 32 = x := by
  ext i small
  have wide : i < 64 := by omega
  simp [BitVec.getElem_signExtend, small, wide]

theorem clientKey_generateBadge (rand : Rand) (pid : BitVec 32) :
    clientKey (generateBadge rand pid) = generateBadge rand pid := by
  rw [clientKey, generateBadge, setWidth_signExtend]

theorem clientKey_clientKey (badge : BitVec 64) : clientKey (clientKey badge) = clientKey badge := by
  rw [clientKey, clientKey, setWidth_signExtend]

open Origin

/-- The two parts are those of the 32 bits the look-up uses. -/
theorem Origin.parts_eq (origin : Origin) : origin.parts = ((origin.badge.setWidth 32).toNat / 1024,
      (origin.badge.setWidth 32).toNat % 1024) := by
  cases origin with
  | drawn rand pid =>
    have sum : (BitVec.ofNat 32 rand.val <<< 10 + pid).toNat =
        (rand.val * 1024 + pid.toNat) % 2 ^ 32 := by
      simp [Nat.shiftLeft_eq]
    simp only [parts, badge, generateBadge, setWidth_signExtend, sum, Prod.mk.injEq]
    omega
  | given badge =>
    simp only [Origin.parts, Origin.badge, BitVec.toNat_setWidth, Prod.mk.injEq]
    omega

theorem Origin.parts_eq_iff (origin other : Origin) :
    origin.parts = other.parts ↔ clientKey origin.badge = clientKey other.badge := by
  rw [origin.parts_eq, other.parts_eq, Prod.mk.injEq]
  constructor
  · intro same
    have equal : origin.badge.setWidth 32 = other.badge.setWidth 32 :=
      BitVec.eq_of_toNat_eq (by omega)
    rw [clientKey, clientKey, equal]
  · intro same
    have equal := congrArg (BitVec.setWidth 32) same
    rw [clientKey, clientKey, setWidth_signExtend, setWidth_signExtend] at equal
    rw [equal]
    exact ⟨rfl, rfl⟩

/-! ## When a badge is free -/

def pidAfter (allocated : Nat) : BitVec 32 :=
  BitVec.ofInt 32 (if allocated < pidMax then allocated else -eNOMEM)

def PartsFree (s : Procmgr) (origin : Origin) : Prop :=
  ∀ p proc, Live s p proc → origin.parts ≠ proc.origin.parts

/-- What a creation needs.  The badge given to `init` is found if it is an `int`, or if the badge
drawn before happens to be the same in the lower 32 bits. -/
def BadgeFree (s : Procmgr) : ProcOp → Prop
  | .newproc rand _ => PartsFree s (.drawn rand (pidAfter s.allocated))
  | .init clientBadge rand =>
    PartsFree s (.given clientBadge) ∧ PartsFree s (.drawn rand (pidAfter s.allocated)) ∧
      (clientKey clientBadge = clientBadge ∨
        (Origin.given clientBadge).parts = (Origin.drawn rand (pidAfter s.allocated)).parts)
  | .recycle _ => True

/-! ## What the table stands for -/

structure Registered (s : Procmgr) (map : BitVec 64 → Option Nat) : Prop where
  stands : Stands s.badge2proc map
  values : ∀ key p, map key = some p → p < s.procs.length
  pids : Issued s.pidMgr (min s.allocated pidMax)
  maxId : s.pidMgr.maxId = pidMax
  badges : ∀ (p : Nat) proc, s.procs[p]? = some proc → proc.badge = proc.origin.badge

theorem initProcmgr_registered : Registered initProcmgr fun _ => none := by
  refine ⟨stands_initRadix false, ?_, initIdManager_issued pidMax, rfl, ?_⟩
  · intro key p entry
    cases entry
  · intro p proc entry
    cases entry

theorem radixAddProc_stands {radix : UserRadix Nat} {map : BitVec 64 → Option Nat}
    (stands : Stands radix map) (badge : BitVec 64) (proc : Nat) :
    Stands (radixAddProc radix badge proc) (update map badge (some proc)) := by
  obtain ⟨radix', added, -, after⟩ := userRadixStep_stands stands (.add badge proc)
  have added : userRadixAdd radix badge (some proc) = some radix' := added
  rw [radixAddProc, added]
  exact after

variable {procs : List ProcNode} {last proc : ProcNode} {p : Nat}

section Steps
variable {s : Procmgr} {map : BitVec 64 → Option Nat}

theorem Registered.pid (registered : Registered s map) :
    BitVec.ofInt 32 (allocId s.pidMgr).1 = pidAfter s.allocated ∧
      Issued (allocId s.pidMgr).2 (min (s.allocated + 1) pidMax) := by
  have pids := registered.pids
  rw [← registered.maxId] at pids
  obtain ⟨id, next⟩ := allocId_issued pids
  rw [registered.maxId] at id next
  rw [id]
  exact ⟨rfl, next⟩

theorem values_update {map : BitVec 64 → Option Nat} {count last : Nat} (new : last < count)
    (values : ∀ key p, map key = some p → p < count) (badge : BitVec 64) :
    ∀ key p, update map badge (some last) key = some p → p < count := by
  refine (forall_update_iff map fun _ entry => ∀ p, entry = some p → p < count).mpr
    ⟨?_, fun key _ => values key⟩
  rintro p ⟨⟩
  exact new

theorem Registered.values_concat (registered : Registered s map) (badge : BitVec 64) :
    ∀ key p, update map badge (some s.procs.length) key = some p →
      p < s.procs.length + 1 :=
  values_update (Nat.lt_succ_self _)
    (fun key p entry => Nat.lt_succ_of_lt (registered.values key p entry)) badge

theorem getElem?_concat_eq :
    (procs ++ [last])[p]? = some proc ↔
      procs[p]? = some proc ∨ p = procs.length ∧ proc = last := by
  rw [getElem?_append]
  split
  · next inside =>
      have other : p ≠ procs.length := Nat.ne_of_lt inside
      simp [other]
  next outside =>
    have none : procs[p]? = Option.none := getElem?_eq_none (Nat.le_of_not_lt outside)
    rw [none, getElem?_singleton]
    split
    · next first =>
        have same : p = procs.length := by omega
        simp [same, eq_comm]
    · next later =>
        have other : p ≠ procs.length := by omega
        simp [other]

theorem Registered.badges_concat (registered : Registered s map)
    (own : last.badge = last.origin.badge) :
    ∀ (p : Nat) proc, (s.procs ++ [last])[p]? = some proc → proc.badge = proc.origin.badge := by
  intro p proc entry
  rw [getElem?_concat_eq] at entry
  rcases entry with before | ⟨-, rfl⟩
  · exact registered.badges p proc before
  · exact own

theorem modify_concat (procs : List ProcNode) (last : ProcNode) (f : ProcNode → ProcNode) :
    (procs ++ [last]).modify procs.length f = procs ++ [f last] := by
  induction procs with
  | nil => rfl
  | cons first rest ih => rw [cons_append, length_cons, modify_succ_cons, ih]; rfl

def drawnNode (s : Procmgr) (rand : Rand) (launched : Bool) : ProcNode :=
  ⟨pidAfter s.allocated, generateBadge rand (pidAfter s.allocated),
    if launched then .running else .init, .drawn rand (pidAfter s.allocated)⟩

theorem drawnNode_live (rand : Rand) (launched : Bool) :
    (drawnNode s rand launched).state ≠ .exit := by
  cases launched <;> exact fun ended => nomatch ended

abbrev drawnMap (s : Procmgr) (map : BitVec 64 → Option Nat) (rand : Rand) :
    BitVec 64 → Option Nat :=
  update map (generateBadge rand (pidAfter s.allocated)) (some s.procs.length)

theorem Registered.newProcNode (registered : Registered s map) (rand : Rand) :
    (newProcNode s rand).procs = s.procs ++ [drawnNode s rand false] ∧
      Registered (newProcNode s rand) (drawnMap s map rand) := by
  obtain ⟨pid, next⟩ := registered.pid
  have procs : (ChCore.newProcNode s rand).procs = s.procs ++ [drawnNode s rand false] := by
    simp only [ChCore.newProcNode, pid]
    rfl
  refine ⟨procs, ?_, ?_, next, ?_, ?_⟩
  · rw [drawnMap, ← pid]
    exact radixAddProc_stands registered.stands _ _
  · rw [procs, length_append]
    exact registered.values_concat _
  · exact (allocId_maxId _).trans registered.maxId
  · rw [procs]
    exact registered.badges_concat rfl

theorem Registered.newproc (registered : Registered s map) (rand : Rand) (launched : Bool) :
    (handleNewproc s rand launched).procs = s.procs ++ [drawnNode s rand launched] ∧
      Registered (handleNewproc s rand launched) (drawnMap s map rand) := by
  obtain ⟨before, added⟩ := registered.newProcNode rand
  have procs : (handleNewproc s rand launched).procs = s.procs ++ [drawnNode s rand launched] := by
    simp only [handleNewproc, before, modify_concat]
    cases launched <;> rfl
  refine ⟨procs, added.stands, ?_, added.pids, added.maxId, ?_⟩
  · rw [procs, length_append]
    exact registered.values_concat _
  · rw [procs]
    exact registered.badges_concat rfl

def givenNode (s : Procmgr) (clientBadge : BitVec 64) : ProcNode :=
  ⟨pidAfter (s.allocated + 1), clientBadge, .init, .given clientBadge⟩

theorem Registered.init (registered : Registered s map) (clientBadge : BitVec 64) (rand : Rand) :
    (handleInit s clientBadge rand).procs = s.procs ++ [givenNode s clientBadge] ∧
      Registered (handleInit s clientBadge rand) (update (drawnMap s map rand)
          clientBadge (some s.procs.length)) := by
  obtain ⟨before, added⟩ := registered.newProcNode rand
  obtain ⟨pid, next⟩ := added.pid
  have procs : (handleInit s clientBadge rand).procs = s.procs ++ [givenNode s clientBadge] := by
    simp only [handleInit, before, modify_concat, pid]
    rfl
  refine ⟨procs, radixAddProc_stands added.stands _ _, ?_, next, ?_, ?_⟩
  · rw [procs, length_append]
    exact values_update (Nat.lt_succ_self _) (registered.values_concat _) clientBadge
  · exact (allocId_maxId _).trans added.maxId
  · rw [procs]
    exact registered.badges_concat rfl

end Steps

/-! ## Every live process is found -/

def Found (procs : List ProcNode) (map : BitVec 64 → Option Nat) : Prop :=
  ∀ (p : Nat) proc, procs[p]? = some proc → proc.state ≠ .exit →
    map (clientKey proc.badge) = some p

section Found
variable {s : Procmgr} {map : BitVec 64 → Option Nat} (registered : Registered s map)
include registered

/-- Two live processes with one badge would have one entry. -/
theorem Registered.identified_iff : Identified s ↔ Found s.procs map := by
  constructor
  · intro identified p proc entry live
    rw [← registered.stands.get]
    exact (identified p proc ⟨entry, live⟩).1
  intro found p proc live
  have here := found p proc live.1 live.2
  refine ⟨(registered.stands.get _).trans here, ?_⟩
  intro q other otherLive same
  have there := found q other otherLive.1 otherLive.2
  rw [same, here] at there
  exact (Option.some.inj there).symm

theorem Registered.parts_ne_iff (entry : s.procs[p]? = some proc) (origin : Origin) :
    origin.parts ≠ proc.origin.parts ↔ clientKey proc.badge ≠ clientKey origin.badge := by
  rw [Ne, parts_eq_iff, registered.badges p proc entry, eq_comm]

omit registered in
theorem lt_length_of_getElem? (entry : procs[p]? = some proc) : p < procs.length :=
  (List.getElem?_eq_some_iff.mp entry).1

omit registered in
theorem found_update_iff (procs : List ProcNode) (map : BitVec 64 → Option Nat) (key : BitVec 64) :
    Found procs (update map key (some procs.length)) ↔
      (∀ (p : Nat) proc, procs[p]? = some proc → proc.state ≠ .exit →
        clientKey proc.badge ≠ key) ∧ Found procs map := by
  constructor
  · intro found
    have other : ∀ (p : Nat) proc, procs[p]? = some proc → proc.state ≠ .exit →
        clientKey proc.badge ≠ key := by
      intro p proc entry live same
      have here := found p proc entry live
      rw [same, update_self] at here
      have bound := lt_length_of_getElem? entry
      have same := Option.some.inj here
      omega
    refine ⟨other, ?_⟩
    intro p proc entry live
    rw [← found p proc entry live, update_of_ne (other p proc entry live)]
  · intro both p proc entry live
    rw [update_of_ne (both.1 p proc entry live)]
    exact both.2 p proc entry live

omit registered in
theorem found_concat_iff (procs : List ProcNode) (map : BitVec 64 → Option Nat)
    (live : last.state ≠ .exit) : Found (procs ++ [last]) map ↔
      Found procs map ∧ map (clientKey last.badge) = some procs.length := by
  constructor
  · intro found
    refine ⟨?_, ?_⟩
    · intro p proc entry
      exact found p proc (getElem?_concat_eq.mpr (.inl entry))
    · exact found procs.length last (getElem?_concat_eq.mpr (.inr ⟨rfl, rfl⟩)) live
  · intro both p proc entry procLive
    rcases getElem?_concat_eq.mp entry with before | ⟨rfl, rfl⟩
    · exact both.1 p proc before procLive
    · exact both.2

theorem Registered.partsFree_iff (origin : Origin) :
    PartsFree s origin ↔ ∀ (p : Nat) proc, s.procs[p]? = some proc → proc.state ≠ .exit →
      clientKey proc.badge ≠ clientKey origin.badge := by
  constructor
  · intro free p proc entry live
    exact (registered.parts_ne_iff entry origin).mp (free p proc ⟨entry, live⟩)
  · intro free p proc live
    exact (registered.parts_ne_iff live.1 origin).mpr (free p proc live.1 live.2)

/-- `handle_newproc` keeps every live process found exactly if the parts are free. -/
theorem Registered.newproc_found_iff (found : Found s.procs map) (rand : Rand) (launched : Bool) :
    Found (s.procs ++ [drawnNode s rand launched]) (drawnMap s map rand) ↔
      PartsFree s (.drawn rand (pidAfter s.allocated)) := by
  have key := clientKey_generateBadge rand (pidAfter s.allocated)
  have self : drawnMap s map rand (clientKey (drawnNode s rand launched).badge) =
        some s.procs.length := by
    rw [drawnMap, drawnNode, key, update_self]
  rw [drawnMap, found_concat_iff _ _ (drawnNode_live rand launched), found_update_iff,
    registered.partsFree_iff, badge, key]
  exact ⟨fun all => all.1.1, fun free => ⟨⟨free, found⟩, self⟩⟩

/-- The node of `init` is found exactly if the given badge is an `int`, or the drawn one has its
lower bits. -/
theorem Registered.init_self_iff (clientBadge : BitVec 64) (rand : Rand) :
    update (drawnMap s map rand) clientBadge (some s.procs.length) (clientKey clientBadge) =
          some s.procs.length ↔
      clientKey clientBadge = clientBadge ∨
        (given clientBadge).parts = (drawn rand (pidAfter s.allocated)).parts := by
  rw [drawnMap, parts_eq_iff, badge, badge, clientKey_generateBadge]
  by_cases fits : clientKey clientBadge = clientBadge
  · rw [fits, update_self]
    exact ⟨fun _ => .inl rfl, fun _ => rfl⟩
  rw [update_of_ne fits]
  by_cases same : clientKey clientBadge = generateBadge rand (pidAfter s.allocated)
  · rw [same, update_self]
    exact ⟨fun _ => .inr rfl, fun _ => rfl⟩
  rw [update_of_ne same]
  constructor
  · intro entry
    exact absurd (registered.values _ _ entry) (Nat.lt_irrefl _)
  · intro either
    rcases either with equal | equal
    · exact absurd equal fits
    · exact absurd equal same

theorem Registered.init_found_iff (found : Found s.procs map) (clientBadge : BitVec 64)
    (rand : Rand) : Found (s.procs ++ [givenNode s clientBadge]) (update (drawnMap s map rand)
          clientBadge (some s.procs.length)) ↔
      BadgeFree s (.init clientBadge rand) := by
  have key := clientKey_generateBadge rand (pidAfter s.allocated)
  have live : (givenNode s clientBadge).state ≠ .exit := fun ended => nomatch ended
  rw [found_concat_iff _ _ live, found_update_iff, drawnMap, found_update_iff, givenNode,
    registered.init_self_iff, BadgeFree, registered.partsFree_iff, registered.partsFree_iff,
    badge, badge, key]
  constructor
  · rintro ⟨⟨given, drawn, -⟩, self⟩
    refine ⟨?_, drawn, self⟩
    intro p proc entry procLive
    rcases self with fits | parts
    · rw [fits]
      exact given p proc entry procLive
    · rw [parts_eq_iff, badge, badge, key] at parts
      rw [parts]
      exact drawn p proc entry procLive
  · rintro ⟨given, drawn, self⟩
    refine ⟨⟨?_, drawn, found⟩, self⟩
    -- a key of the look-up is a badge that was widened, so it is the given one only if that is
    intro p proc entry procLive same
    have widened := clientKey_clientKey proc.badge
    rw [same] at widened
    exact given p proc entry procLive (same.trans widened.symm)

theorem Registered.recycle (found : Found s.procs map) (p : Nat) :
    Registered (recycleProc s p) map ∧ Found (recycleProc s p).procs map := by
  rw [recycleProc]
  cases entry : s.procs[p]? with
  | none => exact ⟨registered, found⟩
  | some proc =>
    by_cases ended : proc.state = .exit
    · simp only [if_pos ended]
      exact ⟨registered, found⟩
    have lookup : procmgrFindClientProc s proc.badge = some p :=
      (registered.stands.get _).trans (found p proc entry ended)
    simp only [if_neg ended, lookup]
    -- an entry after the step is the entry before it, perhaps marked
    have before : ∀ (q : Nat) other,
        (s.procs.modify p fun proc => { proc with state := .exit })[q]? = some other →
        ∃ old, s.procs[q]? = some old ∧ other.badge = old.badge ∧
          other.origin = old.origin ∧ (other.state ≠ .exit → old.state ≠ .exit) := by
      intro q other after
      rw [getElem?_modify] at after
      obtain ⟨old, was, result⟩ := Option.map_eq_some_iff.mp after
      refine ⟨old, was, ?_⟩
      split at result
      · rw [← result]
        exact ⟨rfl, rfl, fun live => absurd rfl live⟩
      · rw [← result]
        exact ⟨rfl, rfl, id⟩
    refine ⟨⟨registered.stands, ?_, registered.pids, registered.maxId, ?_⟩, ?_⟩
    · intro key q mapped
      rw [length_modify]
      exact registered.values key q mapped
    · intro q other after
      obtain ⟨old, was, badge, origin, -⟩ := before q other after
      rw [badge, origin]
      exact registered.badges q old was
    · intro q other after live
      obtain ⟨old, was, badge, -, stays⟩ := before q other after
      rw [badge]
      exact found q old was (stays live)

end Found

/-! ## Runs -/

/-- What holds as long as every creation found its badge free. -/
def ProcInv (s : Procmgr) : Prop :=
  ∃ map, Registered s map ∧ Found s.procs map

theorem procInv_identified {s : Procmgr} (inv : ProcInv s) : Identified s := by
  obtain ⟨map, registered, found⟩ := inv
  exact registered.identified_iff.mpr found

/-- A creation keeps the invariant if the badge is free, and only then leaves the processes
identified. -/
theorem procStep_exact {s : Procmgr} (inv : ProcInv s) (op : ProcOp) :
    (BadgeFree s op → ProcInv (procStep s op)) ∧
      (Identified (procStep s op) → BadgeFree s op) := by
  obtain ⟨map, registered, found⟩ := inv
  cases op with
  | newproc rand launched =>
    obtain ⟨procs, after⟩ := registered.newproc rand launched
    have kept := registered.newproc_found_iff found rand launched
    rw [← procs] at kept
    exact ⟨fun free => ⟨_, after, kept.mpr free⟩,
      fun identified => kept.mp (after.identified_iff.mp identified)⟩
  | init clientBadge rand =>
    obtain ⟨procs, after⟩ := registered.init clientBadge rand
    have kept := registered.init_found_iff found clientBadge rand
    rw [← procs] at kept
    exact ⟨fun free => ⟨_, after, kept.mpr free⟩,
      fun identified => kept.mp (after.identified_iff.mp identified)⟩
  | recycle p => exact ⟨fun _ => ⟨map, registered.recycle found p⟩, fun _ => trivial⟩

/-- Badges identify processes in every state of a run exactly if every creation found its badge
free. -/
theorem badges_identify_iff (ops : List ProcOp) : RunMeets procStep BadgeFree initProcmgr ops ↔
      ∀ pre, pre <+: ops → Identified (pre.foldl procStep initProcmgr) := by
  apply run_exact procStep BadgeFree ProcInv Identified
  · intro s inv
    exact procInv_identified inv
  · intro s op inv free
    exact (procStep_exact inv op).1 free
  · intro s op inv identified
    exact (procStep_exact inv op).2 identified
  · refine ⟨_, initProcmgr_registered, ?_⟩
    intro p proc entry
    cases entry

def drawOneThenZeros (later : Nat) : Procmgr :=
  (replicate later (ProcOp.newproc 0 true)).foldl procStep
    (procStep initProcmgr (.newproc 1 true))

theorem drawOneThenZeros_registered (later : Nat) : ∃ map, Registered (drawOneThenZeros later) map ∧
      (drawOneThenZeros later).procs.length = later + 1 ∧
      (drawOneThenZeros later).allocated = later + 1 ∧
      (drawOneThenZeros later).procs[0]? = some (drawnNode initProcmgr 1 true) := by
  induction later with
  | zero =>
    obtain ⟨procs, registered⟩ := initProcmgr_registered.newproc 1 true
    have procs : (drawOneThenZeros 0).procs = [drawnNode initProcmgr 1 true] := procs
    refine ⟨_, registered, ?_, rfl, ?_⟩
    · rw [procs]
      rfl
    · rw [procs]
      rfl
  | succ later ih =>
    obtain ⟨map, registered, length, allocated, first⟩ := ih
    have step : drawOneThenZeros (later + 1) = handleNewproc (drawOneThenZeros later) 0 true := by
      rw [drawOneThenZeros, replicate_succ', foldl_append]
      rfl
    obtain ⟨procs, after⟩ := registered.newproc 0 true
    rw [step]
    refine ⟨_, after, ?_, ?_, ?_⟩
    · rw [procs, length_append, length]
      rfl
    · exact congrArg (· + 1) allocated
    · rw [procs, getElem?_concat_eq]
      exact .inl first

/-- The process with pid 1024 has the badge of the process with pid 0, and is found for it. -/
theorem badges_collide : ∃ first last, (drawOneThenZeros 1024).procs[0]? = some first ∧
      (drawOneThenZeros 1024).procs[1024]? = some last ∧
      first.state = .running ∧ last.state = .running ∧ first.badge = last.badge ∧
      procmgrFindClientProc (drawOneThenZeros 1024) first.badge = some 1024 := by
  obtain ⟨map, registered, length, allocated, first⟩ := drawOneThenZeros_registered 1023
  have step : drawOneThenZeros 1024 = handleNewproc (drawOneThenZeros 1023) 0 true := by
    rw [drawOneThenZeros, replicate_succ', foldl_append]
    rfl
  obtain ⟨procs, after⟩ := registered.newproc 0 true
  have same : (drawnNode initProcmgr 1 true).badge =
      generateBadge 0 (pidAfter (drawOneThenZeros 1023).allocated) := by
    rw [allocated]
    decide
  rw [step]
  refine ⟨drawnNode initProcmgr 1 true, drawnNode (drawOneThenZeros 1023) 0 true, ?_, ?_, rfl, rfl,
    same, ?_⟩
  · rw [procs, getElem?_concat_eq]
    exact .inl first
  · rw [procs, getElem?_concat_eq]
    exact .inr ⟨length.symm, rfl⟩
  · rw [procmgrFindClientProc, same, clientKey_generateBadge, after.stands.get, drawnMap,
      update_self, length]

end KernelLabs.ChCore
