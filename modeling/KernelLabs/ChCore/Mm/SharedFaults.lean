import KernelLabs.ChCore.Common.Radix
import KernelLabs.ChCore.Mm.Uaccess

/-!
# Page faults of several vmspaces on one pmo

Model of `handle_trans_fault` on a `PMO_SHM` or `PMO_ANONYM` pmo that several vmspaces map.  A
fault holds the lock of its own vmspace only.  It looks up the page of its index and, if there is
none, commits a new one in a second atomic step; other vmspaces may fault in between.  A `BUG_ON`
that fires is `none`.
-/

set_option autoImplicit false

namespace KernelLabs.ChCore

open Lib Function Option

/-- A call of `map_range_in_pgtbl`, with the index of the page in the pmo. -/
structure PageMapping (V : Type) where
  vmspace : V
  va : Nat
  index : BitVec 64
  pa : Nat

/-- Who has the lock of a vmspace: a fault that has found no page, or one that has returned
`-ENOMAPPING` without giving it back. -/
inductive FaultLock where
  | free
  | missed (va : Nat) (index : BitVec 64)
  | kept

structure SharedPmo (V : Type) where
  radix : KernelRadix Nat
  lock : V → FaultLock
  commits : List (BitVec 64)
  mappings : List (PageMapping V)

/-- In `commit`, `page` is what `get_pages` gives, 0 for nothing, and `nodes` says whether
`radix_add` gets the nodes it needs. -/
inductive FaultStep (V : Type) where
  | lookup (v : V) (faultAddr : Nat)
  | commit (v : V) (page : Nat) (nodes : Bool)

section Faults
variable {V : Type} [DecidableEq V] (regions : V → List Vmregion) (pmo size : Nat)

def SharedPmo.lookup (s : SharedPmo V) (v : V) (faultAddr : Nat) : Option (SharedPmo V) :=
  match s.lock v with
  | .free =>
    match findVmr (regions v) faultAddr with
    | none => some { s with lock := update s.lock v .kept }
    | some vmr =>
      let va := roundDown faultAddr
      let offset := subU64 va vmr.start
      let index := BitVec.ofNat 64 (offset / pageSize)
      if vmr.pmo ≠ pmo then some s -- another pmo
      else if size ≤ offset then none
      else match radixGet s.radix index with
        | none => some { s with lock := update s.lock v (.missed va index) }
        | some pa => some { s with mappings := ⟨v, va, index, pa⟩ :: s.mappings }
  | _ => some s -- still waiting

def SharedPmo.commit (s : SharedPmo V) (v : V) (page : Nat) (nodes : Bool) :
    Option (SharedPmo V) :=
  match s.lock v with
  | .missed va index =>
    if page = 0 ∨ nodes = false then none
    else (kernelRadixAdd s.radix index (some page)).map fun radix =>
      { radix := radix
        lock := update s.lock v .free
        commits := index :: s.commits
        mappings := ⟨v, va, index, page⟩ :: s.mappings }
  | _ => some s

def faultStep (s : Option (SharedPmo V)) (a : FaultStep V) : Option (SharedPmo V) :=
  s.bind fun s =>
    match a with
    | .lookup v faultAddr => s.lookup regions pmo size v faultAddr
    | .commit v page nodes => s.commit v page nodes

def freshPmo : SharedPmo V := ⟨initRadixWDeleter false, fun _ => .free, [], []⟩

structure OnePageEach (s : SharedPmo V) : Prop where
  committed : ∀ m ∈ s.mappings, s.commits.count m.index = 1
  once : ∀ i, s.commits.count i ≤ 1
  same : ∀ m ∈ s.mappings, ∀ m' ∈ s.mappings, m.index = m'.index → m.pa = m'.pa

/-- A fault lies inside the pmo.  When it commits a page, memory is left, and no other vmspace has
committed one for the index since the look-up. -/
def Alone (s : SharedPmo V) : FaultStep V → Prop
  | .lookup v faultAddr => ∀ vmr, s.lock v = .free → findVmr (regions v) faultAddr = some vmr →
      vmr.pmo = pmo → subU64 (roundDown faultAddr) vmr.start < size
  | .commit v page nodes => ∀ va index, s.lock v = .missed va index →
      page ≠ 0 ∧ nodes = true ∧ radixGet s.radix index = none

structure FaultInv (s : SharedPmo V) : Prop where
  stands : Stands s.radix (radixGet s.radix)
  count : ∀ i, s.commits.count i = if radixGet s.radix i = none then 0 else 1
  mapped : ∀ m ∈ s.mappings, radixGet s.radix m.index = some m.pa

variable {regions pmo size} {s s' : SharedPmo V}

omit [DecidableEq V] in
theorem FaultInv.onePageEach (inv : FaultInv s) : OnePageEach s where
  committed m member := by rw [inv.count, inv.mapped m member]; rfl
  once i := by
    rw [inv.count]
    split <;> decide
  same m member m' member' same := by
    have page := inv.mapped m member
    rw [same, inv.mapped m' member'] at page
    exact (Option.some.inj page).symm

theorem FaultInv.lookup (inv : FaultInv s) {v : V} {faultAddr : Nat}
    (inside : Alone regions pmo size s (.lookup v faultAddr)) :
    ∃ s', s.lookup regions pmo size v faultAddr = some s' ∧ FaultInv s' := by
  rw [SharedPmo.lookup]
  cases lock : s.lock v with
  | missed | kept => exact ⟨s, rfl, inv⟩
  | free =>
    cases found : findVmr (regions v) faultAddr with
    | none => exact ⟨_, rfl, inv.stands, inv.count, inv.mapped⟩
    | some vmr =>
      by_cases mine : vmr.pmo = pmo
      · have offset := inside vmr lock found mine
        simp only [mine, ne_eq, not_true_eq_false, if_false, if_neg (Nat.not_le.mpr offset)]
        generalize BitVec.ofNat 64 (subU64 (roundDown faultAddr) vmr.start / pageSize) = index
        cases page : radixGet s.radix index with
        | none => exact ⟨_, rfl, inv.stands, inv.count, inv.mapped⟩
        | some pa =>
          exact ⟨_, rfl, inv.stands, inv.count, List.forall_mem_cons.mpr ⟨page, inv.mapped⟩⟩
      · exact ⟨s, if_pos mine, inv⟩

theorem FaultInv.commit (inv : FaultInv s) {v : V} {page : Nat} {nodes : Bool}
    (alone : Alone regions pmo size s (.commit v page nodes)) :
    ∃ s', s.commit v page nodes = some s' ∧ FaultInv s' := by
  rw [SharedPmo.commit]
  cases lock : s.lock v with
  | free | kept => exact ⟨s, rfl, inv⟩
  | missed va index =>
    obtain ⟨pos, memory, absent⟩ := alone va index lock
    obtain ⟨radix, added, _, stands⟩ := kernelRadixStep_stands inv.stands (.add index page) absent
    have get : radixGet radix = update (radixGet s.radix) index (some page) := funext stands.get
    have add : kernelRadixAdd s.radix index (some page) = some radix := added
    simp only [pos, memory, add, or_false, Bool.true_eq_false, if_false, map_some]
    refine ⟨_, rfl, get ▸ stands, fun i => ?_, List.forall_mem_cons.mpr ⟨?_, fun m member => ?_⟩⟩
    · rw [List.count_cons, inv.count, get]
      by_cases here : i = index
      · subst here
        simp [absent]
      · simp [here, Ne.symm here]
    · rw [get, update_self]
    · have other : m.index ≠ index := by
        intro same
        have old := inv.mapped m member
        rw [same, absent] at old
        cases old
      rw [get, update_of_ne other, inv.mapped m member]

/-- A fault that does not stop has met the condition. -/
theorem alone_of_step {a : FaultStep V} (step : faultStep regions pmo size (some s) a = some s') :
    Alone regions pmo size s a := by
  cases a with
  | lookup v faultAddr =>
    intro vmr lock found mine
    by_contra outside
    simp only [faultStep, bind_some, SharedPmo.lookup, lock, found, mine, ne_eq,
      not_true_eq_false, if_false, if_pos (Nat.not_lt.mp outside)] at step
    cases step
  | commit v page nodes =>
    intro va index lock
    simp only [faultStep, bind_some, SharedPmo.commit, lock] at step
    obtain ⟨memory, step⟩ := ite_none_left_eq_some.mp step
    obtain ⟨pos, some_⟩ := not_or.mp memory
    obtain ⟨radix, added, _⟩ := map_eq_some_iff.mp step
    obtain ⟨root, altered, _⟩ := map_eq_some_iff.mp added
    have accepted := (Trie.get_alter altered).1
    refine ⟨pos, by simpa using some_, ?_⟩
    by_contra present
    have there : (radixGet s.radix index).isSome := isSome_iff_ne_none.mpr present
    rw [radixGet] at there
    simp [there] at accepted

end Faults

end KernelLabs.ChCore
