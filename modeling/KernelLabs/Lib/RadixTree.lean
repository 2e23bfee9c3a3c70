import Mathlib.Data.Nat.Basic
import Mathlib.Data.Option.Basic

/-!
# Radix trees in memory

A tree of tables: level `l` of the walk for a key reads entry `index l key` of the
current table, and `child` says which table an entry points to.  When no table is
reached along two different paths, an entry written into a table of the last level
changes no walk, and a fresh table hung under an empty entry changes only the walks
that lead to it.
-/

set_option autoImplicit false

namespace KernelLabs.Lib

open Option

variable {m : Nat}

section Walks
variable {Frame Idx Key Entry : Type} (index : Nat → Key → Idx) (child : Entry → Option Frame)

def tableAt (mem : Frame → Idx → Entry) (root : Frame) : Nat → Key → Option Frame
  | 0, _ => some root
  | l + 1, k => (tableAt mem root l k).bind fun f => child (mem f (index l k))

def SamePath (l : Nat) (k k' : Key) : Prop := ∀ j, j < l → index j k = index j k'

/-- No table down to level `depth` is reached along two paths. -/
def NoSharing (depth : Nat) (mem : Frame → Idx → Entry) (root : Frame) : Prop :=
  ∀ l l' k k' f, l ≤ depth → l' ≤ depth → tableAt index child mem root l k = some f →
    tableAt index child mem root l' k' = some f → l = l' ∧ SamePath index l k k'

def Fresh (depth : Nat) (mem : Frame → Idx → Entry) (root g : Frame) : Prop :=
  ∀ l k, l ≤ depth → tableAt index child mem root l k ≠ some g

variable {index child} {mem mem' : Frame → Idx → Entry} {root f g : Frame} {depth : Nat}

variable {l : Nat} {k k' : Key}

theorem SamePath.symm (same : SamePath index l k k') : SamePath index l k' k :=
  fun j below => (same j below).symm

theorem SamePath.trans {k'' : Key} (first : SamePath index l k k')
    (second : SamePath index l k' k'') : SamePath index l k k'' :=
  fun j below => (first j below).trans (second j below)

theorem SamePath.mono (same : SamePath index m k k') (le : l ≤ m) : SamePath index l k k' :=
  fun j below => same j (lt_of_lt_of_le below le)

theorem samePath_succ :
    SamePath index (l + 1) k k' ↔ SamePath index l k k' ∧ index l k = index l k' := by
  constructor
  · intro same
    exact ⟨same.mono (Nat.le_succ l), same l (Nat.lt_succ_self l)⟩
  · rintro ⟨same, last⟩ j below
    rcases Nat.lt_succ_iff_lt_or_eq.mp below with before | rfl
    · exact same j before
    · exact last

theorem tableAt_congr : ∀ l, SamePath index l k k' →
    tableAt index child mem root l k = tableAt index child mem root l k' := by
  intro l
  induction l with
  | zero => intro _; rfl
  | succ l ih =>
    intro same
    obtain ⟨before, last⟩ := samePath_succ.mp same
    simp only [tableAt, ih before, last]

theorem tableAt_eq_of_entries : ∀ l,
    (∀ j f, j < l → tableAt index child mem root j k = some f →
      mem' f (index j k) = mem f (index j k)) →
    tableAt index child mem' root l k = tableAt index child mem root l k := by
  intro l
  induction l with
  | zero => intro _; rfl
  | succ l ih =>
    intro same
    have before := ih fun j f below => same j f (Nat.lt_succ_of_lt below)
    simp only [tableAt, before]
    cases table : tableAt index child mem root l k with
    | none => rfl
    | some f => simp only [bind_some, same l f (Nat.lt_succ_self l) table]

theorem tableAt_none_mono (le : l ≤ m) (missing : tableAt index child mem root l k = none) :
    tableAt index child mem root m k = none := by
  induction m with
  | zero => rw [Nat.le_zero.mp le] at missing; exact missing
  | succ m ih =>
    by_cases eq : l = m + 1
    · rw [← eq]; exact missing
    · have before := ih (Nat.le_of_lt_succ (lt_of_le_of_ne le eq))
      simp only [tableAt, before, bind_none]

theorem NoSharing.samePath (sharing : NoSharing index child depth mem root) (le : l ≤ depth)
    (table : tableAt index child mem root l k = some f)
    (table' : tableAt index child mem root l k' = some f) (last : index l k = index l k') :
    SamePath index (l + 1) k k' :=
  samePath_succ.mpr ⟨(sharing l l k k' f le le table table').2, last⟩

end Walks

section Writes
variable {Frame Idx Key Entry : Type} [DecidableEq Frame] [DecidableEq Idx]

def setEntry (mem : Frame → Idx → Entry) (f : Frame) (i : Idx) (e : Entry) : Frame → Idx → Entry :=
  fun f' i' => if f' = f ∧ i' = i then e else mem f' i'

def fillTable (mem : Frame → Idx → Entry) (f : Frame) (e : Entry) : Frame → Idx → Entry :=
  fun f' i' => if f' = f then e else mem f' i'

theorem setEntry_self (mem : Frame → Idx → Entry) (f : Frame) (i : Idx) (e : Entry) :
    setEntry mem f i e f i = e := by
  simp [setEntry]

theorem setEntry_of_ne (mem : Frame → Idx → Entry) (f : Frame) (i : Idx) (e : Entry) (f' : Frame)
    (i' : Idx) (ne : ¬ (f' = f ∧ i' = i)) : setEntry mem f i e f' i' = mem f' i' :=
  if_neg ne

variable {index : Nat → Key → Idx} {child : Entry → Option Frame} {mem : Frame → Idx → Entry}
  {root f g : Frame} {depth : Nat}

/-! ## Writing into a last table -/

section Leaf
variable (sharing : NoSharing index child depth mem root) {k : Key}
  (table : tableAt index child mem root depth k = some f) (i : Idx) (e : Entry)

include sharing table

theorem tableAt_setEntry_leaf (l : Nat) (le : l ≤ depth) (k' : Key) :
    tableAt index child (setEntry mem f i e) root l k' = tableAt index child mem root l k' := by
  apply tableAt_eq_of_entries
  intro j f' below here
  apply setEntry_of_ne
  rintro ⟨rfl, _⟩
  have levels := sharing j depth k' k f' (le_trans (Nat.le_of_lt below) le) (le_refl depth) here table
  exact absurd levels.1 (ne_of_lt (lt_of_lt_of_le below le))

theorem noSharing_setEntry_leaf : NoSharing index child depth (setEntry mem f i e) root := by
  intro l l' k1 k2 f' le le' first second
  rw [tableAt_setEntry_leaf sharing table i e l le] at first
  rw [tableAt_setEntry_leaf sharing table i e l' le'] at second
  exact sharing l l' k1 k2 f' le le' first second

end Leaf

/-! ## A fresh table under an empty entry -/

/-- `g` is filled with `blank` and hung under entry `index l k` of `f`. -/
def graft (index : Nat → Key → Idx) (mem : Frame → Idx → Entry) (f g : Frame) (l : Nat) (k : Key)
    (blank pointer : Entry) : Frame → Idx → Entry :=
  setEntry (fillTable mem g blank) f (index l k) pointer

section Graft
variable {l : Nat} {k : Key} {blank pointer : Entry}
  (fresh : Fresh index child depth mem root g) (deep : l < depth)
  (table : tableAt index child mem root l k = some f)

include fresh deep table

theorem graft_new_entry (i : Idx) : graft index mem f g l k blank pointer g i = blank := by
  have notOld : ¬ (g = f ∧ i = index l k) := by
    rintro ⟨rfl, _⟩
    exact fresh l k (Nat.le_of_lt deep) table
  rw [graft, setEntry_of_ne _ _ _ _ _ _ notOld, fillTable, if_pos rfl]

variable (sharing : NoSharing index child depth mem root)

include sharing

theorem graft_entry {j : Nat} {k' : Key} {f' : Frame} (le : j ≤ depth)
    (here : tableAt index child mem root j k' = some f')
    (other : ¬ (j = l ∧ SamePath index (l + 1) k k')) :
    graft index mem f g l k blank pointer f' (index j k') = mem f' (index j k') := by
  have notNew : f' ≠ g := fun eq => fresh j k' le (by rw [here, eq])
  rw [graft, setEntry_of_ne]
  · exact if_neg notNew
  · rintro ⟨rfl, last⟩
    obtain ⟨level, path⟩ := sharing j l k' k f' le (Nat.le_of_lt deep) here table
    subst level
    exact other ⟨rfl, samePath_succ.mpr ⟨path.symm, last.symm⟩⟩

theorem tableAt_graft_other {k' : Key} (other : ¬ SamePath index (l + 1) k k') (le : m ≤ depth) :
    tableAt index child (graft index mem f g l k blank pointer) root m k' =
      tableAt index child mem root m k' := by
  apply tableAt_eq_of_entries
  intro j f' below here
  exact graft_entry fresh deep table sharing (le_trans (Nat.le_of_lt below) le) here
    (fun both => other both.2)

theorem tableAt_graft_above (k' : Key) (le : m ≤ l) :
    tableAt index child (graft index mem f g l k blank pointer) root m k' =
      tableAt index child mem root m k' := by
  apply tableAt_eq_of_entries
  intro j f' below here
  refine graft_entry fresh deep table sharing ?_ here ?_
  · exact le_trans (Nat.le_of_lt below) (le_trans le (Nat.le_of_lt deep))
  · rintro ⟨rfl, _⟩
    exact absurd le (not_le_of_gt below)

variable (points : child pointer = some g) (empty : child blank = none)

include points in
theorem tableAt_graft_new (k' : Key) (same : SamePath index (l + 1) k k') :
    tableAt index child (graft index mem f g l k blank pointer) root (l + 1) k' = some g := by
  obtain ⟨path, last⟩ := samePath_succ.mp same
  have above : tableAt index child (graft index mem f g l k blank pointer) root l k' = some f := by
    rw [tableAt_graft_above fresh deep table sharing k' (le_refl l), ← tableAt_congr l path, table]
  rw [tableAt, above, bind_some, graft, ← last, setEntry_self, points]

include points empty in
theorem tableAt_graft_below (k' : Key) (same : SamePath index (l + 1) k k') (m : Nat)
    (lt : l + 1 < m) :
    tableAt index child (graft index mem f g l k blank pointer) root m k' = none := by
  refine tableAt_none_mono lt ?_
  rw [tableAt, tableAt_graft_new fresh deep table sharing points k' same, bind_some,
    graft_new_entry fresh deep table, empty]

include points empty in
theorem tableAt_graft_old (k' : Key) (m : Nat) (le : m ≤ depth) (f' : Frame) (old : f' ≠ g)
    (here : tableAt index child (graft index mem f g l k blank pointer) root m k' = some f') :
    tableAt index child mem root m k' = some f' := by
  by_cases same : SamePath index (l + 1) k k'
  · rcases lt_trichotomy m (l + 1) with above | at_new | below
    · rw [← here, tableAt_graft_above fresh deep table sharing k' (Nat.le_of_lt_succ above)]
    · subst at_new
      rw [tableAt_graft_new fresh deep table sharing points k' same] at here
      exact absurd (Option.some.inj here).symm old
    · rw [tableAt_graft_below fresh deep table sharing points empty k' same m below] at here
      cases here
  · rw [← here, tableAt_graft_other fresh deep table sharing same le]

include points empty in
theorem tableAt_graft_eq_new (k' : Key) (m : Nat) (le : m ≤ depth)
    (here : tableAt index child (graft index mem f g l k blank pointer) root m k' = some g) :
    m = l + 1 ∧ SamePath index (l + 1) k k' := by
  by_cases same : SamePath index (l + 1) k k'
  · refine ⟨?_, same⟩
    rcases lt_trichotomy m (l + 1) with above | at_new | below
    · rw [tableAt_graft_above fresh deep table sharing k' (Nat.le_of_lt_succ above)] at here
      exact absurd here (fresh m k' le)
    · exact at_new
    · rw [tableAt_graft_below fresh deep table sharing points empty k' same m below] at here
      cases here
  · rw [tableAt_graft_other fresh deep table sharing same le] at here
    exact absurd here (fresh m k' le)

include points empty in
theorem noSharing_graft :
    NoSharing index child depth (graft index mem f g l k blank pointer) root := by
  intro m m' k1 k2 f' le le' first second
  by_cases new : f' = g
  · subst new
    obtain ⟨at1, same1⟩ := tableAt_graft_eq_new fresh deep table sharing points empty k1 m le first
    obtain ⟨at2, same2⟩ :=
      tableAt_graft_eq_new fresh deep table sharing points empty k2 m' le' second
    subst at1 at2
    exact ⟨rfl, same1.symm.trans same2⟩
  · exact sharing m m' k1 k2 f' le le'
      (tableAt_graft_old fresh deep table sharing points empty k1 m le f' new first)
      (tableAt_graft_old fresh deep table sharing points empty k2 m' le' f' new second)

include points empty in
theorem fresh_graft (h : Frame) (ne : h ≠ g) (freshH : Fresh index child depth mem root h) :
    Fresh index child depth (graft index mem f g l k blank pointer) root h := by
  intro m k' le here
  exact freshH m k' le (tableAt_graft_old fresh deep table sharing points empty k' m le h ne here)

end Graft

end Writes

end KernelLabs.Lib
