import Mathlib.Algebra.BigOperators.Fin
import Mathlib.Data.Set.Card

/-!
# Tries of fixed depth

A node of level 0 holds values, a node of level `l + 1` points to nodes of level `l`, and
both have one place for each digit.  Level `l` of the walk for a key takes the digit
`index l key`.  Nodes are made on the way to a place that is changed and never before.
When the digits determine the key a trie is a map from keys to values, and its list of
values has every value as often as it is mapped to.
-/

set_option autoImplicit false

namespace KernelLabs.Lib

open Function List Option Finset

inductive Trie (size : Nat) (V : Type) : Nat → Type where
  | null {l : Nat} : Trie size V l
  | leaf (values : Fin size → Option V) : Trie size V 0
  | node {l : Nat} (children : Fin size → Trie size V l) : Trie size V (l + 1)

namespace Trie

section Operations
variable {size : Nat} {V Key : Type} (index : Nat → Key → Fin size)

/-- The places of a leaf; a leaf still to be made has nothing in them. -/
def slots : Trie size V 0 → Fin size → Option V
  | .null => fun _ => none
  | .leaf values => values

/-- The places of an inner node; a node still to be made has null pointers in them. -/
def children {l : Nat} : Trie size V (l + 1) → Fin size → Trie size V l
  | .null => fun _ => .null
  | .node children => children

def get : (l : Nat) → Trie size V l → Key → Option V
  | _, .null, _ => none
  | 0, .leaf values, k => values (index 0 k)
  | l + 1, .node children, k => get l (children (index (l + 1) k)) k

/-- The value at a key is changed by `f`, which may refuse; nodes are made as needed. -/
def alter (f : Option V → Option (Option V)) :
    (l : Nat) → Trie size V l → Key → Option (Trie size V l)
  | 0, t, k =>
    (f (t.slots (index 0 k))).map fun v => .leaf (update t.slots (index 0 k) v)
  | l + 1, t, k =>
    (alter f l (t.children (index (l + 1) k)) k).map fun child =>
      .node (update t.children (index (l + 1) k) child)

/-- The value at a key is taken out; no node is made, and `none` says that one is missing. -/
def clear : (l : Nat) → Trie size V l → Key → Option (Trie size V l)
  | _, .null, _ => none
  | 0, .leaf values, k => some (.leaf (update values (index 0 k) none))
  | l + 1, .node children, k =>
    (clear l (children (index (l + 1) k)) k).map fun child =>
      .node (update children (index (l + 1) k) child)

def values : (l : Nat) → Trie size V l → List V
  | _, .null => []
  | 0, .leaf values => (finRange size).filterMap values
  | l + 1, .node children => (finRange size).flatMap fun i => values l (children i)

end Operations

variable {l : Nat}

section Map
variable {size : Nat} {V Key : Type} {index : Nat → Key → Fin size}

@[simp]
theorem slots_leaf (values : Fin size → Option V) : (leaf values).slots = values := rfl

@[simp]
theorem children_node (children : Fin size → Trie size V l) :
    (node children).children = children := rfl

theorem get_zero (t : Trie size V 0) (k : Key) : get index 0 t k = t.slots (index 0 k) := by
  cases t with
  | null | leaf => rfl

theorem get_null (l : Nat) (k : Key) : get index l (.null : Trie size V l) k = none := by
  cases l with
  | zero | succ => rfl

theorem values_null (l : Nat) : values l (.null : Trie size V l) = [] := by
  cases l with
  | zero | succ => rfl

theorem get_succ (t : Trie size V (l + 1)) (k : Key) :
    get index (l + 1) t k = get index l (t.children (index (l + 1) k)) k := by
  cases t with
  | null => rw [get_null, children, get_null]
  | node children => rfl

def SameDigits (index : Nat → Key → Fin size) (l : Nat) (k k' : Key) : Prop :=
  ∀ i, i ≤ l → index i k = index i k'

theorem sameDigits_succ {k k' : Key} (top : index (l + 1) k = index (l + 1) k')
    (below : SameDigits index l k k') : SameDigits index (l + 1) k k' := by
  intro i bound
  rcases Nat.lt_or_eq_of_le bound with before | rfl
  · exact below i (Nat.le_of_lt_succ before)
  · exact top

variable {f : Option V → Option (Option V)}

/-- A change is seen at the keys that take the same way down and at no other. -/
theorem get_alter :
    ∀ {t t' : Trie size V l} {k : Key}, alter index f l t k = some t' →
      f (get index l t k) = some (get index l t' k) ∧
      ∀ k', ¬ SameDigits index l k k' → get index l t' k' = get index l t k' := by
  induction l with
  | zero =>
    intro t t' k altered
    obtain ⟨v, changed, rfl⟩ := map_eq_some_iff.mp altered
    constructor
    · rw [get_zero, get_zero, slots_leaf, update_self, changed]
    intro k' other
    have apart : index 0 k' ≠ index 0 k := by
      intro same
      apply other
      intro i below
      rw [Nat.le_zero.mp below, same]
    rw [get_zero, get_zero, slots_leaf, update_of_ne apart]
  | succ l ih =>
    intro t t' k altered
    obtain ⟨child, changed, rfl⟩ := map_eq_some_iff.mp altered
    obtain ⟨here, elsewhere⟩ := ih changed
    constructor
    · rw [get_succ, get_succ, children_node, update_self]
      exact here
    intro k' other
    rw [get_succ, get_succ, children_node]
    by_cases same : index (l + 1) k' = index (l + 1) k
    · rw [same, update_self]
      exact elsewhere k' fun below => other (sameDigits_succ same.symm below)
    · rw [update_of_ne same]

theorem alter_of_accepts :
    ∀ {t : Trie size V l} {k : Key} {v : Option V}, f (get index l t k) = some v →
      ∃ t', alter index f l t k = some t' := by
  induction l with
  | zero =>
    intro t k v accepts
    rw [get_zero] at accepts
    exact ⟨_, by rw [alter, accepts, map_some]⟩
  | succ l ih =>
    intro t k v accepts
    rw [get_succ] at accepts
    obtain ⟨child, altered⟩ := ih accepts
    exact ⟨_, by rw [alter, altered, map_some]⟩

theorem alter_of_clear : ∀ {t t' : Trie size V l} {k : Key}, clear index l t k = some t' →
      alter index (fun _ => some none) l t k = some t' := by
  induction l with
  | zero =>
    intro t t' k cleared
    cases t with
    | null => cases cleared
    | leaf values => exact cleared
  | succ l ih =>
    intro t t' k cleared
    cases t with
    | null => cases cleared
    | node children =>
      obtain ⟨child, inner, rfl⟩ := map_eq_some_iff.mp cleared
      rw [alter, children_node, ih inner, map_some]

theorem get_of_clear_none :
    ∀ {t : Trie size V l} {k : Key}, clear index l t k = none → get index l t k = none := by
  induction l with
  | zero =>
    intro t k missing
    cases t with
    | null => rfl
    | leaf values => cases missing
  | succ l ih =>
    intro t k missing
    cases t with
    | null => rfl
    | node children => exact ih (map_eq_none_iff.mp missing)

end Map

section Count
variable {size : Nat} {V Key : Type} {index : Nat → Key → Fin size}

theorem sum_update_add {ι α : Type} [Fintype ι] [DecidableEq ι] (g : ι → α) (c : α → Nat)
    (i : ι) (x : α) : ∑ j, c (update g i x j) + c (g i) = ∑ j, c (g j) + c x := by
  have rest : ∑ j ∈ univ.erase i, c (update g i x j) =
      ∑ j ∈ univ.erase i, c (g j) := by
    apply sum_congr rfl
    intro j other
    rw [update_of_ne (ne_of_mem_erase other)]
  rw [← add_sum_erase _ _ (mem_univ i), rest, update_self,
    ← add_sum_erase _ (fun j => c (g j)) (mem_univ i)]
  omega

theorem values_zero (t : Trie size V 0) :
    values 0 t = (finRange size).flatMap fun i => (t.slots i).toList := by
  cases t with
  | null => simp [values, slots]
  | leaf values => rw [Trie.values, slots, filterMap_eq_flatMap_toList]

theorem values_succ (t : Trie size V (l + 1)) :
    values (l + 1) t = (finRange size).flatMap fun i => values l (t.children i) := by
  cases t with
  | null => simp [values, children]
  | node children => rfl

variable [DecidableEq V]

theorem count_flatMap_finRange (g : Fin size → List V) (v : V) :
    ((finRange size).flatMap g).count v = ∑ i, (g i).count v := by
  rw [count_flatMap, Fin.sum_univ_def]
  rfl

/-- A change takes the old value at the key out of the list of values and puts the new one
into it. -/
theorem count_values_alter {f : Option V → Option (Option V)} (v : V) :
    ∀ {t t' : Trie size V l} {k : Key}, alter index f l t k = some t' →
      (values l t').count v + (get index l t k).toList.count v =
        (values l t).count v + (get index l t' k).toList.count v := by
  induction l with
  | zero =>
    intro t t' k altered
    obtain ⟨new, changed, rfl⟩ := map_eq_some_iff.mp altered
    rw [values_zero, values_zero, count_flatMap_finRange, count_flatMap_finRange, get_zero,
      get_zero, slots_leaf, update_self]
    exact sum_update_add t.slots (fun o => o.toList.count v) (index 0 k) new
  | succ l ih =>
    intro t t' k altered
    obtain ⟨child, changed, rfl⟩ := map_eq_some_iff.mp altered
    have below := ih changed
    have level := sum_update_add t.children (fun c => (values l c).count v) (index (l + 1) k) child
    rw [values_succ, values_succ, count_flatMap_finRange, count_flatMap_finRange, get_succ,
      get_succ, children_node, update_self]
    omega

theorem ncard_update [Finite Key] [DecidableEq Key] (m : Key → Option V) (k : Key)
    (x : Option V) (v : V) : {q | update m k x q = some v}.ncard + (m k).toList.count v =
      {q | m q = some v}.ncard + x.toList.count v := by
  have := Fintype.ofFinite Key
  have counted : ∀ m : Key → Option V, {q | m q = some v}.ncard = ∑ q, (m q).toList.count v := by
    intro m
    rw [Set.ncard_eq_toFinset_card', Set.toFinset_ofPred, card_filter]
    apply sum_congr rfl
    intro q _
    cases value : m q with
    | none => simp
    | some w =>
      by_cases same : w = v
      · simp [same]
      · simp [same]
  rw [counted, counted]
  exact sum_update_add m (fun o => o.toList.count v) k x

end Count

end Trie

end KernelLabs.Lib
