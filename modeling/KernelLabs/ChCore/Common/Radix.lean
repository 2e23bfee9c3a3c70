import KernelLabs.Lib.Runs
import KernelLabs.Lib.Trie
import Mathlib.Data.BitVec

/-!
# Radix trees

Model of `kernel/lib/radix.c` and of the user-space
`musl-1.1.24/include/chcore/container/radix.h`.  Both are tries over the digits of a 64-bit
key, the kernel's with 16 levels of 4 bits and the user's with 8 levels of 9 bits.  They
differ in `radix_add` (the kernel stops at a key that is present, the user tree overwrites)
and in `radix_del` (the kernel adds a null pointer, the user tree walks without making
nodes).  Allocation never fails here, so no call returns `-ENOMEM`.
-/

set_option autoImplicit false

namespace KernelLabs.ChCore

open Lib Function Trie BitVec

def radixMaxBits : Nat := 64

/-- `index[i]`: the key is masked, then shifted for the next level. -/
def radixIndex (bits : Nat) : Nat → BitVec 64 → Fin (2 ^ bits)
  | 0, key =>
    ⟨(key &&& BitVec.ofNat 64 (2 ^ bits - 1)).toNat, by
      have masked := Nat.and_le_right (n := key.toNat) (m := (2 ^ bits - 1) % 2 ^ 64)
      have size := Nat.two_pow_pos bits
      rw [BitVec.toNat_and, BitVec.toNat_ofNat]
      omega⟩
  | i + 1, key => radixIndex bits i (key >>> bits)

/-- `struct radix` with `bits` bits a level and `depth + 1` levels; values are the non-null
pointers, `valueDeleter` says whether a deleter is set. -/
structure Radix (bits depth : Nat) (V : Type) where
  root : Trie (2 ^ bits) V depth
  valueDeleter : Bool

section Tree
variable {bits depth : Nat} {V : Type}

def newRadixNode : (depth : Nat) → Trie (2 ^ bits) V depth
  | 0 => .leaf fun _ => none
  | _ + 1 => .node fun _ => .null

/-- `new_radix`: the root is made by the first `radix_add`. -/
def newRadix : Radix bits depth V := ⟨.null, false⟩

/-- `init_radix_w_deleter`, and `init_radix` for no deleter. -/
def initRadixWDeleter (valueDeleter : Bool) : Radix bits depth V :=
  ⟨newRadixNode depth, valueDeleter⟩

def radixGet (radix : Radix bits depth V) (key : BitVec 64) : Option V :=
  Trie.get (radixIndex bits) depth radix.root key

/-- The walk of `radix_add`; `store` is the test at the leaf, `none` is `BUG_ON(1)`. -/
def radixStore (store : Option V → Option (Option V)) (radix : Radix bits depth V)
    (key : BitVec 64) : Option (Radix bits depth V) :=
  (Trie.alter (radixIndex bits) store depth radix.root key).map fun root =>
    { radix with root := root }

/-- `radix_free` with the calls of the deleter in order; `none` is `-EINVAL`. -/
def radixFree (radix : Radix bits depth V) : Option (List V) :=
  match radix.root with
  | .null => none
  | root => some (if radix.valueDeleter then Trie.values depth root else [])

end Tree

def kernelRadixBits : Nat := 4
def kernelRadixDepth : Nat := (radixMaxBits + kernelRadixBits - 1) / kernelRadixBits - 1

def userRadixBits : Nat := 9
def userRadixDepth : Nat := (radixMaxBits + userRadixBits - 1) / userRadixBits - 1

section Variants
variable {V : Type}

abbrev KernelRadix (V : Type) := Radix kernelRadixBits kernelRadixDepth V
abbrev UserRadix (V : Type) := Radix userRadixBits userRadixDepth V

/-- `radix_add` of the kernel: an existing key and a value that is not null is a bug. -/
def kernelRadixAdd (radix : KernelRadix V) (key : BitVec 64) (value : Option V) :
    Option (KernelRadix V) :=
  radixStore (fun old => if old.isSome ∧ value.isSome then none else some value) radix key

def kernelRadixDel (radix : KernelRadix V) (key : BitVec 64) : Option (KernelRadix V) :=
  kernelRadixAdd radix key none

def userRadixAdd (radix : UserRadix V) (key : BitVec 64) (value : Option V) :
    Option (UserRadix V) :=
  radixStore (fun _ => some value) radix key

/-- `radix_del` of the user tree, with the arguments of the deleter.  When a node is missing it
returns `-1` and the tree stays as it is. -/
def userRadixDel (radix : UserRadix V) (key : BitVec 64) (deleteValue : Bool) :
    UserRadix V × List (Option V) :=
  match Trie.clear (radixIndex userRadixBits) userRadixDepth radix.root key with
  | none => (radix, [])
  | some root =>
    ({ radix with root := root },
      if radix.valueDeleter ∧ deleteValue then [radixGet radix key] else [])

/-- A call of the tree's users; `delete_value` is an argument of the user tree only. -/
inductive RadixOp (V : Type) where
  | add (key : BitVec 64) (value : V)
  | del (key : BitVec 64) (deleteValue : Bool)

def kernelRadixStep (radix : KernelRadix V) : RadixOp V → Option (KernelRadix V)
  | .add key value => kernelRadixAdd radix key (some value)
  | .del key _ => kernelRadixDel radix key

def userRadixStep (radix : UserRadix V) : RadixOp V → Option (UserRadix V)
  | .add key value => userRadixAdd radix key (some value)
  | .del key deleteValue => some (userRadixDel radix key deleteValue).1

/-- The map a tree stands for: an operation changes it at its own key only. -/
def mapStep (map : BitVec 64 → Option V) : RadixOp V → BitVec 64 → Option V
  | .add key value => update map key (some value)
  | .del key _ => update map key none

def lastAdded (ops : List (RadixOp V)) : BitVec 64 → Option V :=
  ops.foldl mapStep fun _ => none

def AddsAbsent (map : BitVec 64 → Option V) : RadixOp V → Prop
  | .add key _ => map key = none
  | .del _ _ => True

end Variants

section Digits
variable {bits : Nat}

theorem radixIndex_zero_val (narrow : bits ≤ 64) (key : BitVec 64) :
    (radixIndex bits 0 key).val = key.toNat % 2 ^ bits := by
  have fits : 2 ^ bits ≤ 2 ^ 64 := Nat.pow_le_pow_right (by decide) narrow
  have mask : (2 ^ bits - 1) % 2 ^ 64 = 2 ^ bits - 1 := Nat.mod_eq_of_lt (by omega)
  calc (radixIndex bits 0 key).val = (key &&& BitVec.ofNat 64 (2 ^ bits - 1)).toNat := rfl
    _ = key.toNat % 2 ^ bits := by
      rw [toNat_and, toNat_ofNat, mask, Nat.and_two_pow_sub_one_eq_mod]

theorem eq_of_radixIndex_eq (narrow : bits ≤ 64) (levels : Nat) :
    ∀ {k k' : BitVec 64}, k.toNat < 2 ^ (bits * levels) → k'.toNat < 2 ^ (bits * levels) →
      (∀ i, i < levels → radixIndex bits i k = radixIndex bits i k') → k = k' := by
  induction levels with
  | zero =>
    intro k k' small small' _
    apply eq_of_toNat_eq
    rw [Nat.mul_zero, Nat.pow_zero] at small small'
    omega
  | succ levels ih =>
    intro k k' small small' same
    have low : k.toNat % 2 ^ bits = k'.toNat % 2 ^ bits := by
      rw [← radixIndex_zero_val narrow, ← radixIndex_zero_val narrow, same 0 (Nat.succ_pos levels)]
    have high : k >>> bits = k' >>> bits := by
      rw [Nat.mul_succ, Nat.pow_add] at small small'
      apply ih
      · rw [toNat_ushiftRight, Nat.shiftRight_eq_div_pow]
        exact Nat.div_lt_of_lt_mul (by rwa [Nat.mul_comm])
      · rw [toNat_ushiftRight, Nat.shiftRight_eq_div_pow]
        exact Nat.div_lt_of_lt_mul (by rwa [Nat.mul_comm])
      · intro i bound
        exact same (i + 1) (Nat.succ_lt_succ bound)
    have quotient : k.toNat / 2 ^ bits = k'.toNat / 2 ^ bits := by
      rw [← Nat.shiftRight_eq_div_pow, ← Nat.shiftRight_eq_div_pow,
        ← toNat_ushiftRight, ← toNat_ushiftRight, high]
    apply eq_of_toNat_eq
    rw [← Nat.div_add_mod k.toNat (2 ^ bits), quotient, low, Nat.div_add_mod]

structure WideEnough (bits depth : Nat) : Prop where
  narrow : bits ≤ 64
  wide : 64 ≤ bits * (depth + 1)

theorem kernelRadix_wide : WideEnough kernelRadixBits kernelRadixDepth :=
  ⟨by decide, by decide⟩

theorem userRadix_wide : WideEnough userRadixBits userRadixDepth :=
  ⟨by decide, by decide⟩

theorem eq_of_sameDigits {depth : Nat} (enough : WideEnough bits depth) {k k' : BitVec 64}
    (same : Trie.SameDigits (radixIndex bits) depth k k') : k = k' := by
  have bound : ∀ key : BitVec 64, key.toNat < 2 ^ (bits * (depth + 1)) := by
    intro key
    exact lt_of_lt_of_le key.isLt (Nat.pow_le_pow_right (by decide) enough.wide)
  apply eq_of_radixIndex_eq enough.narrow (depth + 1) (bound k) (bound k')
  intro i below
  exact same i (Nat.le_of_lt_succ below)

end Digits

section Refines
variable {bits depth : Nat} {V : Type} [DecidableEq V]

instance finiteKeys : Finite (BitVec 64) := Finite.of_equiv _ BitVec.equivFin.toEquiv.symm

/-- Every key reads as the map has it, and the values in the leaves are those of the map, each as
often as the map has it. -/
structure Stands (radix : Radix bits depth V) (map : BitVec 64 → Option V) : Prop where
  get : ∀ key, radixGet radix key = map key
  values : ∀ v, (Trie.values depth radix.root).count v = {key | map key = some v}.ncard

variable {radix : Radix bits depth V}

theorem stands_empty (unset : ∀ key, radixGet radix key = none)
    (nothing : values depth radix.root = []) : Stands radix fun _ => none := by
  constructor
  · exact unset
  · intro v
    simp [nothing]

theorem stands_newRadix : Stands (newRadix : Radix bits depth V) fun _ => none :=
  stands_empty (get_null depth) (values_null depth)

theorem stands_initRadix (valueDeleter : Bool) :
    Stands (initRadixWDeleter valueDeleter : Radix bits depth V) fun _ => none := by
  cases depth with
  | zero =>
    apply stands_empty
    · intro key
      rfl
    · exact List.filterMap_eq_nil_iff.mpr fun _ _ => rfl
  | succ depth =>
    apply stands_empty
    · exact get_null depth
    · exact List.flatMap_eq_nil_iff.mpr fun _ _ => values_null depth

variable {value : Option V}

section
variable {map : BitVec 64 → Option V} (stands : Stands radix map) (enough : WideEnough bits depth)
include stands enough

/-- One store at a key, whichever walk made it, is one update of the map. -/
theorem Stands.alter {store : Option V → Option (Option V)} {key : BitVec 64}
    (accepts : store (map key) = some value) {root : Trie (2 ^ bits) V depth}
    (altered : alter (radixIndex bits) store depth radix.root key = some root) :
    Stands { radix with root := root } (update map key value) := by
  obtain ⟨here, elsewhere⟩ := get_alter altered
  have before : Trie.get (radixIndex bits) depth radix.root key = map key := stands.get key
  have after : Trie.get (radixIndex bits) depth root key = value := by
    rw [before, accepts] at here
    exact (Option.some.inj here).symm
  constructor
  · intro other
    by_cases same : other = key
    · rw [same, update_self]
      exact after
    · rw [update_of_ne same, ← stands.get other]
      exact elsewhere other fun digits => same (eq_of_sameDigits enough digits).symm
  · intro v
    have leaves := count_values_alter v altered
    have keys := ncard_update map key value v
    have old := stands.values v
    rw [before, after] at leaves
    dsimp only
    omega

theorem Stands.store (store : Option V → Option (Option V)) (key : BitVec 64)
    (accepts : store (map key) = some value) : ∃ radix', radixStore store radix key = some radix' ∧
      radix'.valueDeleter = radix.valueDeleter ∧
      Stands radix' (update map key value) := by
  have found : store (Trie.get (radixIndex bits) depth radix.root key) = some value := by
    rw [← accepts, ← stands.get key]
    rfl
  obtain ⟨root, altered⟩ := alter_of_accepts found
  exact ⟨{ radix with root := root }, by rw [radixStore, altered, Option.map_some], rfl,
    stands.alter enough accepts altered⟩

end

inductive Started : Radix bits depth V → Prop where
  | new : Started newRadix
  | init (valueDeleter : Bool) : Started (initRadixWDeleter valueDeleter)

omit [DecidableEq V] in
theorem radixFree_calls (set : radix.valueDeleter = true) :
    (radixFree radix).getD [] = values depth radix.root := by
  rw [radixFree, set]
  cases empty : radix.root with
  | null => exact (values_null depth).symm
  | leaf | node => rfl

variable {start : Radix bits depth V} {map : BitVec 64 → Option V}

theorem Started.stands (started : Started start) : Stands start fun _ => none := by
  cases started with
  | new => exact stands_newRadix
  | init valueDeleter => exact stands_initRadix valueDeleter

theorem kernelRadixStep_stands {radix : KernelRadix V} (stands : Stands radix map)
    (op : RadixOp V) (absent : AddsAbsent map op) :
    ∃ radix', kernelRadixStep radix op = some radix' ∧
      radix'.valueDeleter = radix.valueDeleter ∧ Stands radix' (mapStep map op) := by
  cases op with
  | add key value =>
    apply stands.store kernelRadix_wide _ key
    rw [AddsAbsent] at absent
    simp [absent]
  | del key deleteValue =>
    apply stands.store kernelRadix_wide _ key
    simp

/-- A walk that makes no nodes deletes as well: a missing node means that the key was not
there, and then the map does not change either. -/
theorem Stands.clear (stands : Stands radix map) (enough : WideEnough bits depth)
    (key : BitVec 64) : Stands { radix with
      root := (clear (radixIndex bits) depth radix.root key).getD radix.root }
      (update map key none) := by
  cases cleared : Trie.clear (radixIndex bits) depth radix.root key with
  | none =>
    have unset : map key = none := by
      rw [← stands.get key]
      exact get_of_clear_none cleared
    rw [← unset, update_eq_self]
    exact stands
  | some root =>
    have accepts : (fun _ : Option V => some none) (map key) = some (none : Option V) := rfl
    exact stands.alter enough accepts (alter_of_clear cleared)

omit [DecidableEq V] in
theorem userRadixDel_fst (radix : UserRadix V) (key : BitVec 64) (deleteValue : Bool) :
    (userRadixDel radix key deleteValue).1 =
      { radix with
        root := (clear (radixIndex userRadixBits) userRadixDepth radix.root key).getD
          radix.root } := by
  rw [userRadixDel]
  cases clear (radixIndex userRadixBits) userRadixDepth radix.root key with
  | none | some => rfl

theorem userRadixStep_stands {radix : UserRadix V} (stands : Stands radix map) (op : RadixOp V) :
    ∃ radix', userRadixStep radix op = some radix' ∧
      radix'.valueDeleter = radix.valueDeleter ∧ Stands radix' (mapStep map op) := by
  cases op with
  | add key value =>
    exact stands.store userRadix_wide (fun _ => some (some value)) key rfl
  | del key deleteValue =>
    have after := stands.clear userRadix_wide key
    rw [← userRadixDel_fst radix key deleteValue] at after
    have same : (userRadixDel radix key deleteValue).1.valueDeleter = radix.valueDeleter := by
      rw [userRadixDel_fst]
    exact ⟨(userRadixDel radix key deleteValue).1, rfl, same, after⟩

/-- What a run of either tree establishes, given its step lemma. -/
theorem run_stands {step : Radix bits depth V → RadixOp V → Option (Radix bits depth V)}
    {cond : (BitVec 64 → Option V) → RadixOp V → Prop}
    (keep : ∀ radix map op, Stands radix map → cond map op →
      ∃ radix', step radix op = some radix' ∧
        radix'.valueDeleter = radix.valueDeleter ∧ Stands radix' (mapStep map op))
    (started : Started start) (ops : List (RadixOp V))
    (meets : RunMeets mapStep cond (fun _ => none) ops) :
    ∃ radix, ops.foldlM step start = some radix ∧
      (∀ key, radixGet radix key = lastAdded ops key) ∧
      (start.valueDeleter = true → ∀ v,
        ((radixFree radix).getD []).count v = {key | lastAdded ops key = some v}.ncard) := by
  obtain ⟨radix, run, same, stands⟩ := run_follows step mapStep cond
    (fun radix map => radix.valueDeleter = start.valueDeleter ∧ Stands radix map)
    (by
      intro radix map op before met
      obtain ⟨radix', stepped, same, stands⟩ := keep radix map op before.2 met
      exact ⟨radix', stepped, same.trans before.1, stands⟩)
    ops start (fun _ => none) ⟨rfl, started.stands⟩ meets
  refine ⟨radix, run, stands.get, ?_⟩
  intro set v
  rw [radixFree_calls (same.trans set)]
  exact stands.values v

/-- Both trees refine a map: after any calls a key reads as what was last added for it and
not deleted since, and freeing the tree calls the deleter once for each key that still has
a value.  The kernel tree takes a key only while it is not present. -/
theorem radix_refines_map (ops : List (RadixOp V)) : (∀ start : KernelRadix V, Started start →
      RunMeets mapStep AddsAbsent (fun _ => none) ops →
      ∃ radix, ops.foldlM kernelRadixStep start = some radix ∧
        (∀ key, radixGet radix key = lastAdded ops key) ∧
        (start.valueDeleter = true → ∀ v,
          ((radixFree radix).getD []).count v = {key | lastAdded ops key = some v}.ncard)) ∧
    (∀ start : UserRadix V, Started start →
      ∃ radix, ops.foldlM userRadixStep start = some radix ∧
        (∀ key, radixGet radix key = lastAdded ops key) ∧
        (start.valueDeleter = true → ∀ v,
          ((radixFree radix).getD []).count v = {key | lastAdded ops key = some v}.ncard)) := by
  constructor
  · intro start started meets
    exact run_stands (fun _ _ op stands => kernelRadixStep_stands stands op) started ops meets
  intro start started
  apply run_stands (fun _ _ op stands _ => userRadixStep_stands stands op) started ops
  exact runMeets_of_forall (fun _ _ => trivial) ops _

/-- Two keys that differ in the top digit only, one of them deleted again. -/
theorem radix_refines_map_top_digit :
    (∃ radix, [RadixOp.add 5 'a', .add 0x1000000000000005 'b', .del 5 true].foldlM
        kernelRadixStep (initRadixWDeleter true) = some radix ∧
      radixGet radix 5 = none ∧ radixGet radix 0x1000000000000005 = some 'b') ∧
    (∃ radix, [RadixOp.add 5 'a', .add 0x1000000000000005 'b', .del 5 true].foldlM
        userRadixStep (initRadixWDeleter true) = some radix ∧
      radixGet radix 5 = none ∧ radixGet radix 0x1000000000000005 = some 'b') := by
  obtain ⟨kernel, user⟩ :=
    radix_refines_map [RadixOp.add 5 'a', .add 0x1000000000000005 'b', .del 5 true]
  constructor
  · obtain ⟨radix, run, get, -⟩ := kernel (initRadixWDeleter true) (.init true)
      ⟨rfl, rfl, trivial, trivial⟩
    exact ⟨radix, run, (get 5).trans rfl, (get 0x1000000000000005).trans rfl⟩
  · obtain ⟨radix, run, get, -⟩ := user (initRadixWDeleter true) (.init true)
    exact ⟨radix, run, (get 5).trans rfl, (get 0x1000000000000005).trans rfl⟩

end Refines

end KernelLabs.ChCore
