import Mathlib.Algebra.GroupWithZero.Nat
import Mathlib.Data.List.FinRange
import KernelLabs.Lib.Exclusive
import KernelLabs.Lib.Runs
import KernelLabs.Xv6.Fs

/-!
# The block map of a file

The blocks of a file hang on the slots of a tree of depth three: `addrs` of the inode, the entries
of the indirect block, the entries of the doubly-indirect block and the entries of the blocks in
these.  The blocks in the slots of all inodes are owned exclusively; `bmap` lets the empty slots on
one path of the tree take free blocks, and `itrunc` lets all slots of an inode give back theirs.
-/

set_option autoImplicit false

namespace KernelLabs.Xv6

open Lib Function List

/-! ## Slots -/

/-- Where a block number is kept: in `addrs`, in the indirect or the doubly-indirect block, or in
the block in entry `j` of that. -/
inductive Slot where
  | addr (n : Fin (ndirect + 2))
  | ind (j : Fin nindirect)
  | mid (j : Fin nindirect)
  | leaf (j k : Fin nindirect)
  deriving DecidableEq, Repr

namespace Slot

def single : Slot := .addr ⟨ndirect, by decide⟩

def double : Slot := .addr ⟨ndirect + 1, by decide⟩

def parent : Slot → Option (Slot × Fin nindirect)
  | .addr _ => none
  | .ind j => some (single, j)
  | .mid j => some (double, j)
  | .leaf j k => some (.mid j, k)

def path : Slot → List Slot
  | .addr n => [.addr n]
  | .ind j => [single, .ind j]
  | .mid j => [double, .mid j]
  | .leaf j k => [double, .mid j, .leaf j k]

def IsIndex : Slot → Prop
  | .addr n => ndirect ≤ n.val
  | .mid _ => True
  | .ind _ | .leaf _ _ => False

variable {q : Slot × Fin nindirect}

theorem parent_inj {c c' : Slot} (first : c.parent = some q) (second : c'.parent = some q) :
    c = c' := by
  have same := first.trans second.symm
  have some_ : c.parent ≠ none := by simp [first]
  clear first second
  cases c <;> cases c' <;> simp_all [parent, single, double]

theorem parent_ne {c : Slot} (above : c.parent = some q) : q.1 ≠ c := by
  cases c with
  | addr n => cases above
  | ind | mid | leaf => cases above; exact nofun

end Slot

def dataSlot (bn : Fin maxfile) : Slot :=
  if direct : bn.val < ndirect then .addr ⟨bn.val, by omega⟩
  else if indirect : bn.val - ndirect < nindirect then .ind ⟨bn.val - ndirect, indirect⟩
  else
    .leaf ⟨(bn.val - ndirect - nindirect) / nindirect, by
      have range : bn.val < ndirect + nindirect + nindirect * nindirect := bn.isLt
      exact Nat.div_lt_of_lt_mul (by omega)⟩
      ⟨(bn.val - ndirect - nindirect) % nindirect, Nat.mod_lt _ (by decide)⟩

theorem dataSlot_cases (bn : Fin maxfile) :
    (∃ n : Fin (ndirect + 2), dataSlot bn = .addr n ∧ bn.val = n.val ∧ bn.val < ndirect) ∨
    (∃ j : Fin nindirect, dataSlot bn = .ind j ∧ bn.val = ndirect + j.val) ∨
    ∃ j k : Fin nindirect, dataSlot bn = .leaf j k ∧
      bn.val = ndirect + nindirect + (nindirect * j.val + k.val) := by
  rw [dataSlot]
  by_cases direct : bn.val < ndirect
  · rw [dif_pos direct]
    exact .inl ⟨_, rfl, rfl, direct⟩
  rw [dif_neg direct]
  by_cases indirect : bn.val - ndirect < nindirect
  · rw [dif_pos indirect]
    exact .inr (.inl ⟨_, rfl, by simp only; omega⟩)
  · rw [dif_neg indirect]
    refine .inr (.inr ⟨_, _, rfl, ?_⟩)
    rw [Nat.div_add_mod]
    omega

theorem dataSlot_inj {bn bn' : Fin maxfile} (same : dataSlot bn = dataSlot bn') : bn = bn' := by
  apply Fin.ext
  rcases dataSlot_cases bn with ⟨n, slot, at_, _⟩ | ⟨j, slot, at_⟩ | ⟨j, k, slot, at_⟩ <;>
    rcases dataSlot_cases bn' with ⟨n', slot', at', _⟩ | ⟨j', slot', at'⟩ | ⟨j', k', slot', at'⟩ <;>
    rw [slot, slot'] at same <;> cases same <;> rw [at_, at']

theorem dataSlot_not_index (bn : Fin maxfile) : ¬ (dataSlot bn).IsIndex := by
  rcases dataSlot_cases bn with ⟨n, slot, at_, direct⟩ | ⟨j, slot, _⟩ | ⟨j, k, slot, _⟩
  · rw [slot]
    exact Nat.not_le.mpr (at_ ▸ direct)
  · rw [slot]
    exact id
  · rw [slot]
    exact id

variable {j : Fin nindirect} {p : Slot}

theorem Slot.parent_index {c : Slot} (above : c.parent = some (p, j)) : p.IsIndex := by
  cases c with
  | addr n => cases above
  | ind j => cases above; exact Nat.le_refl ndirect
  | mid j => cases above; exact Nat.le_succ ndirect
  | leaf j k => cases above; trivial

open Slot

theorem dataSlot_not_parent (bn : Fin maxfile) {c : Slot} : c.parent ≠ some (dataSlot bn, j) :=
  fun above => dataSlot_not_index bn (parent_index above)

namespace Fs

section Values
variable {sb : Superblock}

def child (s : Fs sb) (p j : Nat) : Nat := if p = 0 then 0 else (s.disk p j).toNat

def value (s : Fs sb) (i : Fin sb.ninodes) : Slot → Nat
  | .addr n => ((s.inodes i).addrs n).toNat
  | .ind j => s.child ((s.inodes i).addrs ndirect).toNat j
  | .mid j => s.child ((s.inodes i).addrs (ndirect + 1)).toNat j
  | .leaf j k => s.child (s.child ((s.inodes i).addrs (ndirect + 1)).toNat j) k

theorem value_child (s : Fs sb) (i : Fin sb.ninodes) {c : Slot} (above : c.parent = some (p, j)) :
    s.value i c = s.child (s.value i p) j := by
  cases c with
  | addr n => cases above
  | ind | mid | leaf => cases above; rfl

/-- What has the values of the roots and follows the entries of the index blocks is `value`. -/
theorem value_unique (s : Fs sb) (V : Fin sb.ninodes → Slot → Nat)
    (roots : ∀ i n, ((s.inodes i).addrs n.val).toNat = V i (.addr n))
    (children : ∀ i c p (j : Fin nindirect), c.parent = some (p, j) → V i c = s.child (V i p) j)
    (i : Fin sb.ninodes) (c : Slot) : s.value i c = V i c := by
  have top : ∀ n, s.value i (.addr n) = V i (.addr n) := fun n => roots i n
  have below : ∀ c p (j : Fin nindirect), c.parent = some (p, j) → s.value i p = V i p →
      s.value i c = V i c := by
    intro c p j above same
    rw [value_child s i above, same, children i c p j above]
  cases c with
  | addr n => exact top n
  | ind j => exact below (.ind j) single j rfl (top _)
  | mid j => exact below (.mid j) double j rfl (top _)
  | leaf j k => exact below (.leaf j k) (.mid j) k rfl (below (.mid j) double j rfl (top _))

def InUse (s : Fs sb) (b : Nat) : Prop :=
  sb.dataStart ≤ b ∧ b < sb.size ∧ s.bit b = true

/-- The blocks in the slots of all inodes are allocated blocks of the data area and pairwise
distinct, and the blocks before it are marked in use. -/
structure Sound (s : Fs sb) : Prop where
  owned : Exclusive (fun o : Fin sb.ninodes × Slot => s.value o.1 o.2) s.InUse
  reserved : ∀ b, b < sb.dataStart → s.bit b = true

variable {s : Fs sb} {i : Fin sb.ninodes} {c : Slot} {b : Nat}

theorem Sound.distinct (sound : s.Sound) {i i' : Fin sb.ninodes} {c c' : Slot}
    (has : s.value i c ≠ 0) (same : s.value i c = s.value i' c') : i = i' ∧ c = c' := by
  have equal := sound.owned.distinct (i, c) (i', c') has same
  exact ⟨congrArg Prod.fst equal, congrArg Prod.snd equal⟩

theorem Sound.inUse (sound : s.Sound) (has : s.value i c ≠ 0) : s.InUse (s.value i c) :=
  sound.owned.marked (i, c) has

theorem Sound.data_of_free (sound : s.Sound) (free : b ∈ s.freeList) :
    sb.dataStart ≤ b ∧ b < sb.size ∧ ¬ s.InUse b := by
  obtain ⟨onDisk, clear⟩ := mem_freeList.mp free
  refine ⟨?_, onDisk, fun used => by simp [used.2.2] at clear⟩
  by_contra early
  rw [sound.reserved b (by omega)] at clear
  cases clear

theorem dataStart_pos (sb : Superblock) : 0 < sb.dataStart := Nat.succ_pos _

theorem toNat_ofNat (onDisk : b < sb.size) : (BitVec.ofNat 32 b).toNat = b := by
  have small := sb.small
  rw [BitVec.toNat_ofNat]
  exact Nat.mod_eq_of_lt (by omega)

variable {s' : Fs sb}

theorem value_of_cleared (gone : Fin sb.ninodes → Prop) [DecidablePred gone]
    (addrs : ∀ i (n : Fin (ndirect + 2)),
      (s'.inodes i).addrs n = if gone i then 0 else (s.inodes i).addrs n)
    (blocks : ∀ i (c p : Slot) j, c.parent = some (p, j) → ¬ gone i → s.value i p ≠ 0 →
      s'.disk (s.value i p) = s.disk (s.value i p)) (i : Fin sb.ninodes) (c : Slot) :
    s'.value i c = if gone i then 0 else s.value i c := by
  apply value_unique _ fun i c => if gone i then 0 else s.value i c
  · intro i n
    rw [addrs]
    by_cases here : gone i
    · rw [if_pos here, if_pos here]
      rfl
    · rw [if_neg here, if_neg here]
      rfl
  · intro i c p j above
    by_cases here : gone i
    · rw [if_pos here, if_pos here, child, if_pos rfl]
    · rw [if_neg here, if_neg here, value_child s i above, child, child]
      by_cases none : s.value i p = 0
      · rw [if_pos none, if_pos none]
      · rw [if_neg none, if_neg none, blocks i c p j above here none]

theorem Sound.of_cleared (sound : s.Sound) (gone : Fin sb.ninodes → Prop) [DecidablePred gone]
    (values : ∀ i c, s'.value i c = if gone i then 0 else s.value i c)
    (bits : ∀ x, x < sb.size → s'.bit x = s.bit x) : s'.Sound where
  owned := by
    refine sound.owned.drop (fun o => gone o.1) (fun o inside => ?_) (fun o outside => ?_)
      fun r used _ => ⟨used.1, used.2.1, ?_⟩
    · rw [values, if_pos inside]
    · rw [values, if_neg outside]
    · rw [bits r used.2.1, used.2.2]
  reserved x early := by
    rw [bits x (Nat.lt_of_lt_of_le early (dataStart_le_size sb)), sound.reserved x early]

end Values

/-! ## Taking a block -/

variable {rest : List Nat}

section Assign
variable {sb : Superblock}

def assign (s : Fs sb) (i : Fin sb.ninodes) (c : Slot) (b : Nat) : Fs sb :=
  match c with
  | .addr n => (s.takeBlock b).setAddr i n (BitVec.ofNat 32 b)
  | .ind j => ((s.takeBlock b).setWord (s.value i .single) j (BitVec.ofNat 32 b)).logWrite
      (s.value i .single)
  | .mid j => ((s.takeBlock b).setWord (s.value i .double) j (BitVec.ofNat 32 b)).logWrite
      (s.value i .double)
  | .leaf j k => ((s.takeBlock b).setWord (s.value i (.mid j)) k (BitVec.ofNat 32 b)).logWrite
      (s.value i (.mid j))

theorem assign_of_parent (s : Fs sb) (i : Fin sb.ninodes) {c : Slot} (b : Nat)
    (above : c.parent = some (p, j)) : s.assign i c b =
      ((s.takeBlock b).setWord (s.value i p) j (BitVec.ofNat 32 b)).logWrite (s.value i p) := by
  cases c with
  | addr n => cases above
  | ind | mid | leaf => cases above; rfl

theorem slot_cases (c : Slot) : (∃ n, c = .addr n) ∨ ∃ p j, c.parent = some (p, j) := by
  cases c with
  | addr n => exact .inl ⟨n, rfl⟩
  | ind j | mid j => exact .inr ⟨_, j, rfl⟩
  | leaf j k => exact .inr ⟨_, k, rfl⟩

def Ready (s : Fs sb) (i : Fin sb.ninodes) (c : Slot) : Prop :=
  ∀ p j, c.parent = some (p, j) → s.value i p ≠ 0

variable {s : Fs sb} {i : Fin sb.ninodes} {c : Slot} {b x : Nat}

theorem takeBlock_disk (onDisk : b < sb.size) (data : sb.dataStart ≤ x) :
    (s.takeBlock b).disk x = if x = b then fun _ => 0 else s.disk x := by
  have map : x ≠ sb.bblock b := by
    have range := (bblock_lt onDisk).2
    omega
  rw [takeBlock, bzero, logWrite_disk, setBlock_disk, setBit_disk, update_apply, update_of_ne map]

theorem assign_addrs (i' : Fin sb.ninodes) (n : Fin (ndirect + 2)) :
    ((s.assign i c b).inodes i').addrs n.val =
      if i' = i ∧ c = .addr n then BitVec.ofNat 32 b else (s.inodes i').addrs n.val := by
  rcases slot_cases c with ⟨m, rfl⟩ | ⟨p, j, above⟩
  · simp only [assign, setAddr, setInode_inodes, update_apply, addr.injEq]
    by_cases same : i' = i
    · subst same
      by_cases here : m = n
      · simp [here, takeBlock, bzero]
      · have other : n.val ≠ m.val := fun equal => here (Fin.ext equal.symm)
        simp [here, other]
        rfl
    · simp [same]
      rfl
  · have other : c ≠ .addr n := by
      rintro rfl
      cases above
    rw [assign_of_parent s i b above, if_neg fun both => other both.2]
    rfl

theorem assign_disk_root {n : Fin (ndirect + 2)} (onDisk : b < sb.size) (data : sb.dataStart ≤ x) :
    (s.assign i (.addr n) b).disk x = if x = b then fun _ => 0 else s.disk x :=
  takeBlock_disk onDisk data

theorem assign_disk_child {k : Nat} (above : c.parent = some (p, j)) (onDisk : b < sb.size)
    (data : sb.dataStart ≤ x) (apart : s.value i p ≠ b) :
    (s.assign i c b).disk x k = if x = s.value i p ∧ k = j.val then BitVec.ofNat 32 b
      else if x = b then 0 else s.disk x k := by
  rw [assign_of_parent s i b above, logWrite_disk, setWord_disk, update_apply]
  by_cases here : x = s.value i p
  · have other : x ≠ b := by rwa [here]
    rw [if_pos here, update_apply, ← here, takeBlock_disk onDisk data, if_neg other, if_neg other]
    simp
  · rw [if_neg here, if_neg fun both => here both.1, takeBlock_disk onDisk data]
    split <;> rfl

theorem value_assign (sound : s.Sound) (empty : s.value i c = 0) (ready : s.Ready i c)
    (free : b ∈ s.freeList) (i' : Fin sb.ninodes) (c' : Slot) :
    (s.assign i c b).value i' c' = if i' = i ∧ c' = c then b else s.value i' c' := by
  obtain ⟨data, onDisk, unused⟩ := sound.data_of_free free
  have pos := dataStart_pos sb
  have apart : ∀ i' p, s.value i' p ≠ 0 → s.value i' p ≠ b := by
    intro i' p has same
    exact unused (same ▸ sound.inUse has)
  apply value_unique _ fun i' c' => if i' = i ∧ c' = c then b else s.value i' c'
  · intro i' n
    rw [assign_addrs]
    by_cases here : i' = i ∧ c = .addr n
    · rw [if_pos here, if_pos ⟨here.1, here.2.symm⟩, toNat_ofNat onDisk]
    · rw [if_neg here, if_neg fun both => here ⟨both.1, both.2.symm⟩]
      rfl
  intro i' c' p' j' above'
  by_cases below : i' = i ∧ p' = c
  · -- the entries of the block that was taken are zero
    obtain ⟨rfl, rfl⟩ := below
    have other : c' ≠ p' := fun same => parent_ne above' same.symm
    have zero : (s.assign i' p' b).disk b j'.val = 0 := by
      rcases slot_cases p' with ⟨n, rfl⟩ | ⟨p, j, above⟩
      · rw [assign_disk_root onDisk data, if_pos rfl]
      · have ne := apart i' p (ready p j above)
        rw [assign_disk_child above onDisk data ne, if_neg fun both => ne both.1.symm, if_pos rfl]
    rw [if_neg fun both => other both.2, if_pos ⟨rfl, rfl⟩, child, if_neg (by omega), zero,
      value_child s i' above', empty, child, if_pos rfl]
    rfl
  · rw [if_neg below]
    by_cases none : s.value i' p' = 0
    · rw [none, child, if_pos rfl, if_neg]
      · rw [value_child s i' above', none, child, if_pos rfl]
      · rintro ⟨rfl, rfl⟩
        exact ready p' j' above' none
    have used := sound.inUse none
    have ne := apart i' p' none
    rw [child, if_neg none]
    by_cases here : i' = i ∧ c' = c
    · obtain ⟨rfl, rfl⟩ := here
      rw [if_pos ⟨rfl, rfl⟩, assign_disk_child above' onDisk used.1 ne, if_pos ⟨rfl, rfl⟩,
        toNat_ofNat onDisk]
    have same : (s.assign i c b).disk (s.value i' p') j'.val = s.disk (s.value i' p') j'.val := by
      rcases slot_cases c with ⟨n, rfl⟩ | ⟨p, j, above⟩
      · rw [assign_disk_root onDisk used.1, if_neg ne]
      · rw [assign_disk_child above onDisk used.1 (apart i p (ready p j above)), if_neg, if_neg ne]
        rintro ⟨same, index⟩
        obtain ⟨rfl, rfl⟩ := sound.distinct none same
        obtain rfl : j' = j := Fin.ext index
        exact here ⟨rfl, parent_inj above' above⟩
    rw [if_neg here, same, value_child s i' above', child, if_neg none]

theorem bit_assign (sound : s.Sound) (ready : s.Ready i c) (free : b ∈ s.freeList)
    (inside : x < sb.size) : (s.assign i c b).bit x = (s.bit x || decide (x = b)) := by
  obtain ⟨data, onDisk, unused⟩ := sound.data_of_free free
  rw [← bit_takeBlock data inside]
  rcases slot_cases c with ⟨n, rfl⟩ | ⟨p, j, above⟩
  · rfl
  · have used := sound.inUse (ready p j above)
    rw [assign_of_parent s i b above]
    exact bit_setBlock_of_data inside used.1 _

theorem freeList_of_bits {s' : Fs sb} (same : ∀ x, x < sb.size → s'.bit x = s.bit x) :
    s'.freeList = s.freeList := by
  refine filter_congr fun x member => ?_
  rw [same x (mem_range.mp member)]

theorem freeList_assign (sound : s.Sound) (ready : s.Ready i c) (free : s.freeList = b :: rest) :
    (s.assign i c b).freeList = rest := by
  have member : b ∈ s.freeList := by simp [free]
  have data := (sound.data_of_free member).1
  rw [← freeList_takeBlock free data]
  apply freeList_of_bits
  intro x inside
  rw [bit_assign sound ready member inside, bit_takeBlock data inside]

theorem Sound.assign (sound : s.Sound) (empty : s.value i c = 0) (ready : s.Ready i c)
    (free : b ∈ s.freeList) : (s.assign i c b).Sound := by
  obtain ⟨data, onDisk, unused⟩ := sound.data_of_free free
  constructor
  · refine sound.owned.take (o := (i, c)) unused (fun o => ?_) (fun x used => ?_) ?_
    · rw [value_assign sound empty ready free]
      simp only [Prod.ext_iff]
    · refine ⟨used.1, used.2.1, ?_⟩
      rw [bit_assign sound ready free used.2.1, used.2.2]
      rfl
    · refine ⟨data, onDisk, ?_⟩
      rw [bit_assign sound ready free onDisk]
      simp
  · intro x early
    have inside := Nat.lt_of_lt_of_le early (dataStart_le_size sb)
    rw [bit_assign sound ready free inside, sound.reserved x early]
    rfl

end Assign

/-! ## Growing a file -/

section Grow
variable {sb : Superblock}

/-- The slots `news`, which were empty, have taken the first free blocks.  The bitmap blocks, the
blocks themselves, the index blocks with the slots and the blocks in the slots `done` are logged. -/
structure Grown (s s' : Fs sb) (i : Fin sb.ninodes) (news done : List Slot) : Prop where
  nodup : news.Nodup
  empty : ∀ c ∈ news, s.value i c = 0
  keeps : ∀ i' c', i' ≠ i ∨ c' ∉ news → s'.value i' c' = s.value i' c'
  ready : ∀ c ∈ news, s'.Ready i c
  taken : s.freeList = news.map (s'.value i) ++ s'.freeList
  has : ∀ c ∈ done, s'.value i c ≠ 0
  logged : ∀ x, x ∈ s'.written ↔ x ∈ s.written ∨ (∃ c ∈ news, x = s'.value i c ∨
    x = sb.bblock (s'.value i c) ∨ ∃ p j, c.parent = some (p, j) ∧ x = s'.value i p) ∨
    ∃ c ∈ done, x = s'.value i c
  freed : s'.freed = s.freed
  attrs : ∀ i', (s'.inodes i').attrs = (s.inodes i').attrs

variable {s s' : Fs sb} {i : Fin sb.ninodes} {news done : List Slot} {c : Slot} {b : Nat}

theorem Grown.refl (s : Fs sb) (i : Fin sb.ninodes) : Grown s s i [] [] where
  nodup := nodup_nil
  empty := by simp
  keeps _ _ _ := rfl
  ready := by simp
  taken := rfl
  has := by simp
  logged := by simp
  freed := rfl
  attrs _ := rfl

section
variable (grown : Grown s s' i news done)
include grown

theorem Grown.filled (sound : s.Sound) (member : c ∈ news) : s'.value i c ≠ 0 := by
  have free : s'.value i c ∈ s.freeList := by
    rw [grown.taken]
    exact mem_append_left _ (mem_map_of_mem member)
  have data := (sound.data_of_free free).1
  have pos := dataStart_pos sb
  omega

theorem Grown.size (i' : Fin sb.ninodes) : (s'.inodes i').size = (s.inodes i').size :=
  congrArg (fun attrs => attrs.2.2.2.2) (grown.attrs i')

theorem Grown.stays {i' : Fin sb.ninodes} (has : s.value i' c ≠ 0) :
    s'.value i' c = s.value i' c := by
  apply grown.keeps
  by_contra both
  simp only [not_or, not_not] at both
  obtain ⟨rfl, member⟩ := both
  exact has (grown.empty c member)

end

theorem Grown.trans {s'' : Fs sb} {more done' : List Slot} (first : Grown s s' i news done)
    (second : Grown s' s'' i more done') (sound : s.Sound) :
    Grown s s'' i (news ++ more) (done ++ done') where
  nodup := by
    refine nodup_append.mpr ⟨first.nodup, second.nodup, fun c old d new same => ?_⟩
    subst same
    exact first.filled sound old (second.empty c new)
  empty c member := by
    rcases mem_append.mp member with old | new
    · exact first.empty c old
    · rw [← second.empty c new]
      refine (first.keeps i c (.inr fun old => ?_)).symm
      exact first.filled sound old (second.empty c new)
  keeps i' c' outside := by
    rw [mem_append, not_or] at outside
    rw [second.keeps i' c' (outside.imp_right And.right),
      first.keeps i' c' (outside.imp_right And.left)]
  ready c member := by
    rcases mem_append.mp member with old | new
    · intro p j above
      rw [second.stays (first.ready c old p j above)]
      exact first.ready c old p j above
    · exact second.ready c new
  taken := by
    rw [first.taken, second.taken, map_append, append_assoc]
    congr 1
    refine map_congr_left fun c old => ?_
    exact (second.stays (first.filled sound old)).symm
  has c member := by
    rcases mem_append.mp member with old | new
    · rw [second.stays (first.has c old)]
      exact first.has c old
    · exact second.has c new
  logged x := by
    have allocated : ∀ c ∈ news, (x = s'.value i c ∨ x = sb.bblock (s'.value i c) ∨
        ∃ p j, c.parent = some (p, j) ∧ x = s'.value i p) ↔
        (x = s''.value i c ∨ x = sb.bblock (s''.value i c) ∨
          ∃ p j, c.parent = some (p, j) ∧ x = s''.value i p) := by
      intro c old
      rw [second.stays (first.filled sound old)]
      refine or_congr_right (or_congr_right (exists_congr fun p => exists_congr fun j => ?_))
      refine and_congr_right fun above => ?_
      rw [second.stays (first.ready c old p j above)]
    have stored : ∀ c ∈ done, x = s'.value i c ↔ x = s''.value i c :=
      fun c old => by rw [second.stays (first.has c old)]
    rw [second.logged, first.logged]
    simp only [mem_append, or_and_right, exists_or]
    rw [exists_congr fun c => and_congr_right (allocated c),
      exists_congr fun c => and_congr_right (stored c)]
    simp only [or_assoc, or_left_comm]
  freed := second.freed.trans first.freed
  attrs i' := (second.attrs i').trans (first.attrs i')

theorem assign_grown (sound : s.Sound) (empty : s.value i c = 0) (ready : s.Ready i c)
    (free : s.freeList = b :: rest) : Grown s (s.assign i c b) i [c] [] := by
  have member : b ∈ s.freeList := by simp [free]
  have values := value_assign sound empty ready member
  have here : (s.assign i c b).value i c = b := by rw [values, if_pos ⟨rfl, rfl⟩]
  have above_ : ∀ p j, c.parent = some (p, j) → (s.assign i c b).value i p = s.value i p := by
    intro p j above
    rw [values, if_neg fun both => parent_ne above both.2]
  refine ⟨nodup_singleton c, by simpa using empty, fun i' c' outside => ?_, ?_, ?_, by simp,
    fun x => ?_, ?_, fun i' => ?_⟩
  · rw [values, if_neg]
    rintro ⟨rfl, rfl⟩
    simp at outside
  · intro c' only p j above
    obtain rfl := mem_singleton.mp only
    rw [above_ p j above]
    exact ready p j above
  · rw [freeList_assign sound ready free, free]
    simp [here]
  · simp only [mem_singleton, exists_eq_left, here, not_mem_nil, false_and, exists_false, or_false]
    rcases slot_cases c with ⟨n, rfl⟩ | ⟨p, j, above⟩
    · show x ∈ b :: sb.bblock b :: s.written ↔ _
      simp [parent, or_comm, or_left_comm]
    have written : (s.assign i c b).written = s.value i p :: b :: sb.bblock b :: s.written := by
      rw [assign_of_parent s i b above]
      rfl
    have only : (∃ p j, c.parent = some (p, j) ∧ x = (s.assign i c b).value i p) ↔
        x = s.value i p := by
      constructor
      · rintro ⟨p', j', above', same⟩
        rw [above_ p' j' above'] at same
        rw [above] at above'
        cases above'
        exact same
      · intro same
        exact ⟨p, j, above, by rw [above_ p j above]; exact same⟩
    rw [only, written]
    simp only [mem_cons]
    tauto
  · rcases slot_cases c with ⟨n, rfl⟩ | ⟨p, j, above⟩
    · rfl
    · rw [assign_of_parent s i b above]
      rfl
  · rcases slot_cases c with ⟨n, rfl⟩ | ⟨p, j, above⟩
    · simp only [assign, setAddr, setInode_inodes, update_apply]
      by_cases same : i' = i
      · subst same
        rw [if_pos rfl]
        rfl
      · rw [if_neg same]
        rfl
    · rw [assign_of_parent s i b above]
      rfl

/-- The block in the slot, which takes a free block if it is empty. -/
def ensure (s : Fs sb) (i : Fin sb.ninodes) : Slot → Option (Nat × Fs sb)
  | .addr n => s.addrEntry i n
  | .ind j => s.blockEntry (s.value i .single) j
  | .mid j => s.blockEntry (s.value i .double) j
  | .leaf j k => s.blockEntry (s.value i (.mid j)) k

theorem toNat_eq_zero {w : Word} : w.toNat = 0 ↔ w = 0 :=
  ⟨fun zero => BitVec.eq_of_toNat_eq zero, fun zero => by rw [zero]; rfl⟩

theorem ensure_of_parent (s : Fs sb) (i : Fin sb.ninodes) (above : c.parent = some (p, j)) :
    s.ensure i c = s.blockEntry (s.value i p) j := by
  cases c with
  | addr n => cases above
  | ind | mid | leaf => cases above; rfl

theorem ensure_eq (ready : s.Ready i c) : s.ensure i c =
    if s.value i c = 0 then s.freeList.head?.map fun b => (b, s.assign i c b)
    else some (s.value i c, s) := by
  rcases slot_cases c with ⟨n, rfl⟩ | ⟨p, j, above⟩
  · have zero : s.value i (.addr n) = 0 ↔ (s.inodes i).addrs n.val = 0 := toNat_eq_zero
    rw [ensure, addrEntry, balloc_eq, if_congr zero rfl rfl]
    cases s.freeList with
    | nil | cons => rfl
  have has := ready p j above
  have entry : s.value i c = (s.disk (s.value i p) j).toNat := by
    rw [value_child s i above, child, if_neg has]
  have zero : s.value i c = 0 ↔ s.disk (s.value i p) j = 0 := by rw [entry, toNat_eq_zero]
  rw [ensure_of_parent s i above, blockEntry, balloc_eq, if_congr zero rfl rfl, entry]
  cases s.freeList with
  | nil => rfl
  | cons b rest =>
    rw [head?_cons, Option.map_some, Option.map_some, assign_of_parent s i b above]
    rfl

theorem ensure_cases (sound : s.Sound) (ready : s.Ready i c) :
    (∃ s' news, s.ensure i c = some (s'.value i c, s') ∧ s'.Sound ∧ Grown s s' i news [] ∧
      s'.value i c ≠ 0 ∧ news = if s.value i c = 0 then [c] else []) ∨
    s.ensure i c = none ∧ s.value i c = 0 ∧ s.freeList = [] := by
  rw [ensure_eq ready]
  by_cases empty : s.value i c = 0
  · rw [if_pos empty]
    cases free : s.freeList with
    | nil => exact .inr ⟨rfl, empty, rfl⟩
    | cons b rest =>
      have member : b ∈ s.freeList := by simp [free]
      have grown := assign_grown sound empty ready free
      have here : (s.assign i c b).value i c = b := by
        rw [value_assign sound empty ready member, if_pos ⟨rfl, rfl⟩]
      refine .inl ⟨s.assign i c b, [c], ?_, sound.assign empty ready member, grown,
        grown.filled sound (mem_singleton_self c), by rw [if_pos empty]⟩
      simp [here]
  · rw [if_neg empty]
    exact .inl ⟨s, [], rfl, sound, .refl s i, empty, by rw [if_neg empty]⟩

/-- `ensure` for the slots of a path, one after the other; the block is that of the last one. -/
def ensureAll (s : Fs sb) (i : Fin sb.ninodes) : List Slot → Option (Nat × Fs sb)
  | [] => none
  | [c] => s.ensure i c
  | c :: rest => do
    let (_, s) ← s.ensure i c
    s.ensureAll i rest

def Linked : List Slot → Prop
  | c :: d :: rest => (∃ j, d.parent = some (c, j)) ∧ Linked (d :: rest)
  | _ => True

def missing (s : Fs sb) (i : Fin sb.ninodes) (cs : List Slot) : List Slot :=
  cs.filter fun c => s.value i c = 0

theorem ensureAll_cases (cs : List Slot) : ∀ {s : Fs sb} {c : Slot}, s.Sound → s.Ready i c →
    Linked (c :: cs) → (c :: cs).Nodup →
    (∃ s', s.ensureAll i (c :: cs) = some (s'.value i ((c :: cs).getLast (by simp)), s') ∧
      s'.Sound ∧ Grown s s' i (s.missing i (c :: cs)) [] ∧ ∀ d ∈ c :: cs, s'.value i d ≠ 0) ∨
    s.ensureAll i (c :: cs) = none ∧ s.freeList.length < (s.missing i (c :: cs)).length := by
  induction cs with
  | nil =>
    intro s c sound ready _ _
    rcases ensure_cases sound ready with
      ⟨s', news, result, sound', grown, has, which⟩ | ⟨none, empty, free⟩
    · refine .inl ⟨s', result, sound', ?_, by simpa using has⟩
      rw [which] at grown
      simpa [missing, filter_cons] using grown
    · exact .inr ⟨none, by simp [missing, empty, free]⟩
  | cons d rest ih =>
    intro s c sound ready linked nodup
    obtain ⟨⟨j, above⟩, linked⟩ := linked
    obtain ⟨apart, nodup⟩ := nodup_cons.mp nodup
    have first : s.ensureAll i (c :: d :: rest) =
        (s.ensure i c).bind fun r => r.2.ensureAll i (d :: rest) := rfl
    rw [first]
    rcases ensure_cases sound ready with
      ⟨s1, news, result, sound1, grown, has, which⟩ | ⟨none, empty, free⟩
    · have split : s.missing i (c :: d :: rest) = news ++ s1.missing i (d :: rest) := by
        have same : s.missing i (d :: rest) = s1.missing i (d :: rest) := by
          refine filter_congr fun x member => ?_
          rw [grown.keeps i x (.inr ?_)]
          rw [which]
          split
          · intro only
            exact apart (mem_singleton.mp only ▸ member)
          · simp
        rw [← same, which, missing, missing, filter_cons]
        by_cases empty : s.value i c = 0 <;> simp [empty]
      have ready1 : s1.Ready i d := by
        intro p j' above'
        rw [above] at above'
        cases above'
        exact has
      have length := congrArg List.length grown.taken
      rw [length_append, length_map] at length
      rw [result, Option.bind_some]
      rcases ih sound1 ready1 linked nodup with
        ⟨s', result', sound', grown', all⟩ | ⟨none, few⟩
      · refine .inl ⟨s', result', sound', ?_, ?_⟩
        · rw [split]
          exact grown.trans grown' sound
        · intro x member
          rcases mem_cons.mp member with rfl | member
          · rw [grown'.stays has]
            exact has
          · exact all x member
      · refine .inr ⟨none, ?_⟩
        rw [split, length_append]
        omega
    · refine .inr ⟨by rw [none]; rfl, ?_⟩
      rw [free, missing, filter_cons_of_pos (by simpa using empty)]
      exact Nat.succ_pos _

theorem path_linked (c : Slot) : Linked c.path := by
  cases c with
  | addr n => trivial
  | ind j | mid j => exact ⟨⟨j, rfl⟩, trivial⟩
  | leaf j k => exact ⟨⟨j, rfl⟩, ⟨k, rfl⟩, trivial⟩

theorem path_nodup (c : Slot) : c.path.Nodup := by
  cases c <;> simp [path, single, double]

theorem mem_path_self (c : Slot) : c ∈ c.path := by
  cases c <;> simp [path]

theorem path_eq (c : Slot) :
    ∃ n cs, c.path = .addr n :: cs ∧ (addr n :: cs).getLast (by simp) = c := by
  cases c with
  | addr n => exact ⟨n, [], rfl, rfl⟩
  | ind j => exact ⟨_, [.ind j], rfl, rfl⟩
  | mid j => exact ⟨_, [.mid j], rfl, rfl⟩
  | leaf j k => exact ⟨_, [.mid j, .leaf j k], rfl, rfl⟩

theorem addr_ready (s : Fs sb) (i : Fin sb.ninodes) (n : Fin (ndirect + 2)) :
    s.Ready i (.addr n) := by
  intro p j above
  cases above

theorem ensure_bind (sound : s.Sound) (ready : s.Ready i c) {d : Slot}
    (above : d.parent = some (c, j)) : ((s.ensure i c).bind fun r => r.2.blockEntry r.1 j) =
      (s.ensure i c).bind fun r => r.2.ensure i d := by
  rcases ensure_cases sound ready with ⟨s', _, result, _⟩ | ⟨none, _⟩
  · rw [result, Option.bind_some, Option.bind_some, ensure_of_parent s' i above]
  · rw [none]
    rfl

/-- A call of `bmap` goes down the path to the slot of the block. -/
theorem bmap_eq (sound : s.Sound) (bn : Fin maxfile) :
    s.bmap i bn.val = s.ensureAll i (dataSlot bn).path := by
  rcases dataSlot_cases bn with ⟨n, slot, at_, direct⟩ | ⟨j, slot, at_⟩ | ⟨j, k, slot, at_⟩
  · rw [slot, bmap, if_pos direct, at_]
    rfl
  · have index : bn.val - ndirect = j.val := by omega
    rw [slot, bmap, if_neg (by omega), if_pos (index ▸ j.isLt), index]
    exact ensure_bind (c := .single) (d := .ind j) sound (addr_ready s i _) rfl
  · have index : bn.val - ndirect - nindirect = nindirect * j.val + k.val := by omega
    have div : (nindirect * j.val + k.val) / nindirect = j.val := by
      rw [Nat.mul_add_div (by decide), Nat.div_eq_of_lt k.isLt, Nat.add_zero]
    have mod : (nindirect * j.val + k.val) % nindirect = k.val := by
      rw [Nat.mul_add_mod, Nat.mod_eq_of_lt k.isLt]
    have range : nindirect * j.val + k.val < ndindirect := by
      have small : bn.val < ndirect + nindirect + ndindirect := bn.isLt
      omega
    rw [slot, bmap, if_neg (by omega), if_neg (by omega), index, if_pos range, div, mod]
    show ((s.ensure i .double).bind fun r => (r.2.blockEntry r.1 j).bind fun r =>
      r.2.blockEntry r.1 k) = (s.ensure i .double).bind fun r => (r.2.ensure i (.mid j)).bind
        fun r => r.2.ensure i (.leaf j k)
    rcases ensure_cases sound (addr_ready s i _) with ⟨s', _, result, sound', _, has, _⟩ | ⟨none, _⟩
    · have ready : s'.Ready i (.mid j) := by
        intro p j' above
        cases above
        exact has
      have entry : s'.blockEntry (s'.value i .double) j = s'.ensure i (.mid j) := rfl
      rw [double, result, Option.bind_some, Option.bind_some, ← double, entry]
      exact ensure_bind sound' ready rfl
    · rw [double, none]
      rfl

/-- `bmap` lets the empty slots on the path take free blocks, unless there are not enough. -/
theorem bmap_cases (sound : s.Sound) (bn : Fin maxfile) :
    (∃ s', s.bmap i bn.val = some (s'.value i (dataSlot bn), s') ∧ s'.Sound ∧
      Grown s s' i (s.missing i (dataSlot bn).path) [] ∧
      ∀ c ∈ (dataSlot bn).path, s'.value i c ≠ 0) ∨
    s.bmap i bn.val = none ∧ s.freeList.length < (s.missing i (dataSlot bn).path).length := by
  obtain ⟨n, cs, path, last⟩ := path_eq (dataSlot bn)
  have linked := path_linked (dataSlot bn)
  have nodup := path_nodup (dataSlot bn)
  rw [path] at linked nodup
  rw [bmap_eq sound, path]
  have result := ensureAll_cases (i := i) cs sound (addr_ready s i n) linked nodup
  rwa [last] at result

end Grow

end Fs

end KernelLabs.Xv6
