import Mathlib.Data.List.Flatten
import KernelLabs.Xv6.FsMap

/-!
# Truncation, and whole sequences of calls

`itrunc` frees the blocks in the slots of the inode in the order `truncOrder`.  It reads the index
blocks while it clears bits in the bitmap, so every loop is described by the list of blocks it frees
(`Freed`), computed in the state before.
-/

set_option autoImplicit false

namespace KernelLabs.Xv6

open Lib Function List Option Slot List

namespace Fs

/-! ## Freeing lists of blocks -/

section Freeing
variable {sb : Superblock}

structure Freed (s s' : Fs sb) (bs : List Nat) : Prop where
  bits : ∀ x, x < sb.size → s'.bit x = (s.bit x && decide (x ∉ bs))
  freed : s'.freed = bs.reverse ++ s.freed
  written : s'.written = (bs.map sb.bblock).reverse ++ s.written

def SameData (s s' : Fs sb) : Prop := ∀ x, sb.dataStart ≤ x → s'.disk x = s.disk x

def Releasable (s : Fs sb) (bs : List Nat) : Prop := bs.Nodup ∧ ∀ b ∈ bs, s.InUse b

variable {s s' s'' : Fs sb} {bs bs' : List Nat} {b : Nat}

theorem SameData.trans (first : SameData s s') (second : SameData s' s'') : SameData s s'' :=
  fun x data => (second x data).trans (first x data)

theorem Releasable.left (ok : s.Releasable (bs ++ bs')) : s.Releasable bs :=
  ⟨ok.1.of_append_left, fun b member => ok.2 b (mem_append_left _ member)⟩

theorem Freed.refl (s : Fs sb) : Freed s s [] := ⟨by simp, rfl, rfl⟩

theorem Freed.trans (first : Freed s s' bs) (second : Freed s' s'' bs') :
    Freed s s'' (bs ++ bs') where
  bits x inside := by
    rw [second.bits x inside, first.bits x inside]
    simp [Bool.and_assoc]
  freed := by rw [second.freed, first.freed, reverse_append, append_assoc]
  written := by
    rw [second.written, first.written, map_append, reverse_append, append_assoc]

/-- The blocks that are left can still be freed. -/
theorem Freed.next (freed : Freed s s' bs) (ok : s.Releasable (bs ++ bs')) : s'.Releasable bs' := by
  refine ⟨ok.1.of_append_right, fun b member => ?_⟩
  have used := ok.2 b (mem_append_right _ member)
  have kept : b ∉ bs := fun old => disjoint_of_nodup_append ok.1 old member
  refine ⟨used.1, used.2.1, ?_⟩
  rw [freed.bits b used.2.1, used.2.2]
  simpa using kept

theorem bfree_freed (used : s.InUse b) :
    ∃ s', s.bfree b = some s' ∧ Freed s s' [b] ∧ SameData s s' ∧ s'.inodes = s.inodes := by
  refine ⟨_, if_pos used.2.2, ⟨fun x inside => ?_, rfl, rfl⟩, fun x data => ?_, rfl⟩
  · simp only [mem_singleton]
    exact bit_clearBit b x
  · have range := (bblock_lt used.2.1).2
    show (s.clearBit (sb.bblock b) (b % bpb)).disk x = s.disk x
    rw [clearBit_disk, update_of_ne (by omega)]

def entries (s : Fs sb) (blk : Nat) (js : List Nat) : List Nat :=
  (js.map fun j => (s.disk blk j).toNat).filter (· ≠ 0)

theorem filter_word_cons (word : Word) (blocks : List Nat) : (word.toNat :: blocks).filter (· ≠ 0) =
      if word = 0 then blocks.filter (· ≠ 0) else word.toNat :: blocks.filter (· ≠ 0) := by
  rw [filter_cons]
  by_cases zero : word = 0
  · rw [if_pos zero, if_neg (by simp [zero])]
  · have pos : word.toNat ≠ 0 := fun none => zero (toNat_eq_zero.mp none)
    rw [if_neg zero, if_pos (by simpa using pos)]

theorem entries_cons (s : Fs sb) (blk j : Nat) (js : List Nat) : s.entries blk (j :: js) =
    if s.disk blk j = 0 then s.entries blk js else (s.disk blk j).toNat :: s.entries blk js :=
  filter_word_cons _ _

variable {blk : Nat}

theorem entries_congr {js : List Nat} (same : ∀ j ∈ js, s'.disk blk j = s.disk blk j) :
    s'.entries blk js = s.entries blk js := by
  rw [entries, entries]
  congr 1
  exact map_congr_left fun j member => by rw [same j member]

theorem freeEntries_freed (data : sb.dataStart ≤ blk) (js : List Nat) :
    ∀ {s : Fs sb}, s.Releasable (s.entries blk js) →
      ∃ s', s.freeEntries blk js = some s' ∧ Freed s s' (s.entries blk js) ∧ SameData s s' ∧
        s'.inodes = s.inodes := by
  induction js with
  | nil => exact fun _ => ⟨_, rfl, .refl _, fun _ _ => rfl, rfl⟩
  | cons j js ih =>
    intro s ok
    rw [entries_cons] at ok ⊢
    rw [freeEntries]
    by_cases zero : s.disk blk j = 0
    · rw [if_pos zero] at ok ⊢
      rw [if_neg (not_not.mpr zero)]
      exact ih ok
    rw [if_neg zero] at ok ⊢
    rw [if_pos zero]
    obtain ⟨s1, result, freed, same, inodes⟩ := bfree_freed (ok.2 _ mem_cons_self)
    have list : s1.entries blk js = s.entries blk js :=
      entries_congr fun j _ => by rw [same blk data]
    have ok : s1.Releasable (s.entries blk js) := freed.next ok
    rw [← list] at ok
    obtain ⟨s', result', freed', same', inodes'⟩ := ih ok
    rw [list] at freed'
    refine ⟨s', ?_, freed.trans freed', same.trans same', inodes'.trans inodes⟩
    rw [result]
    exact result'

/-- First the entries of an index block, then the block. -/
theorem freeEntries_bfree (ok : s.Releasable (s.entries blk (range nindirect) ++ [blk])) :
    ∃ s1 s2, s.freeEntries blk (range nindirect) = some s1 ∧ s1.bfree blk = some s2 ∧
      Freed s s2 (s.entries blk (range nindirect) ++ [blk]) ∧ SameData s s2 ∧
        s2.inodes = s.inodes := by
  obtain ⟨s1, result1, freed1, same1, inodes1⟩ := freeEntries_freed (ok.2 blk (by simp)).1 _ ok.left
  obtain ⟨s2, result2, freed2, same2, inodes2⟩ := bfree_freed ((freed1.next ok).2 blk mem_cons_self)
  exact ⟨s1, s2, result1, result2, freed1.trans freed2, same1.trans same2, inodes2.trans inodes1⟩

def below (s : Fs sb) (blk j : Nat) : List Nat :=
  if s.disk blk j = 0 then []
  else s.entries (s.disk blk j).toNat (List.range nindirect) ++ [(s.disk blk j).toNat]

theorem freeIndirect_freed (data : sb.dataStart ≤ blk) (js : List Nat) :
    ∀ {s : Fs sb}, js.Nodup → s.Releasable (js.flatMap (s.below blk) ++ [blk]) →
      ∃ s', s.freeIndirect blk js = some s' ∧ Freed s s' (js.flatMap (s.below blk)) ∧
        (∀ x, sb.dataStart ≤ x → x ≠ blk → s'.disk x = s.disk x) ∧ s'.inodes = s.inodes := by
  induction js with
  | nil => exact fun _ _ => ⟨_, rfl, .refl _, fun _ _ _ => rfl, rfl⟩
  | cons j js ih =>
    intro s indices ok
    obtain ⟨once, indices⟩ := nodup_cons.mp indices
    rw [flatMap_cons] at ok ⊢
    rw [append_assoc] at ok
    rw [freeIndirect]
    by_cases zero : s.disk blk j = 0
    · have none : s.below blk j = [] := if_pos zero
      rw [none, nil_append] at ok ⊢
      rw [if_neg (not_not.mpr zero)]
      exact ih indices ok
    have some_ : s.below blk j =
        s.entries (s.disk blk j).toNat (range nindirect) ++ [(s.disk blk j).toNat] :=
      if_neg zero
    rw [if_pos zero]
    rw [some_] at ok ⊢
    generalize (s.disk blk j).toNat = child at ok ⊢
    obtain ⟨s1, s2, result1, result2, freed, same, inodes⟩ := freeEntries_bfree ok.left
    -- the entry is cleared in the buffer
    have cleared : Freed s (s2.setWord blk j 0)
        (s.entries child (range nindirect) ++ [child]) := by
      refine ⟨fun x inside => ?_, freed.freed, freed.written⟩
      rw [← freed.bits x inside]
      exact bit_setBlock_of_data inside data _
    have entry : ∀ j' ∈ js, (s2.setWord blk j 0).disk blk j' = s.disk blk j' := by
      intro j' member
      have other : j' ≠ j := by
        rintro rfl
        exact once member
      rw [setWord_disk, update_self, update_of_ne other, same blk data]
    have others : ∀ x, sb.dataStart ≤ x → x ≠ blk → (s2.setWord blk j 0).disk x = s.disk x := by
      intro x at_ other
      rw [setWord_disk, update_of_ne other, same x at_]
    have list : js.flatMap ((s2.setWord blk j 0).below blk) = js.flatMap (s.below blk) := by
      refine flatMap_congr fun j' member => ?_
      rw [below, below, entry j' member]
      by_cases zero' : s.disk blk j' = 0
      · rw [if_pos zero', if_pos zero']
      rw [if_neg zero', if_neg zero']
      have mine : (s.disk blk j').toNat ∈ js.flatMap (s.below blk) :=
        mem_flatMap.mpr ⟨j', member, by rw [below, if_neg zero']; simp⟩
      have there := (ok.2 _ (mem_append_right _ (mem_append_left _ mine))).1
      have other := (nodup_append.mp ok.1.of_append_right).2.2 _ mine blk (by simp)
      congr 1
      exact entries_congr fun k _ => by rw [others _ there other]
    have ok := cleared.next ok
    rw [← list] at ok
    obtain ⟨s', result', freed', same', inodes'⟩ := ih indices ok
    rw [list] at freed'
    refine ⟨s', ?_, cleared.trans freed', fun x at_ other =>
      (same' x at_ other).trans (others x at_ other), ?_⟩
    · simp only [result1, result2, bind_eq_bind, bind_some]
      exact result'
    · rw [inodes', setWord_inodes, inodes]

end Freeing

/-! ## Truncating an inode -/

section Truncating
variable {sb : Superblock} {s s' : Fs sb} {i : Fin sb.ninodes}

def direct (s : Fs sb) (i : Fin sb.ninodes) (ns : List Nat) : List Nat :=
  (ns.map fun n => ((s.inodes i).addrs n).toNat).filter (· ≠ 0)

theorem direct_cons (s : Fs sb) (i : Fin sb.ninodes) (n : Nat) (ns : List Nat) :
    s.direct i (n :: ns) = if (s.inodes i).addrs n = 0 then s.direct i ns
      else ((s.inodes i).addrs n).toNat :: s.direct i ns :=
  filter_word_cons _ _

structure Cleared (s s' : Fs sb) (i : Fin sb.ninodes) (ns : List Nat) : Prop where
  addrs : ∀ i' n, (s'.inodes i').addrs n = if i' = i ∧ n ∈ ns then 0 else (s.inodes i').addrs n
  others : ∀ i', i' ≠ i → s'.inodes i' = s.inodes i'

theorem Cleared.of_inodes (same : s'.inodes = s.inodes) : Cleared s s' i [] := by
  refine ⟨fun i' n => ?_, fun i' _ => by rw [same]⟩
  rw [same, if_neg (by simp)]

theorem Cleared.trans {s'' : Fs sb} {ns ns' : List Nat} (first : Cleared s s' i ns)
    (second : Cleared s' s'' i ns') : Cleared s s'' i (ns ++ ns') := by
  refine ⟨fun i' n => ?_, fun i' other => (second.others i' other).trans (first.others i' other)⟩
  rw [second.addrs i' n, first.addrs i' n]
  simp only [mem_append]
  by_cases here : i' = i
  · by_cases old : n ∈ ns <;> simp [here, old]
  · simp [here]

theorem setAddr_cleared (s : Fs sb) (i : Fin sb.ninodes) (n : Nat) :
    Cleared s (s.setAddr i n 0) i [n] := by
  refine ⟨fun i' m => ?_, fun i' other => update_of_ne other _ _⟩
  rw [setAddr, setInode_inodes, update_apply]
  by_cases here : i' = i
  · subst here
    simp only [if_true, true_and, mem_singleton, update_apply]
  · simp [here]

theorem Cleared.cons {n : Nat} {ns : List Nat} (zero : (s.inodes i).addrs n = 0)
    (cleared : Cleared s s' i ns) : Cleared s s' i (n :: ns) := by
  refine ⟨fun i' m => ?_, cleared.others⟩
  rw [cleared.addrs i' m]
  by_cases here : i' = i ∧ m = n
  · obtain ⟨rfl, rfl⟩ := here
    simp [zero]
  · by_cases same : i' = i
    · have other : m ≠ n := fun equal => here ⟨same, equal⟩
      simp [same, other]
    · simp [same]

theorem truncDirect_freed (ns : List Nat) : ∀ {s : Fs sb}, ns.Nodup →
    s.Releasable (s.direct i ns) → ∃ s', s.truncDirect i ns = some s' ∧
      Freed s s' (s.direct i ns) ∧ SameData s s' ∧ Cleared s s' i ns := by
  induction ns with
  | nil => exact fun _ _ => ⟨_, rfl, .refl _, fun _ _ => rfl, .of_inodes rfl⟩
  | cons n ns ih =>
    intro s indices ok
    obtain ⟨once, indices⟩ := nodup_cons.mp indices
    rw [direct_cons] at ok ⊢
    rw [truncDirect]
    by_cases zero : (s.inodes i).addrs n = 0
    · rw [if_pos zero] at ok ⊢
      rw [if_neg (not_not.mpr zero)]
      obtain ⟨s', result, freed, same, cleared⟩ := ih indices ok
      exact ⟨s', result, freed, same, cleared.cons zero⟩
    rw [if_neg zero] at ok ⊢
    rw [if_pos zero]
    obtain ⟨s1, result, freed, same, inodes⟩ := bfree_freed (ok.2 _ mem_cons_self)
    have list : (s1.setAddr i n 0).direct i ns = s.direct i ns := by
      rw [direct, direct]
      congr 1
      refine map_congr_left fun m member => ?_
      have other : m ≠ n := by
        rintro rfl
        exact once member
      rw [(setAddr_cleared s1 i n).addrs i m, if_neg (by simp [other]), inodes]
    have freed : Freed s (s1.setAddr i n 0) [((s.inodes i).addrs n).toNat] :=
      ⟨freed.bits, freed.freed, freed.written⟩
    have ok : (s1.setAddr i n 0).Releasable (s.direct i ns) := freed.next ok
    rw [← list] at ok
    obtain ⟨s', result', freed', same', cleared'⟩ := ih indices ok
    rw [list] at freed'
    have cleared : Cleared s s1 i [] := .of_inodes inodes
    refine ⟨s', ?_, freed.trans freed', same.trans same',
      (cleared.trans (setAddr_cleared s1 i n)).trans cleared'⟩
    rw [result]
    exact result'

def indirect (s : Fs sb) (i : Fin sb.ninodes) : List Nat :=
  if (s.inodes i).addrs ndirect = 0 then []
  else s.entries ((s.inodes i).addrs ndirect).toNat (List.range nindirect) ++
    [((s.inodes i).addrs ndirect).toNat]

theorem truncIndirect_freed (ok : s.Releasable (s.indirect i)) :
    ∃ s', s.truncIndirect i = some s' ∧ Freed s s' (s.indirect i) ∧ SameData s s' ∧
      Cleared s s' i [ndirect] := by
  rw [indirect] at ok ⊢
  rw [truncIndirect]
  by_cases zero : (s.inodes i).addrs ndirect = 0
  · rw [if_pos zero, if_neg (not_not.mpr zero)]
    exact ⟨s, rfl, .refl s, fun _ _ => rfl, (Cleared.of_inodes rfl).cons zero⟩
  rw [if_neg zero] at ok ⊢
  rw [if_pos zero]
  generalize ((s.inodes i).addrs ndirect).toNat = blk at ok ⊢
  obtain ⟨s1, s2, result1, result2, freed, same, inodes⟩ := freeEntries_bfree ok
  have cleared : Cleared s s2 i [] := .of_inodes inodes
  refine ⟨s2.setAddr i ndirect 0, ?_, ⟨freed.bits, freed.freed, freed.written⟩, same,
    cleared.trans (setAddr_cleared s2 i ndirect)⟩
  simp only [result1, result2, bind_eq_bind, bind_some]

def doubly (s : Fs sb) (i : Fin sb.ninodes) : List Nat :=
  if (s.inodes i).addrs (ndirect + 1) = 0 then []
  else (List.range nindirect).flatMap (s.below ((s.inodes i).addrs (ndirect + 1)).toNat) ++
    [((s.inodes i).addrs (ndirect + 1)).toNat]

theorem truncDouble_freed (dropped : Bool) (ok : s.Releasable (s.doubly i)) :
    ∃ s', s.truncDouble i dropped = some s' ∧ Freed s s' (s.doubly i) ∧
      (∀ x, sb.dataStart ≤ x → x ≠ ((s.inodes i).addrs (ndirect + 1)).toNat →
        s'.disk x = s.disk x) ∧ Cleared s s' i [ndirect + 1] := by
  rw [doubly] at ok ⊢
  rw [truncDouble]
  by_cases zero : (s.inodes i).addrs (ndirect + 1) = 0
  · rw [if_pos zero, if_neg (not_not.mpr zero)]
    exact ⟨s, rfl, .refl s, fun _ _ _ => rfl, (Cleared.of_inodes rfl).cons zero⟩
  rw [if_neg zero] at ok ⊢
  rw [if_pos zero]
  generalize ((s.inodes i).addrs (ndirect + 1)).toNat = blk at ok ⊢
  have here := (ok.2 blk (by simp)).1
  obtain ⟨s1, result1, freed1, same1, inodes1⟩ := freeIndirect_freed here _ nodup_range ok
  -- whether the buffer is dropped or not, only the doubly-indirect block may differ
  have kept : ∃ s2, (if dropped then s1.setBlock blk (s.disk blk) else s1) = s2 ∧
      Freed s s2 ((range nindirect).flatMap (s.below blk)) ∧
      (∀ x, sb.dataStart ≤ x → x ≠ blk → s2.disk x = s.disk x) ∧ s2.inodes = s.inodes := by
    cases dropped with
    | false => exact ⟨s1, rfl, freed1, same1, inodes1⟩
    | true =>
      refine ⟨_, rfl, ⟨fun x inside => ?_, freed1.freed, freed1.written⟩,
        fun x at_ other => ?_, inodes1⟩
      · rw [← freed1.bits x inside]
        exact bit_setBlock_of_data inside here _
      · show update s1.disk blk _ x = _
        rw [update_of_ne other, same1 x at_ other]
  obtain ⟨s2, choice, freed2, same2, inodes2⟩ := kept
  obtain ⟨s3, result3, freed3, same3, inodes3⟩ := bfree_freed ((freed2.next ok).2 blk mem_cons_self)
  have freed := freed2.trans freed3
  have cleared : Cleared s s3 i [] := .of_inodes (inodes3.trans inodes2)
  refine ⟨s3.setAddr i (ndirect + 1) 0, ?_, ⟨freed.bits, freed.freed, freed.written⟩,
    fun x at_ other => (same3 x at_).trans (same2 x at_ other),
    cleared.trans (setAddr_cleared s3 i (ndirect + 1))⟩
  simp only [result1, choice, result3, bind_eq_bind, bind_some]

def blocksOf (s : Fs sb) (i : Fin sb.ninodes) : List Nat :=
  s.direct i (List.range ndirect) ++ s.indirect i ++ s.doubly i

end Truncating

end Fs

/-! ## All slots in the order of `itrunc` -/

variable {c : Slot}

namespace Slot

def directSlots : List Slot := (finRange ndirect).map fun n => .addr (n.castLE (by decide))

def indirectSlots : List Slot := (finRange nindirect).map .ind ++ [single]

def belowSlots (j : Fin nindirect) : List Slot :=
  (finRange nindirect).map (.leaf j) ++ [.mid j]

def doubleSlots : List Slot := (finRange nindirect).flatMap belowSlots ++ [double]

def truncOrder : List Slot := directSlots ++ indirectSlots ++ doubleSlots

theorem mem_truncOrder (c : Slot) : c ∈ truncOrder := by
  simp only [truncOrder, mem_append]
  cases c with
  | addr n =>
    by_cases direct : n.val < ndirect
    · exact .inl (.inl (mem_map.mpr ⟨⟨n.val, direct⟩, mem_finRange _, rfl⟩))
    by_cases last : n.val = ndirect
    · have same : addr n = single := congrArg addr (Fin.ext last)
      exact .inl (.inr (by simp [indirectSlots, same]))
    · have same : addr n = double := congrArg addr (Fin.ext (by
        show n.val = ndirect + 1
        omega))
      exact .inr (by simp [doubleSlots, same])
  | ind j => exact .inl (.inr (by simp [indirectSlots]))
  | mid | leaf => exact .inr (by simp [doubleSlots, belowSlots])

theorem nodup_map_concat {f : Fin nindirect → Slot} (inj : Injective f) (new : ∀ j, f j ≠ c) :
    ((finRange nindirect).map f ++ [c]).Nodup := by
  refine nodup_append.mpr ⟨(nodup_finRange _).map inj, nodup_singleton _, ?_⟩
  intro d member d' only
  obtain ⟨j, _, rfl⟩ := mem_map.mp member
  rw [mem_singleton.mp only]
  exact new j

theorem belowSlots_nodup (j : Fin nindirect) : (belowSlots j).Nodup :=
  nodup_map_concat (fun _ _ same => (leaf.inj same).2) fun _ same => by cases same

theorem doubleSlots_nodup : doubleSlots.Nodup := by
  refine nodup_append.mpr ⟨?_, nodup_singleton _, ?_⟩
  · refine nodup_flatMap.mpr ⟨fun j _ => belowSlots_nodup j, ?_⟩
    refine (nodup_finRange nindirect).imp fun {j j'} other => ?_
    intro c member member'
    simp only [belowSlots, mem_append, List.mem_map, mem_singleton] at member member'
    rcases member with ⟨k, _, rfl⟩ | rfl <;> rcases member' with ⟨k', _, same⟩ | same <;> cases same
    · exact other rfl
    · exact other rfl
  · intro c member d only same
    obtain ⟨j, _, member⟩ := mem_flatMap.mp member
    simp only [belowSlots, mem_append, List.mem_map, mem_singleton] at member
    rw [mem_singleton.mp only] at same
    subst same
    rcases member with ⟨k, _, same⟩ | same <;> cases same

theorem mem_directSlots (member : c ∈ directSlots) : ∃ n, c = .addr n ∧ n.val < ndirect := by
  obtain ⟨n, _, rfl⟩ := mem_map.mp member
  exact ⟨_, rfl, n.isLt⟩

theorem mem_indirectSlots (member : c ∈ indirectSlots) : (∃ j, c = .ind j) ∨ c = single := by
  rcases mem_append.mp member with inner | last
  · obtain ⟨j, _, rfl⟩ := mem_map.mp inner
    exact .inl ⟨j, rfl⟩
  · exact .inr (mem_singleton.mp last)

theorem mem_doubleSlots (member : c ∈ doubleSlots) :
    (∃ j k, c = .leaf j k) ∨ (∃ j, c = .mid j) ∨ c = double := by
  rcases mem_append.mp member with inner | last
  · obtain ⟨j, _, inner⟩ := mem_flatMap.mp inner
    rcases mem_append.mp inner with leaf | mid
    · obtain ⟨k, _, rfl⟩ := mem_map.mp leaf
      exact .inl ⟨j, k, rfl⟩
    · exact .inr (.inl ⟨j, mem_singleton.mp mid⟩)
  · exact .inr (.inr (mem_singleton.mp last))

theorem truncOrder_nodup : truncOrder.Nodup := by
  have direct : directSlots.Nodup :=
    (nodup_finRange _).map fun n n' same =>
      Fin.castLE_injective (by decide) (addr.inj same)
  have indirect : indirectSlots.Nodup :=
    nodup_map_concat (fun _ _ same => ind.inj same) fun _ same => by cases same
  refine nodup_append.mpr ⟨nodup_append.mpr ⟨direct, indirect, ?_⟩, doubleSlots_nodup, ?_⟩
  · rintro c first d second rfl
    obtain ⟨n, rfl, below⟩ := mem_directSlots first
    rcases mem_indirectSlots second with ⟨j, same⟩ | same
    · cases same
    · rw [addr.inj same] at below
      exact absurd below (Nat.lt_irrefl _)
  rintro c first d second rfl
  rcases mem_append.mp first with first | first
  · obtain ⟨n, rfl, below⟩ := mem_directSlots first
    rcases mem_doubleSlots second with ⟨j, k, same⟩ | ⟨j, same⟩ | same
    · cases same
    · cases same
    · rw [addr.inj same] at below
      exact absurd below (by decide)
  · rcases mem_indirectSlots first with ⟨j, rfl⟩ | rfl <;>
      rcases mem_doubleSlots second with ⟨j, k, same⟩ | ⟨j, same⟩ | same <;>
      exact absurd same (by simp [single, double])

end Slot

namespace Fs

section Blocks
variable {sb : Superblock} {s s' : Fs sb} {i : Fin sb.ninodes} {b : Nat}

def held (s : Fs sb) (i : Fin sb.ninodes) (cs : List Slot) : List Nat :=
  (cs.map (s.value i)).filter (· ≠ 0)

theorem held_append (s : Fs sb) (i : Fin sb.ninodes) (cs ds : List Slot) :
    s.held i (cs ++ ds) = s.held i cs ++ s.held i ds := by
  rw [held, map_append, filter_append]
  rfl

variable {slot : Fin nindirect → Slot} {p : Slot} {j : Fin nindirect} {cs : List Slot}

theorem held_eq_nil (none : ∀ c ∈ cs, s.value i c = 0) : s.held i cs = [] := by
  refine filter_eq_nil_iff.mpr fun x member => ?_
  obtain ⟨c, inside, rfl⟩ := mem_map.mp member
  simp [none c inside]

theorem held_singleton (has : s.value i c ≠ 0) : s.held i [c] = [s.value i c] := by
  simp [held, has]

theorem entries_eq_held (has : s.value i p ≠ 0) (above : ∀ j, (slot j).parent = some (p, j)) :
    s.entries (s.value i p) (range nindirect) =
      s.held i ((finRange nindirect).map slot) := by
  rw [entries, held, ← map_coe_finRange_eq_range, List.map_map, List.map_map]
  congr 1
  refine map_congr_left fun j _ => ?_
  simp only [Function.comp_apply, value_child s i (above j), child, if_neg has]

theorem held_child_eq_nil (none : s.value i p = 0) (above : ∀ j, (slot j).parent = some (p, j)) :
    s.held i ((finRange nindirect).map slot) = [] := by
  refine held_eq_nil fun c member => ?_
  obtain ⟨j, _, rfl⟩ := mem_map.mp member
  rw [value_child s i (above j), none, child, if_pos rfl]

theorem direct_eq_held (s : Fs sb) (i : Fin sb.ninodes) :
    s.direct i (List.range ndirect) = s.held i directSlots := by
  rw [direct, held, ← map_coe_finRange_eq_range, directSlots, List.map_map, List.map_map]
  rfl

theorem tree_eq_held (above : ∀ j, (slot j).parent = some (p, j)) : (if s.value i p = 0 then [] else
      s.entries (s.value i p) (range nindirect) ++ [s.value i p]) =
      s.held i ((finRange nindirect).map slot ++ [p]) := by
  rw [held_append]
  by_cases none : s.value i p = 0
  · rw [if_pos none, held_child_eq_nil none above, held_eq_nil (by simpa using none)]
    rfl
  · rw [if_neg none, entries_eq_held none above, held_singleton none]

theorem indirect_eq_held (s : Fs sb) (i : Fin sb.ninodes) :
    s.indirect i = s.held i indirectSlots := by
  rw [indirectSlots, ← tree_eq_held fun j => rfl, indirect]
  exact if_congr toNat_eq_zero.symm rfl rfl

theorem below_eq_held (has : s.value i .double ≠ 0) :
    s.below (s.value i .double) j = s.held i (belowSlots j) := by
  have entry : s.value i (.mid j) = (s.disk (s.value i .double) j).toNat := by
    rw [value_child s i (rfl : (mid j).parent = some (.double, j)), child, if_neg has]
  rw [belowSlots, ← tree_eq_held fun k => rfl, below, entry]
  exact if_congr toNat_eq_zero.symm rfl rfl

theorem doubly_eq_held (s : Fs sb) (i : Fin sb.ninodes) :
    s.doubly i = s.held i doubleSlots := by
  have zero : (s.inodes i).addrs (ndirect + 1) = 0 ↔ s.value i .double = 0 := toNat_eq_zero.symm
  rw [doubleSlots, held_append, doubly, if_congr zero rfl rfl]
  by_cases none : s.value i .double = 0
  · have inner : s.held i ((finRange nindirect).flatMap belowSlots) = [] := by
      refine held_eq_nil fun c member => ?_
      obtain ⟨j, _, member⟩ := mem_flatMap.mp member
      have mid : s.value i (.mid j) = 0 := by
        rw [value_child s i (rfl : (mid j).parent = some (.double, j)), none, child,
          if_pos rfl]
      rcases mem_append.mp member with leaf | last
      · obtain ⟨k, _, rfl⟩ := mem_map.mp leaf
        rw [value_child s i (rfl : (Slot.leaf j k).parent = some (.mid j, k)), mid, child,
          if_pos rfl]
      · rw [mem_singleton.mp last]
        exact mid
    rw [if_pos none, inner, held_eq_nil (by simpa using none)]
    rfl
  · rw [if_neg none, held_singleton none]
    congr 1
    rw [held, map_flatMap, filter_flatMap, ← map_coe_finRange_eq_range, flatMap_map]
    refine flatMap_congr fun j _ => ?_
    exact below_eq_held none

theorem blocksOf_eq_held (s : Fs sb) (i : Fin sb.ninodes) :
    s.blocksOf i = s.held i truncOrder := by
  rw [blocksOf, direct_eq_held, indirect_eq_held, doubly_eq_held, truncOrder, held_append,
    held_append]

theorem mem_blocksOf : b ∈ s.blocksOf i ↔ b ≠ 0 ∧ ∃ c, s.value i c = b := by
  rw [blocksOf_eq_held, held, mem_filter, List.mem_map]
  constructor
  · rintro ⟨⟨c, _, same⟩, pos⟩
    exact ⟨by simpa using pos, c, same⟩
  · rintro ⟨pos, c, same⟩
    exact ⟨⟨c, mem_truncOrder c, same⟩, by simpa using pos⟩

theorem Sound.blocksOf_inUse (sound : s.Sound) (member : b ∈ s.blocksOf i) : s.InUse b := by
  obtain ⟨pos, c, rfl⟩ := mem_blocksOf.mp member
  exact sound.inUse pos

theorem Sound.blocksOf_nodup (sound : s.Sound) (i : Fin sb.ninodes) : (s.blocksOf i).Nodup := by
  rw [blocksOf_eq_held, held, List.filter_map]
  refine Nodup.map_on ?_ (truncOrder_nodup.filter _)
  intro c member d _ same
  have has : s.value i c ≠ 0 := by simpa using (mem_filter.mp member).2
  exact (sound.distinct has same).2

/-! ## The effect of `itrunc` -/

structure Truncated (s s' : Fs sb) (i : Fin sb.ninodes) : Prop where
  addrs : ∀ i' (n : Fin (ndirect + 2)),
    (s'.inodes i').addrs n = if i' = i then 0 else (s.inodes i').addrs n
  bits : ∀ x, x < sb.size → s'.bit x = (s.bit x && decide (x ∉ s.blocksOf i))
  blocks : ∀ x, sb.dataStart ≤ x → x ≠ s.value i .double → s'.disk x = s.disk x
  freed : s'.freed = (s.blocksOf i).reverse ++ s.freed
  written : s'.written =
    sb.iblock i.val :: (((s.blocksOf i).map sb.bblock).reverse ++ s.written)
  others : ∀ i', i' ≠ i → s'.inodes i' = s.inodes i'

theorem iupdate_bit (s : Fs sb) (i : Fin sb.ninodes) (x : Nat) : (s.iupdate i).bit x = s.bit x := by
  have before := iblock_lt i
  refine bit_setBlock (Nat.ne_of_gt (Nat.lt_of_lt_of_le before ?_)) _
  exact Nat.le_add_left _ _

theorem iupdate_disk (s : Fs sb) (i : Fin sb.ninodes) {x : Nat} (data : sb.dataStart ≤ x) :
    (s.iupdate i).disk x = s.disk x := by
  have before := iblock_lt i
  have start := bmapstart_le sb
  show update s.disk (sb.iblock i.val) _ x = s.disk x
  rw [update_of_ne (by omega)]

theorem value_below (sound : s.Sound) (same : SameData s s') (above : c.parent = some (p, j))
    (parent : s'.value i p = s.value i p) : s'.value i c = s.value i c := by
  rw [value_child s i above, value_child s' i above, parent, child, child]
  by_cases none : s.value i p = 0
  · rw [if_pos none, if_pos none]
  · rw [if_neg none, if_neg none, same _ (sound.inUse none).1]

theorem held_congr (same : ∀ c ∈ cs, s'.value i c = s.value i c) : s'.held i cs = s.held i cs := by
  rw [held, held, map_congr_left same]

theorem indirect_congr (sound : s.Sound) (same : SameData s s')
    (root : (s'.inodes i).addrs ndirect = (s.inodes i).addrs ndirect) :
    s'.indirect i = s.indirect i := by
  have top : s'.value i .single = s.value i .single := congrArg BitVec.toNat root
  rw [indirect_eq_held, indirect_eq_held]
  refine held_congr fun c member => ?_
  rcases mem_indirectSlots member with ⟨j, rfl⟩ | rfl
  · exact value_below (j := j) sound same rfl top
  · exact top

theorem doubly_congr (sound : s.Sound) (same : SameData s s')
    (root : (s'.inodes i).addrs (ndirect + 1) = (s.inodes i).addrs (ndirect + 1)) :
    s'.doubly i = s.doubly i := by
  have top : s'.value i .double = s.value i .double := congrArg BitVec.toNat root
  have middle : ∀ j, s'.value i (.mid j) = s.value i (.mid j) :=
    fun j => value_below (j := j) sound same rfl top
  rw [doubly_eq_held, doubly_eq_held]
  refine held_congr fun c member => ?_
  rcases mem_doubleSlots member with ⟨j, k, rfl⟩ | ⟨j, rfl⟩ | rfl
  · exact value_below (j := k) sound same rfl (middle j)
  · exact middle j
  · exact top

theorem itrunc_truncated (sound : s.Sound) (i : Fin sb.ninodes) (dropped : Bool) :
    ∃ s', s.itrunc i dropped = some s' ∧ Truncated s s' i := by
  have ok : s.Releasable (s.direct i (range ndirect) ++ s.indirect i ++ s.doubly i) :=
    ⟨sound.blocksOf_nodup i, fun b member => sound.blocksOf_inUse member⟩
  -- the three parts, each with the blocks of the state before
  obtain ⟨s1, result1, freed1, same1, cleared1⟩ := truncDirect_freed _ nodup_range ok.left.left
  have single : s1.indirect i = s.indirect i := by
    refine indirect_congr sound same1 ?_
    rw [cleared1.addrs, if_neg (by simp)]
  have ok1 := freed1.next ok.left
  rw [← single] at ok1
  obtain ⟨s2, result2, freed2, same2, cleared2⟩ := truncIndirect_freed ok1
  rw [single] at freed2
  have freed12 := freed1.trans freed2
  have same12 := same1.trans same2
  have cleared12 := cleared1.trans cleared2
  have double : (s2.inodes i).addrs (ndirect + 1) = (s.inodes i).addrs (ndirect + 1) := by
    rw [cleared12.addrs, if_neg (by simp)]
  have twice : s2.doubly i = s.doubly i := doubly_congr sound same12 double
  have ok2 := freed12.next ok
  rw [← twice] at ok2
  obtain ⟨s3, result3, freed3, same3, cleared3⟩ := truncDouble_freed dropped ok2
  rw [twice] at freed3
  have freed : Freed s s3 (s.blocksOf i) := freed12.trans freed3
  have cleared := cleared12.trans cleared3
  refine ⟨(s3.setInode i { s3.inodes i with size := 0 }).iupdate i, ?_, ?_⟩
  · simp only [itrunc, result1, result2, result3, bind_eq_bind, bind_some]
  refine ⟨fun i' n => ?_, fun x inside => ?_, fun x data other => ?_, freed.freed, ?_,
    fun i' other => ?_⟩
  · have range : n.val ∈ range ndirect ++ [ndirect] ++ [ndirect + 1] := by
      have limit := n.isLt
      simp only [mem_append, mem_range, mem_singleton]
      omega
    have now := cleared.addrs i' n.val
    rw [if_congr (and_iff_left range) rfl rfl] at now
    rw [← now]
    show (update s3.inodes i _ i').addrs n.val = _
    by_cases here : i' = i
    · subst here
      rw [update_self]
    · rw [update_of_ne here]
  · rw [iupdate_bit, ← freed.bits x inside]
    rfl
  · rw [iupdate_disk _ _ data, setInode_disk, same3 x data (by rwa [double]), same12 x data]
  · rw [← freed.written]
    rfl
  · rw [← cleared.others i' other]
    exact update_of_ne other _ _

theorem Truncated.value (truncated : Truncated s s' i) (sound : s.Sound) (i' : Fin sb.ninodes)
    (c : Slot) : s'.value i' c = if i' = i then 0 else s.value i' c := by
  refine value_of_cleared (· = i) truncated.addrs (fun i' c p j _ here has => ?_) i' c
  -- the index block of another inode is not the one that has changed
  have other : s.value i' p ≠ s.value i .double := fun same => here (sound.distinct has same).1
  exact truncated.blocks _ (sound.inUse has).1 other

theorem Truncated.sound (truncated : Truncated s s' i) (sound : s.Sound) : s'.Sound where
  owned := by
    refine sound.owned.drop (fun o => o.1 = i) (fun o inside => ?_) (fun o outside => ?_)
      fun r used kept => ⟨used.1, used.2.1, ?_⟩
    · rw [truncated.value sound, if_pos inside]
    · rw [truncated.value sound, if_neg outside]
    · have absent : r ∉ s.blocksOf i := by
        intro member
        obtain ⟨_, c, same⟩ := mem_blocksOf.mp member
        exact kept (i, c) rfl same
      rw [truncated.bits r used.2.1, used.2.2]
      simpa using absent
  reserved x early := by
    have absent : x ∉ s.blocksOf i := by
      intro member
      have data := (sound.blocksOf_inUse member).1
      omega
    rw [truncated.bits x (Nat.lt_of_lt_of_le early (dataStart_le_size sb)), sound.reserved x early]
    simpa using absent

end Blocks

/-! ## Sequences of calls -/

inductive Op (sb : Superblock) where
  | bmap (i : Fin sb.ninodes) (bn : Fin maxfile)
  | itrunc (i : Fin sb.ninodes) (dropped : Bool)
  deriving DecidableEq, Repr

section Runs
variable {sb : Superblock}

def call (s : Fs sb) : Op sb → Fs sb
  | .bmap i bn => ((s.bmap i bn.val).map Prod.snd).getD s
  | .itrunc i dropped => (s.itrunc i dropped).getD s

def Enough (s : Fs sb) : Op sb → Prop
  | .bmap i bn => (s.missing i (dataSlot bn).path).length ≤ s.freeList.length
  | .itrunc _ _ => True

instance (s : Fs sb) : ∀ op, Decidable (s.Enough op) := by
  rintro ⟨⟩ <;> dsimp only [Fs.Enough] <;> infer_instance

def returned (s : Fs sb) (i : Fin sb.ninodes) (bn : Fin maxfile) : Option Nat :=
  (s.bmap i bn.val).map Prod.fst

def Reaches (s : Fs sb) (i : Fin sb.ninodes) (b : Nat) : Prop := b ≠ 0 ∧ ∃ c, s.value i c = b

def IndexBlock (s : Fs sb) (i : Fin sb.ninodes) (b : Nat) : Prop :=
  b ≠ 0 ∧ ∃ c, c.IsIndex ∧ s.value i c = b

def NoTrunc (i : Fin sb.ninodes) (ops : List (Op sb)) : Prop :=
  ∀ dropped, .itrunc i dropped ∉ ops

/-- For an inode that is not truncated, `bmap` returns the same block exactly for the same block number,
never an index block or a block of another inode; `itrunc` frees each block of the inode once and no
other. -/
structure MapsBlocks (s : Fs sb) (ops : List (Op sb)) : Prop where
  stable : ∀ pre between post i bn bn',
    ops = pre ++ .bmap i bn :: (between ++ .bmap i bn' :: post) →
    NoTrunc i between → ∃ b b', (pre.foldl call s).returned i bn = some b ∧
      ((pre ++ .bmap i bn :: between).foldl call s).returned i bn' = some b' ∧ (b' = b ↔ bn' = bn)
  apart : ∀ pre between post i bn, ops = pre ++ .bmap i bn :: (between ++ post) →
    NoTrunc i between → ∃ b, (pre.foldl call s).returned i bn = some b ∧
      ¬ ((pre ++ .bmap i bn :: between).foldl call s).IndexBlock i b ∧
      ∀ i', i' ≠ i → ¬ ((pre ++ .bmap i bn :: between).foldl call s).Reaches i' b
  truncates : ∀ pre post i dropped, ops = pre ++ .itrunc i dropped :: post →
    ∃ s' bs, (pre.foldl call s).itrunc i dropped = some s' ∧
      (∀ n : Fin (ndirect + 2), (s'.inodes i).addrs n = 0) ∧
      s'.freed = bs ++ (pre.foldl call s).freed ∧ bs.Nodup ∧
      (∀ b, b ∈ bs ↔ (pre.foldl call s).Reaches i b) ∧
      ∀ b, b < sb.size → (s'.bit b = true ↔ (pre.foldl call s).bit b = true ∧ b ∉ bs)

variable {s : Fs sb} {i : Fin sb.ninodes} {bn : Fin maxfile} {op : Op sb}

theorem bmap_enough (sound : s.Sound) (enough : s.Enough (.bmap i bn)) :
    ∃ s', s.bmap i bn.val = some (s'.value i (dataSlot bn), s') ∧ s'.Sound ∧
      Grown s s' i (s.missing i (dataSlot bn).path) [] ∧ s'.value i (dataSlot bn) ≠ 0 := by
  rcases bmap_cases (i := i) sound bn with ⟨s', result, sound', grown, all⟩ | ⟨_, few⟩
  · exact ⟨s', result, sound', grown, all _ (mem_path_self _)⟩
  · exact absurd enough (Nat.not_le.mpr few)

theorem Sound.call (sound : s.Sound) (enough : s.Enough op) : (s.call op).Sound := by
  cases op with
  | bmap i bn =>
    obtain ⟨s', result, sound', _⟩ := bmap_enough sound enough
    simp only [Fs.call, result, map_some, getD_some]
    exact sound'
  | itrunc i dropped =>
    obtain ⟨s', result, truncated⟩ := itrunc_truncated sound i dropped
    simp only [Fs.call, result, getD_some]
    exact truncated.sound sound

theorem call_value (sound : s.Sound) (enough : s.Enough op) (kept : NoTrunc i [op])
    (has : s.value i c ≠ 0) : (s.call op).value i c = s.value i c := by
  cases op with
  | bmap i' bn =>
    obtain ⟨s', result, _, grown, _⟩ := bmap_enough sound enough
    simp only [Fs.call, result, map_some, getD_some]
    exact grown.stays has
  | itrunc i' dropped =>
    have other : i ≠ i' := by
      rintro rfl
      exact kept dropped (by simp)
    obtain ⟨s', result, truncated⟩ := itrunc_truncated sound i' dropped
    simp only [Fs.call, result, getD_some]
    rw [truncated.value sound, if_neg other]

theorem calls_value (ops : List (Op sb)) : ∀ {s : Fs sb}, s.Sound →
    RunMeets call Enough s ops → NoTrunc i ops → s.value i c ≠ 0 →
      (ops.foldl call s).Sound ∧ (ops.foldl call s).value i c = s.value i c := by
  induction ops with
  | nil => exact fun sound _ _ _ => ⟨sound, rfl⟩
  | cons op rest ih =>
    intro s sound enough kept has
    have first : NoTrunc i [op] := fun dropped only =>
      kept dropped (by simp [mem_singleton.mp only])
    have later : NoTrunc i rest := fun dropped member =>
      kept dropped (mem_cons_of_mem _ member)
    have same := call_value sound enough.1 first has
    obtain ⟨sound', value⟩ := ih (sound.call enough.1) enough.2 later (by rwa [same])
    exact ⟨sound', value.trans same⟩

/-- After a call of `bmap` the block it has returned is in the slot, and it stays there. -/
theorem bmap_then (ops : List (Op sb)) (sound : s.Sound)
    (enough : RunMeets call Enough s (.bmap i bn :: ops)) (kept : NoTrunc i ops) :
    ∃ b, s.returned i bn = some b ∧ b ≠ 0 ∧ ((Op.bmap i bn :: ops).foldl call s).Sound ∧
      ((Op.bmap i bn :: ops).foldl call s).value i (dataSlot bn) = b := by
  obtain ⟨s', result, sound', _, has⟩ := bmap_enough sound enough.1
  have next : s.call (.bmap i bn) = s' := by
    simp only [Fs.call, result, map_some, getD_some]
  have later := enough.2
  rw [next] at later
  obtain ⟨sound'', value⟩ := calls_value ops sound' later kept has
  refine ⟨_, by rw [returned, result, map_some], has, ?_⟩
  rw [foldl_cons, next]
  exact ⟨sound'', value⟩

/-- Every sequence of calls that finds enough free blocks maps blocks as it should. -/
theorem calls_map_blocks (s : Fs sb) (sound : s.Sound) (ops : List (Op sb))
    (enough : RunMeets call Enough s ops) : s.MapsBlocks ops := by
  have reached : ∀ {pre : List (Op sb)}, RunMeets call Enough s pre → (pre.foldl call s).Sound :=
    fun {pre} meets => run_invariant call Enough Sound (fun s op sound ok => sound.call ok) pre s
      sound meets
  refine ⟨?_, ?_, ?_⟩
  · intro pre between post i bn bn' split kept
    rw [split] at enough
    obtain ⟨before, after⟩ := enough.append
    rw [← cons_append] at after
    obtain ⟨first, later⟩ := after.append
    obtain ⟨b, result, pos, sound', value⟩ := bmap_then between (reached before) first kept
    obtain ⟨b', result', pos', sound'', value'⟩ :=
      bmap_then [] sound' ⟨later.1, trivial⟩ (fun _ never => by cases never)
    -- the first block is still in its slot after the second call
    have stays := (calls_value [.bmap i bn'] sound' ⟨later.1, trivial⟩
      (fun _ never => by simp at never) (by rwa [value])).2
    rw [value] at stays
    rw [foldl_append]
    refine ⟨b, b', result, result', fun same => ?_, fun same => ?_⟩
    · rw [← value', ← stays] at same
      exact dataSlot_inj (sound''.distinct (by rwa [value']) same).2
    · rw [← value', ← stays, same]
  · intro pre between post i bn split kept
    rw [split] at enough
    obtain ⟨before, after⟩ := enough.append
    rw [← cons_append] at after
    obtain ⟨b, result, pos, sound', value⟩ := bmap_then between (reached before) after.append.1 kept
    rw [foldl_append]
    refine ⟨b, result, ?_, ?_⟩
    · rintro ⟨_, c, index, same⟩
      rw [← value] at same pos
      rw [← (sound'.distinct pos same.symm).2] at index
      exact dataSlot_not_index bn index
    · rintro i' other ⟨_, c, same⟩
      rw [← value] at same pos
      exact other (sound'.distinct pos same.symm).1.symm
  · intro pre post i dropped split
    rw [split] at enough
    have sound' := reached enough.append.1
    obtain ⟨s', result, truncated⟩ := itrunc_truncated sound' i dropped
    refine ⟨s', _, result, fun n => ?_, truncated.freed,
      nodup_reverse.mpr (sound'.blocksOf_nodup i), fun b => ?_, fun b inside => ?_⟩
    · rw [truncated.addrs, if_pos rfl]
    · rw [mem_reverse]
      exact mem_blocksOf
    · rw [truncated.bits b inside, mem_reverse]
      simp

end Runs

def smallDisk : Superblock := ⟨16, 4, 2, 3, by decide, by decide, by decide⟩

def emptyFiles : Fs smallDisk where
  disk b k := if b = 3 ∧ k = 0 then 15 else 0
  inodes _ := ⟨2, 0, 0, 1, 0, fun _ => 0⟩
  written := []
  freed := []

def growAndTrunc : List (Op smallDisk) :=
  [.bmap ⟨1, by decide⟩ ⟨0, by decide⟩, .bmap ⟨2, by decide⟩ ⟨0, by decide⟩,
    .bmap ⟨1, by decide⟩ ⟨600, by decide⟩, .bmap ⟨1, by decide⟩ ⟨0, by decide⟩,
    .itrunc ⟨1, by decide⟩ true]

theorem emptyFiles_value (i : Fin smallDisk.ninodes) (c : Slot) : emptyFiles.value i c = 0 := by
  cases c <;> rfl

theorem emptyFiles_sound : emptyFiles.Sound where
  owned := by
    refine ⟨fun o _ has => ?_, fun o has => ?_⟩
    · exact absurd (emptyFiles_value o.1 o.2) has
    · exact absurd (emptyFiles_value o.1 o.2) has
  reserved := by decide

theorem calls_map_blocks_growAndTrunc :
    emptyFiles.Sound ∧ RunMeets call Enough emptyFiles growAndTrunc ∧
      emptyFiles.MapsBlocks growAndTrunc := by
  have enough : RunMeets call Enough emptyFiles growAndTrunc := by decide +kernel
  exact ⟨emptyFiles_sound, enough, calls_map_blocks emptyFiles emptyFiles_sound growAndTrunc enough⟩

def nothingInUse : Fs smallDisk := { emptyFiles with disk := fun _ _ => 0 }

/-- Two calls of `bmap` for the same block return block 0 and block 1. -/
theorem bmap_unstable_without_reserved : (∀ i c, nothingInUse.value i c = 0) ∧
      nothingInUse.returned ⟨1, by decide⟩ ⟨0, by decide⟩ = some 0 ∧
      (nothingInUse.call (.bmap ⟨1, by decide⟩ ⟨0, by decide⟩)).returned ⟨1, by decide⟩
        ⟨0, by decide⟩ = some 1 := by
  refine ⟨fun i c => ?_, by decide +kernel, by decide +kernel⟩
  cases c <;> rfl

end Fs

end KernelLabs.Xv6
