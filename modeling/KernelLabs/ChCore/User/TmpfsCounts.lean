import Mathlib.Data.List.Nodup
import KernelLabs.ChCore.User.TmpfsTree

/-!
# What the reference counts of tmpfs count

The entries of a tree have distinct addresses and refer to inodes that are not freed (`Tree`), and
a reference count is not above the number of entries that refer to the inode and of the references
that are held otherwise (`Counted`).  It can be below for a directory: a removal that fails with
`-ENOTEMPTY` has given its reference back and leaves the entry.
-/

set_option autoImplicit false

namespace KernelLabs.ChCore.Tmpfs

open Function List

def Heap.entries (h : Heap) (i : Nat) : Nat :=
  h.links.countP fun l => l.dent.inode = i

structure Linked (h : Heap) : Prop where
  distinct : (h.links.map fun l => l.dent.addr).Nodup
  below : ∀ l ∈ h.links, l.dent.addr < h.nextDent

structure Tree (h : Heap) : Prop extends Linked h where
  dirs : ∀ l ∈ h.links, h.isType l.dir .dir = true
  inodes : ∀ l ∈ h.links, (h.nodes l.dent.inode).isSome = true
  allocated : ∀ i, (h.nodes i).isSome = true → i < h.nextInode
  root : h.isType h.root .dir = true
  rootUnlinked : ∀ l ∈ h.links, l.dent.addr ≠ h.rootDent.addr
  rootBelow : h.rootDent.addr < h.nextDent

/-- The count of an inode to which `entries` entries refer and of which `held` references are held
otherwise. -/
structure Node.Counts (node : Node) (entries held : Nat) : Prop where
  le : node.refcnt ≤ entries + held
  eq : node.type ≠ .dir ∨ 0 < held → node.refcnt = entries + held
  used : 0 < entries + held

def Counted (h : Heap) (held : Nat → Nat) : Prop :=
  ∀ i node, h.nodes i = some node → node.Counts (h.entries i) (held i)

/-- Between two requests: the root has the reference that `new_dir` took and that of
`tmpfs_root_dent`. -/
def atRest (h : Heap) : Nat → Nat := fun i => if i = h.root then 2 else 0

/-! ## Entries -/

theorem Linked.eq_of_addr {h : Heap} (linked : Linked h) {l m : Link} (inL : l ∈ h.links)
    (inM : m ∈ h.links) (same : l.dent.addr = m.dent.addr) : l = m :=
  inj_on_of_nodup_map linked.distinct inL inM same

theorem mem_unlink {h : Heap} {dent : Dentry} {l : Link} :
    l ∈ (h.unlink dent).links ↔ l ∈ h.links ∧ l.dent.addr ≠ dent.addr := by
  simp [Heap.unlink]

/-! ## A new entry -/

section Link
variable {h : Heap} {dir i : Nat} {name : Name}

def Heap.link (h : Heap) (dir : Nat) (name : Name) (i : Nat) : Heap :=
  htableAdd (newDent h i name).2 dir (newDent h i name).1

theorem link_links : (h.link dir name i).links = ⟨dir, ⟨h.nextDent, name, i⟩⟩ :: h.links := rfl

theorem Linked.link (linked : Linked h) : Linked (h.link dir name i) := by
  constructor
  · rw [link_links, map_cons, nodup_cons]
    refine ⟨fun member => ?_, linked.distinct⟩
    obtain ⟨l, inLinks, same⟩ := List.mem_map.mp member
    exact absurd same (Nat.ne_of_lt (linked.below l inLinks))
  · intro l member
    rw [link_links, mem_cons] at member
    rcases member with rfl | member
    · exact Nat.lt_succ_self h.nextDent
    · exact Nat.lt_succ_of_lt (linked.below l member)

end Link

/-! ## A dropped entry -/

section Unlink
variable {h : Heap} {dent : Dentry}

theorem Linked.setNode {i : Nat} (node : Option Node) (linked : Linked h) :
    Linked (h.setNode i node) :=
  ⟨linked.distinct, linked.below⟩

theorem Linked.unlink (linked : Linked h) : Linked (h.unlink dent) where
  distinct := linked.distinct.sublist (filter_sublist.map _)
  below := fun l member => linked.below l (mem_unlink.mp member).1

end Unlink

/-! ## What stays when something is added -/

structure Sound (h : Heap) : Prop extends Tree h where
  counted : Counted h (atRest h)

/-! ## The tree at the start -/

theorem initTmpfs_nodes (j : Nat) : initTmpfs.nodes j =
    if j = 0 then some ⟨4, .dir, { newReg with size := 2 }⟩ else none := by
  by_cases root : j = 0
  · subst root
    rfl
  · simp [initTmpfs, newDir, newInode, newDent, addNewDent, growDir, htableAdd, getInode, emptyHeap,
      Heap.modify, root]

theorem initTmpfs_sound : Sound initTmpfs where
  distinct := by decide
  below := by decide
  dirs := by decide
  inodes := by decide
  allocated := by
    intro j live
    rw [initTmpfs_nodes] at live
    split at live
    · subst_vars
      decide
    · cases live
  root := by decide
  rootUnlinked := by decide
  rootBelow := by decide
  counted := by
    intro j node present
    rw [initTmpfs_nodes] at present
    split at present
    · subst_vars
      cases present
      exact ⟨by decide, by decide, by decide⟩
    · cases present

end KernelLabs.ChCore.Tmpfs
