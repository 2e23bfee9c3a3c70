import KernelLabs.Lib.Runs
import KernelLabs.ChCore.User.TmpfsCounts

/-!
# Removing a directory of tmpfs

`tfs_remove` on an entry that is a directory, in the trees that `tfs_mkdir`, `tfs_creat` and
`tfs_remove` build.  The reference count of a directory counts its own `"."` and the `".."` of its
subdirectories, so giving back the reference of the entry does not reach the test of emptiness in
`del_inode`; and where it does, the count has already been lowered when the test fails.
-/

set_option autoImplicit false

namespace KernelLabs.ChCore.Tmpfs

open Lib Function List Option

/-! ## The trees -/

inductive TreeCall where
  | mkdir (dir : Nat) (name : Name) (mem : Mem)
  | creat (dir : Nat) (name : Name) (mem : Mem)
  | remove (dir : Nat) (name : Name)

def treeCall (h : Heap) : TreeCall → Option Heap
  | .mkdir dir name mem =>
    if h.isType dir .dir then (tfsMkdir h dir name mem).map fun result => result.2.1 else none
  | .creat dir name mem =>
    if h.isType dir .dir then (tfsCreat h dir name mem).map fun result => result.2.1 else none
  | .remove dir name => (tfsRemove h dir name).map Prod.snd

def Built (h : Heap) : Prop := ∃ calls, foldlM treeCall initTmpfs calls = some h

structure Entries (h : Heap) : Prop extends Linked h where
  named : ∀ l ∈ h.links, l.dent.name ≠ []

section Entries
variable {h h' : Heap} {dir i : Nat} {name : Name}

section
variable (entries : Entries h)
include entries

theorem Entries.of_links (links : h'.links = h.links)
    (nextDent : h'.nextDent = h.nextDent) : Entries h' where
  distinct := links ▸ entries.distinct
  below := nextDent ▸ links ▸ entries.below
  named := links ▸ entries.named

theorem Entries.addNewDent (nonempty : name ≠ []) : Entries (addNewDent h dir name i).2 := by
  refine ⟨⟨entries.toLinked.link.distinct, entries.toLinked.link.below⟩, fun l member => ?_⟩
  rcases mem_cons.mp member with rfl | member
  · exact nonempty
  · exact entries.named l member

variable {err : Int} {type : FileType} {symlink : Name} {mem : Mem}

theorem Entries.newOfType (new : newOfType h dir type symlink mem = some (i, h')) : Entries h' := by
  cases type with
  | dir =>
    cases new
    have made : Entries (newInode h .dir newReg).2 := entries.of_links rfl rfl
    exact (made.addNewDent (by decide)).addNewDent (by decide)
  | reg =>
    cases new
    exact entries.of_links rfl rfl
  | sym =>
    simp only [Tmpfs.newOfType, newSymlink] at new
    split at new
    · cases new
    · split at new
      · cases new
        exact entries.of_links rfl rfl
      · cases new

theorem Entries.putInode (put : putInode h i = some (err, h')) : Entries h' := by
  rcases putInode_cases put with ⟨_, _, _, _, rfl⟩ | ⟨_, _, rfl⟩ | ⟨_, _, _, _, _, _, rfl⟩
  all_goals exact entries.of_links rfl rfl

theorem Entries.tfsMknod {dent : Option Dentry}
    (made : tfsMknod h dir name type symlink mem = some (err, h', dent)) : Entries h' := by
  unfold Tmpfs.tfsMknod at made
  split at made
  · cases made
    exact entries
  rename_i nonempty
  split at made
  · cases made
    exact entries
  split at made
  · cases made
  rcases new : Tmpfs.newOfType h dir type symlink mem with _ | result
  · simp [new] at made
  cases put : Tmpfs.putInode (Tmpfs.addNewDent result.2 dir name result.1).2 result.1 with
  | none => simp [new, put] at made
  | some done =>
    simp only [new, put] at made
    cases made
    exact ((entries.newOfType new).addNewDent nonempty).putInode put

theorem Entries.tfsRemove (removed : tfsRemove h dir name = some (err, h')) : Entries h' := by
  unfold Tmpfs.tfsRemove at removed
  split at removed
  · cases removed
  split at removed
  · cases removed
    exact entries
  split at removed
  · cases removed
    exact entries
  rename_i dent found
  rcases dropEntry_cases (tfsLookup_some found).1 removed with ⟨_, _, _, _, rfl⟩ | ⟨_, _, rfl⟩ |
    ⟨_, _, _, _, _, _, rfl⟩
  · exact ⟨(entries.toLinked.setNode _).unlink,
      fun l member => entries.named l (mem_unlink.mp member).1⟩
  · exact ⟨(entries.toLinked.setNode _).unlink,
      fun l member => entries.named l (mem_unlink.mp member).1⟩
  · exact entries.of_links rfl rfl

end

end Entries

theorem treeCall_entries (h : Heap) (call : TreeCall) (h' : Heap) (entries : Entries h)
    (called : treeCall h call = some h') : Entries h' := by
  cases call with
  | mkdir | creat =>
    obtain ⟨_, mapped⟩ := ite_none_right_eq_some.mp called
    obtain ⟨result, made, rfl⟩ := map_eq_some_iff.mp mapped
    exact entries.tfsMknod (ite_none_left_eq_some.mp made).2
  | remove dir name =>
    obtain ⟨result, removed, rfl⟩ := map_eq_some_iff.mp called
    exact entries.tfsRemove removed

theorem Built.entries {h : Heap} (built : Built h) : Entries h := by
  obtain ⟨calls, run⟩ := built
  have start : Entries initTmpfs := ⟨initTmpfs_sound.toLinked, by decide⟩
  exact reached_invariant treeCall Entries treeCall_entries calls initTmpfs h start run

/-! ## The removal of a directory -/

def HasOther (h : Heap) (d : Nat) : Prop :=
  ∃ l ∈ h.links, l.dir = d ∧ l.dent.name ≠ dot ∧ l.dent.name ≠ dotdot

def parentRefs (h : Heap) (dir d : Nat) : Nat :=
  h.links.countP fun l => l.dir = d ∧ l.dent.name = dotdot ∧ l.dent.inode = dir

/-- Exactly the entry is removed, its directory is freed with what it still contains, and `dir` has
lost the references of `".."`. -/
structure Removed (h h' : Heap) (dir : Nat) (entry : Dentry) : Prop where
  links : h'.links = h.links.filter fun l => l.dent ≠ entry ∧ l.dir ≠ entry.inode
  freed : h'.nodes entry.inode = none
  parent : ∃ node node', h.nodes dir = some node ∧ h'.nodes dir = some node' ∧
    node'.refcnt = node.refcnt - parentRefs h dir entry.inode
  others : ∀ i, i ≠ dir → i ≠ entry.inode → h'.nodes i = h.nodes i

def RemovesDirectory (h : Heap) (dir : Nat) (name : Name) (entry : Dentry) : Prop :=
  ∃ err h', tfsRemove h dir name = some (err, h') ∧
    (err = -enotempty ∧ h' = h ↔ HasOther h entry.inode) ∧
    (¬ HasOther h entry.inode → err = 0 ∧ Removed h h' dir entry)

section Removal
variable {h : Heap} {dir : Nat} {name : Name} {entry : Dentry} {node : Node}

section
variable (isDir : h.isType dir .dir = true) (nonempty : name ≠ [])
  (named : tfsLookup h dir name = some entry)
include isDir nonempty named

theorem tfsRemove_entry : tfsRemove h dir name = dropEntry h entry := by
  simp [tfsRemove, isDir, nonempty, named]

/-- With a second reference the entry goes, whatever is in the directory, and the directory
stays. -/
theorem not_removes_shared (present : h.nodes entry.inode = some node)
    (shared : 1 < node.refcnt) : ¬ RemovesDirectory h dir name entry := by
  rintro ⟨err, h', removed, refused, emptied⟩
  rw [tfsRemove_entry isDir nonempty named,
    dropEntry_shared (tfsLookup_some named).1 present shared] at removed
  cases removed
  by_cases other : HasOther h entry.inode
  · exact absurd (refused.mpr other).1 (by decide)
  · have freed := (emptied other).2.freed
    rw [Heap.unlink, setNode_nodes, update_self] at freed
    cases freed

/-- Where the test of emptiness fails the reference is gone all the same. -/
theorem not_removes_nonempty (present : h.nodes entry.inode = some node)
    (one : node.refcnt = 1) (type : node.type = .dir)
    (entered : htableEmpty h entry.inode = false) : ¬ RemovesDirectory h dir name entry := by
  rintro ⟨err, h', removed, refused, emptied⟩
  rw [tfsRemove_entry isDir nonempty named, dropEntry_nonempty present one type entered] at removed
  cases removed
  by_cases other : HasOther h entry.inode
  · have same := congrArg (fun heap => heap.nodes entry.inode) (refused.mpr other).2
    simp only [setNode_nodes, update_self, present, Option.some.injEq] at same
    have zero : node.refcnt = 0 := congrArg Node.refcnt same.symm
    omega
  · exact absurd (emptied other).1 (by decide)

end

theorem removes_empty (entries : Entries h) (isDir : h.isType dir .dir = true)
    (nonempty : name ≠ []) (named : tfsLookup h dir name = some entry)
    (last : LastRef h entry.inode) (empty : htableEmpty h entry.inode = true) :
    RemovesDirectory h dir name entry := by
  have member := (tfsLookup_some named).1
  have outside := htableEmpty_iff.mp empty
  have noOther : ¬ HasOther h entry.inode := fun ⟨l, linked, inside, _⟩ => outside l linked inside
  have noParent : parentRefs h dir entry.inode = 0 :=
    countP_eq_zero.mpr fun l linked => by simp [outside l linked]
  have otherDir : dir ≠ entry.inode := outside _ member
  refine ⟨0, _, (tfsRemove_entry isDir nonempty named).trans (dropEntry_last member last),
    ⟨fun failed => absurd failed.1 (by decide), fun other => absurd other noOther⟩,
    fun _ => ⟨rfl, ?_, ?_, ?_, ?_⟩⟩
  · refine filter_congr fun l linked => ?_
    have sameEntry : l.dent.addr = entry.addr ↔ l.dent = entry :=
      ⟨fun addr => congrArg Link.dent (entries.eq_of_addr linked member addr), fun same => same ▸ rfl⟩
    simp [sameEntry, outside l linked]
  · exact update_self _ _ _
  · obtain ⟨parent, there, _⟩ := isType_iff.mp isDir
    refine ⟨parent, parent, there, ?_, by simp [noParent]⟩
    exact (update_of_ne otherDir _ _).trans there
  · exact fun i _ other => update_of_ne other _ _

end Removal

/-- The removal of a directory does what it should exactly if `"."` and `".."` were removed from
the directory before and nothing but the entry refers to it. -/
theorem tfsRemove_directory_iff {h : Heap} {dir : Nat} {name : Name} {entry : Dentry} {node : Node}
    (built : Built h) (isDir : h.isType dir .dir = true)
    (named : tfsLookup h dir name = some entry) (present : h.nodes entry.inode = some node)
    (type : node.type = .dir) : RemovesDirectory h dir name entry ↔
      htableEmpty h entry.inode = true ∧ node.refcnt = 1 := by
  obtain ⟨member, rfl⟩ := tfsLookup_some named
  have nonempty : entry.name ≠ [] := built.entries.named _ member
  constructor
  · intro removes
    rcases Int.lt_trichotomy node.refcnt 1 with unreferenced | one | shared
    · obtain ⟨err, h', removed, _⟩ := removes
      rw [tfsRemove_entry isDir nonempty named, dropEntry,
        putInode_none present unreferenced] at removed
      cases removed
    · refine ⟨?_, one⟩
      by_contra entered
      rw [Bool.not_eq_true] at entered
      exact not_removes_nonempty isDir nonempty named present one type entered removes
    · exact absurd removes (not_removes_shared isDir nonempty named present shared)
  · rintro ⟨empty, one⟩
    exact removes_empty built.entries isDir nonempty named ⟨node, present, one, fun _ => empty⟩ empty

/-! ## Two directories -/

def enoughMem : Mem := { inode := true, dents := true, pages := fun _ => none }

def treeOf (calls : List TreeCall) : Heap := (calls.foldlM treeCall initTmpfs).getD initTmpfs

theorem treeOf_built {calls : List TreeCall}
    (returns : (calls.foldlM treeCall initTmpfs).isSome = true) : Built (treeOf calls) := by
  obtain ⟨h, run⟩ := isSome_iff_exists.mp returns
  refine ⟨calls, ?_⟩
  rw [treeOf, run]
  rfl

def bareDirectory : List TreeCall :=
  [.mkdir 0 [100] enoughMem, .remove 1 dotdot, .remove 1 dot]

theorem tfsRemove_bareDirectory :
    RemovesDirectory (treeOf bareDirectory) 0 [100] ⟨5, [100], 1⟩ := by
  have present : (treeOf bareDirectory).nodes 1 = some ⟨1, .dir, ⟨2, fun _ => none⟩⟩ := rfl
  refine (tfsRemove_directory_iff (treeOf_built (by decide +kernel)) (by decide +kernel)
    (by decide +kernel) present rfl).mpr ⟨?_, rfl⟩
  decide +kernel

def filledDirectory : List TreeCall :=
  [.mkdir 0 [100] enoughMem, .creat 1 [102] enoughMem]

/-- The directory with the file is removed: the call returns 0, and the entry is gone. -/
theorem tfsRemove_filledDirectory : Built (treeOf filledDirectory) ∧
    tfsLookup (treeOf filledDirectory) 0 [100] = some ⟨5, [100], 1⟩ ∧
    (treeOf filledDirectory).isType 1 .dir = true ∧ HasOther (treeOf filledDirectory) 1 ∧
    (tfsRemove (treeOf filledDirectory) 0 [100]).map
      (fun result => (result.1, tfsLookup result.2 0 [100])) = some (0, none) ∧
    ¬ RemovesDirectory (treeOf filledDirectory) 0 [100] ⟨5, [100], 1⟩ := by
  have named : tfsLookup (treeOf filledDirectory) 0 [100] = some ⟨5, [100], 1⟩ := by
    decide +kernel
  have present : (treeOf filledDirectory).nodes 1 = some ⟨2, .dir, ⟨3, fun _ => none⟩⟩ := rfl
  refine ⟨treeOf_built (by decide +kernel), named, by decide +kernel, ?_, by decide +kernel,
    not_removes_shared (by decide +kernel) (by decide) named present (by decide)⟩
  exact ⟨⟨1, ⟨6, [102], 2⟩⟩, by decide +kernel, rfl, by decide, by decide⟩

end KernelLabs.ChCore.Tmpfs
