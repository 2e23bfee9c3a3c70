import KernelLabs.ChCore.User.Tmpfs

/-!
# The tree of tmpfs

Model of the inodes and directory entries of tmpfs (`user/tmpfs/util.c`, `util.h`): `get_inode`,
`put_inode`, `del_inode`, `new_dent`, `add_new_dent`, `new_dir`, `tfs_mknod`, `tfs_lookup`,
`tfs_remove` and `init_tmpfs`.  Memory that is freed is not handed out again, so that an inode that
was freed can be told from one that was not.  A function returns `none` where an assertion of the
source fails or where it touches an inode that was freed or is no directory.

A dentry has a reference count of its own, which `new_dent` does not initialise.  It is left out:
a dentry lives until `tfs_remove` or `fs_rename` frees it.
-/

set_option autoImplicit false

namespace KernelLabs.ChCore.Tmpfs

open Function List

def enoent : Int := 2
def enomem : Int := 12
def einval : Int := 22
def enotempty : Int := 39

abbrev Name := List UInt8

def dot : Name := [46]

def dotdot : Name := [46, 46]

def slash : Name := [47]

inductive FileType where
  | reg
  | dir
  | sym
  deriving DecidableEq, Repr

/-- `struct inode`.  The `size` of a directory is that of `file`. -/
structure Node where
  refcnt : Int
  type : FileType
  file : Inode

structure Dentry where
  addr : Nat
  name : Name
  inode : Nat
  deriving DecidableEq, Repr

/-- A dentry that is linked in the hash table of the directory `dir`. -/
structure Link where
  dir : Nat
  dent : Dentry
  deriving DecidableEq, Repr

/-- The hash tables of all directories are one list, a dentry that was added later before the
earlier ones. -/
structure Heap where
  nodes : Nat → Option Node
  links : List Link
  nextInode : Nat
  nextDent : Nat
  rootDent : Dentry

def Heap.root (h : Heap) : Nat := h.rootDent.inode

def Heap.setNode (h : Heap) (i : Nat) (node : Option Node) : Heap :=
  { h with nodes := update h.nodes i node }

def Heap.modify (h : Heap) (i : Nat) (f : Node → Node) : Heap := h.setNode i ((h.nodes i).map f)

def Heap.isType (h : Heap) (i : Nat) (type : FileType) : Bool :=
  (h.nodes i).any fun node => node.type = type

/-! ## Hash tables -/

def hashChars (s : Name) : UInt64 :=
  s.foldl (fun hash c => hash * 131 + c.toUInt64) 0

def nrBuckets : Nat := 1024

def bucketOf (name : Name) : Nat := (hashChars name).toUInt32.toNat % nrBuckets

def htableBucket (h : Heap) (dir bucket : Nat) : List Link :=
  h.links.filter fun l => l.dir = dir ∧ bucketOf l.dent.name = bucket

def htableEmpty (h : Heap) (dir : Nat) : Bool :=
  (range nrBuckets).all fun bucket => (htableBucket h dir bucket).isEmpty

def htableAdd (h : Heap) (dir : Nat) (dent : Dentry) : Heap :=
  { h with links := ⟨dir, dent⟩ :: h.links }

/-- A dentry that is linked nowhere has no list to be taken from. -/
def htableDel (h : Heap) (dent : Dentry) : Option Heap :=
  if h.links.any fun l => l.dent.addr = dent.addr then
    some { h with links := h.links.filter fun l => l.dent.addr ≠ dent.addr }
  else none

def tfsLookup (h : Heap) (dir : Nat) (name : Name) : Option Dentry :=
  ((htableBucket h dir (bucketOf name)).find? fun l => l.dent.name = name).map Link.dent

/-! ## References to inodes -/

def getInode (h : Heap) (i : Nat) : Heap :=
  h.modify i fun node => { node with refcnt := node.refcnt + 1 }

def delInode (h : Heap) (i : Nat) (type : FileType) : Int × Heap :=
  match type with
  | .dir => if htableEmpty h i then (0, h.setNode i none) else (-enotempty, h)
  | .reg => (0, h.setNode i none)
  | .sym => (0, h.setNode i none)

def putInode (h : Heap) (i : Nat) : Option (Int × Heap) :=
  match h.nodes i with
  | none => none
  | some node =>
    let refcnt := node.refcnt - 1
    let h := h.setNode i (some { node with refcnt := refcnt })
    if refcnt < 0 then none
    else if refcnt = 0 then some (delInode h i node.type)
    else some (0, h)

/-! ## New inodes and dentries -/

/-- Which allocations succeed: of an inode, of dentries and their names, of the pages for the text
of a symbolic link. -/
structure Mem where
  inode : Bool
  dents : Bool
  pages : FileData

/-- `new_inode`, with the type and the contents that its caller gives the inode, and the
`get_inode` that follows. -/
def newInode (h : Heap) (type : FileType) (file : Inode) : Nat × Heap :=
  (h.nextInode,
    getInode { h.setNode h.nextInode (some ⟨0, type, file⟩) with nextInode := h.nextInode + 1 }
      h.nextInode)

def newDent (h : Heap) (inode : Nat) (name : Name) : Dentry × Heap :=
  (⟨h.nextDent, name, inode⟩, { getInode h inode with nextDent := h.nextDent + 1 })

def growDir (h : Heap) (dir : Nat) : Heap :=
  h.modify dir fun node => { node with file := { node.file with size := node.file.size + 1 } }

def addNewDent (h : Heap) (dir : Nat) (name : Name) (inode : Nat) : Dentry × Heap :=
  let (dent, h) := newDent h inode name
  (dent, growDir (htableAdd h dir dent) dir)

def newDir (h : Heap) (parent : Option Nat) : Nat × Heap :=
  let (inode, h) := newInode h .dir newReg
  let (_, h) := addNewDent h inode dot inode
  let (_, h) := addNewDent h inode dotdot (parent.getD inode)
  (inode, h)

def newSymlink (h : Heap) (symlink : Name) (pages : FileData) : Option (Nat × Heap) :=
  match tfsFileWrite newReg 0 symlink pages with
  | none => none
  | some (file, written) =>
    if written = symlink.length then some (newInode h .sym file) else none

def newOfType (h : Heap) (dir : Nat) (type : FileType) (symlink : Name) (mem : Mem) :
    Option (Nat × Heap) :=
  match type with
  | .dir => some (newDir h (some dir))
  | .reg => some (newInode h .reg newReg)
  | .sym => newSymlink h symlink mem.pages

/-- The value returned, the heap afterwards and the new dentry. -/
def tfsMknod (h : Heap) (dir : Nat) (name : Name) (type : FileType) (symlink : Name) (mem : Mem) :
    Option (Int × Heap × Option Dentry) :=
  if name = [] then some (-enoent, h, none)
  else if mem.inode = false then some (-enomem, h, none)
  else if mem.dents = false then none
  else
    match newOfType h dir type symlink mem with
    | none => none
    | some (inode, h) =>
      let (dent, h) := addNewDent h dir name inode
      match putInode h inode with
      | none => none
      | some (_, h) => some (0, h, some dent)

def tfsCreat (h : Heap) (dir : Nat) (name : Name) (mem : Mem) :
    Option (Int × Heap × Option Dentry) :=
  if name = [] then none else tfsMknod h dir name .reg [] mem

def tfsMkdir (h : Heap) (dir : Nat) (name : Name) (mem : Mem) :
    Option (Int × Heap × Option Dentry) :=
  if name = [] then none else tfsMknod h dir name .dir [] mem

/-! ## Removal -/

/-- The end of `tfs_remove` and of `fs_rename`: the reference of the entry is given back, and
unless that fails the entry is unlinked. -/
def dropEntry (h : Heap) (dent : Dentry) : Option (Int × Heap) :=
  match putInode h dent.inode with
  | none => none
  | some (err, h) =>
    if err ≠ 0 then some (err, h)
    else (htableDel h dent).map fun h => (0, h)

def tfsRemove (h : Heap) (dir : Nat) (name : Name) : Option (Int × Heap) :=
  if h.isType dir .dir = false then none
  else if name = [] then some (-enoent, h)
  else
    match tfsLookup h dir name with
    | none => some (-enoent, h)
    | some dent => dropEntry h dent

def emptyHeap : Heap :=
  { nodes := fun _ => none, links := [], nextInode := 0, nextDent := 0, rootDent := ⟨0, [], 0⟩ }

def initTmpfs : Heap :=
  let (root, h) := newDir emptyHeap none
  let (dent, h) := newDent h root slash
  { h with rootDent := dent }

/-! ## What the parts of the heap are afterwards -/

section Parts
variable (h : Heap) (i : Nat) (node : Option Node)

@[simp] theorem setNode_nodes : (h.setNode i node).nodes = update h.nodes i node := rfl

@[simp] theorem htableEmpty_setNode (dir : Nat) :
    htableEmpty (h.setNode i node) dir = htableEmpty h dir := rfl

theorem setNode_setNode (next : Option Node) :
    (h.setNode i node).setNode i next = h.setNode i next := by
  simp [Heap.setNode]

end Parts

theorem isType_iff {h : Heap} {i : Nat} {type : FileType} :
    h.isType i type = true ↔ ∃ node, h.nodes i = some node ∧ node.type = type := by
  cases found : h.nodes i <;> simp [Heap.isType, found]

theorem mem_htableBucket {h : Heap} {dir bucket : Nat} {l : Link} : l ∈ htableBucket h dir bucket ↔
      l ∈ h.links ∧ l.dir = dir ∧ bucketOf l.dent.name = bucket := by
  simp [htableBucket]

theorem htableEmpty_iff {h : Heap} {dir : Nat} :
    htableEmpty h dir = true ↔ ∀ l ∈ h.links, l.dir ≠ dir := by
  have below (name : Name) : bucketOf name < nrBuckets := Nat.mod_lt _ (by decide)
  constructor
  · intro empty l linked inDir
    have none := all_eq_true.mp empty _ (mem_range.mpr (below l.dent.name))
    rw [List.isEmpty_iff] at none
    have listed := mem_htableBucket.mpr ⟨linked, inDir, rfl⟩
    rw [none] at listed
    cases listed
  · intro none
    refine all_eq_true.mpr fun bucket _ => List.isEmpty_iff.mpr ?_
    refine eq_nil_iff_forall_not_mem.mpr fun l listed => ?_
    obtain ⟨linked, inDir, _⟩ := mem_htableBucket.mp listed
    exact none l linked inDir

/-- Entries of one name are in one bucket, so that a lookup finds the entry that was added last. -/
theorem tfsLookup_eq (h : Heap) (dir : Nat) (name : Name) : tfsLookup h dir name =
      (h.links.find? fun l => l.dir = dir ∧ l.dent.name = name).map Link.dent := by
  rw [tfsLookup, htableBucket, find?_filter]
  congr 2
  funext l
  by_cases named : l.dent.name = name <;> simp [named]

theorem tfsLookup_some {h : Heap} {dir : Nat} {name : Name} {dent : Dentry}
    (found : tfsLookup h dir name = some dent) : ⟨dir, dent⟩ ∈ h.links ∧ dent.name = name := by
  rw [tfsLookup_eq, Option.map_eq_some_iff] at found
  obtain ⟨⟨inDir, entry⟩, hit, rfl⟩ := found
  have holds := find?_some hit
  simp only [Bool.decide_and, Bool.and_eq_true, decide_eq_true_eq] at holds
  obtain ⟨rfl, named⟩ := holds
  exact ⟨mem_of_find?_eq_some hit, named⟩

/-! ## What giving back a reference does -/

variable {err : Int} {h' : Heap}

section Put
variable {h : Heap} {i : Nat} {node : Node}

def LastRef (h : Heap) (i : Nat) : Prop :=
  ∃ node, h.nodes i = some node ∧ node.refcnt = 1 ∧ (node.type = .dir → htableEmpty h i = true)

theorem putInode_shared (present : h.nodes i = some node) (shared : 1 < node.refcnt) :
    putInode h i = some (0, h.setNode i (some { node with refcnt := node.refcnt - 1 })) := by
  have notNegative : ¬ node.refcnt - 1 < 0 := by omega
  have notLast : ¬ node.refcnt - 1 = 0 := by omega
  simp [putInode, present, notNegative, notLast]

theorem putInode_last (last : LastRef h i) : putInode h i = some (0, h.setNode i none) := by
  obtain ⟨node, present, one, empty⟩ := last
  cases type : node.type with
  | dir => simp [putInode, present, one, type, delInode, empty type, setNode_setNode]
  | reg | sym => simp [putInode, present, one, type, delInode, setNode_setNode]

theorem putInode_nonempty (present : h.nodes i = some node) (one : node.refcnt = 1)
    (type : node.type = .dir) (nonempty : htableEmpty h i = false) :
    putInode h i = some (-enotempty, h.setNode i (some { node with refcnt := 0 })) := by
  simp [putInode, present, one, type, delInode, nonempty]

theorem putInode_none (present : h.nodes i = some node) (unreferenced : node.refcnt < 1) :
    putInode h i = none := by
  have negative : node.refcnt - 1 < 0 := by omega
  simp [putInode, present, negative]

theorem putInode_cases (put : putInode h i = some (err, h')) :
    (∃ node, h.nodes i = some node ∧ 1 < node.refcnt ∧ err = 0 ∧
      h' = h.setNode i (some { node with refcnt := node.refcnt - 1 })) ∨
    (LastRef h i ∧ err = 0 ∧ h' = h.setNode i none) ∨
    (∃ node, h.nodes i = some node ∧ node.refcnt = 1 ∧ node.type = .dir ∧
      htableEmpty h i = false ∧ err = -enotempty ∧
      h' = h.setNode i (some { node with refcnt := 0 })) := by
  rcases present : h.nodes i with _ | node
  · simp [putInode, present] at put
  rcases Int.lt_trichotomy node.refcnt 1 with unreferenced | one | shared
  · rw [putInode_none present unreferenced] at put
    cases put
  · by_cases empty : node.type = .dir → htableEmpty h i = true
    · have last : LastRef h i := ⟨node, present, one, empty⟩
      rw [putInode_last last] at put
      cases put
      exact .inr (.inl ⟨last, rfl, rfl⟩)
    · obtain ⟨type, nonempty⟩ := Classical.not_imp.mp empty
      rw [Bool.not_eq_true] at nonempty
      rw [putInode_nonempty present one type nonempty] at put
      cases put
      exact .inr (.inr ⟨node, rfl, one, type, nonempty, rfl, rfl⟩)
  · rw [putInode_shared present shared] at put
    cases put
    exact .inl ⟨node, rfl, shared, rfl, rfl⟩

end Put

def Heap.unlink (h : Heap) (dent : Dentry) : Heap :=
  { h with links := h.links.filter fun l => l.dent.addr ≠ dent.addr }

theorem htableDel_linked {h : Heap} {dir : Nat} {dent : Dentry} (linked : ⟨dir, dent⟩ ∈ h.links) :
    htableDel h dent = some (h.unlink dent) :=
  if_pos (any_eq_true.mpr ⟨_, linked, decide_eq_true rfl⟩)

section Drop
variable {h : Heap} {dir : Nat} {dent : Dentry} {node : Node}

theorem dropEntry_put {next : Heap} (put : putInode h dent.inode = some (0, next))
    (linked : ⟨dir, dent⟩ ∈ next.links) : dropEntry h dent = some (0, next.unlink dent) := by
  simp [dropEntry, put, htableDel_linked linked]

theorem dropEntry_shared (linked : ⟨dir, dent⟩ ∈ h.links)
    (present : h.nodes dent.inode = some node) (shared : 1 < node.refcnt) : dropEntry h dent = some (0,
      (h.setNode dent.inode (some { node with refcnt := node.refcnt - 1 })).unlink dent) :=
  dropEntry_put (putInode_shared present shared) linked

theorem dropEntry_last (linked : ⟨dir, dent⟩ ∈ h.links) (last : LastRef h dent.inode) :
    dropEntry h dent = some (0, (h.setNode dent.inode none).unlink dent) :=
  dropEntry_put (putInode_last last) linked

theorem dropEntry_nonempty (present : h.nodes dent.inode = some node) (one : node.refcnt = 1)
    (type : node.type = .dir) (nonempty : htableEmpty h dent.inode = false) : dropEntry h dent =
      some (-enotempty, h.setNode dent.inode (some { node with refcnt := 0 })) := by
  have failed : (-enotempty : Int) ≠ 0 := by decide
  simp [dropEntry, putInode_nonempty present one type nonempty, failed]

theorem dropEntry_cases (linked : ⟨dir, dent⟩ ∈ h.links)
    (dropped : dropEntry h dent = some (err, h')) :
    (∃ node, h.nodes dent.inode = some node ∧ 1 < node.refcnt ∧ err = 0 ∧
      h' = (h.setNode dent.inode (some { node with refcnt := node.refcnt - 1 })).unlink dent) ∨
    (LastRef h dent.inode ∧ err = 0 ∧ h' = (h.setNode dent.inode none).unlink dent) ∨
    (∃ node, h.nodes dent.inode = some node ∧ node.refcnt = 1 ∧ node.type = .dir ∧
      htableEmpty h dent.inode = false ∧ err = -enotempty ∧
      h' = h.setNode dent.inode (some { node with refcnt := 0 })) := by
  rcases put : putInode h dent.inode with _ | ⟨code, next⟩
  · simp [dropEntry, put] at dropped
  rcases putInode_cases put with ⟨node, present, shared, _, _⟩ | ⟨last, _, _⟩ |
    ⟨node, present, one, type, nonempty, _, _⟩
  · rw [dropEntry_shared linked present shared] at dropped
    cases dropped
    exact .inl ⟨node, present, shared, rfl, rfl⟩
  · rw [dropEntry_last linked last] at dropped
    cases dropped
    exact .inr (.inl ⟨last, rfl, rfl⟩)
  · rw [dropEntry_nonempty present one type nonempty] at dropped
    cases dropped
    exact .inr (.inr ⟨node, present, one, type, nonempty, rfl, rfl⟩)

end Drop

end KernelLabs.ChCore.Tmpfs
