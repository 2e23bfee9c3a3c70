import KernelLabs.Lib.Refs

/-!
# Opening through symbolic links

Model of `sys_open` of the file-system lab (`sysfile.c`) with `create`, `namex` (`fs.c`) and the
references and locks of in-memory inodes that they take.  A directory tree is what `dirlookup` and
the inodes say; link texts and paths are strings without the terminating zero.  `held` are the locks
of the calling process.  A function returns `none` where `ilock` or `iunlock` panics or the process
waits for a lock that it holds itself.

Left out: the limit on cached inodes in `iget`, the panics of `create` when the disk is full, and
`itrunc`.  `iput` frees no inode here: one found in a directory has a link, and the working directory
is kept by the process.
-/

set_option autoImplicit false

namespace KernelLabs.Xv6.Open

open Lib Option

abbrev Path := List UInt8

/-- `T_FILE`, `T_DIR`, `T_DEVICE` with its `major`, and `T_SYMLINK` with the text of the link. -/
inductive Kind where
  | file
  | dir
  | device (major : Int)
  | symlink (text : Path)
  deriving DecidableEq, Repr

/-- The inodes, what `dirlookup` finds in them, and the directories where paths start. -/
structure Tree where
  kind : Nat → Kind
  entry : Nat → Path → Option Nat
  root : Nat
  cwd : Nat
  rootDir : kind root = .dir
  cwdDir : kind cwd = .dir

/-- `ip->ref` of every inode, and the inodes that the process has locked. -/
structure Icache where
  ref : Nat → Int
  held : List Nat

def dirsiz : Nat := 14
def ndev : Int := 10

/-! ## References and locks -/

def Icache.get (s : Icache) (ip : Nat) : Icache := { s with ref := s.ref + oneRef ip }

def iput (s : Icache) (ip : Nat) : Icache := { s with ref := s.ref - oneRef ip }

def ilock (s : Icache) (ip : Nat) : Option Icache :=
  if s.ref ip < 1 ∨ ip ∈ s.held then none else some { s with held := ip :: s.held }

def iunlock (s : Icache) (ip : Nat) : Option Icache :=
  if ip ∉ s.held ∨ s.ref ip < 1 then none else some { s with held := s.held.erase ip }

def iunlockput (s : Icache) (ip : Nat) : Option Icache := (iunlock s ip).map fun s => iput s ip

/-! ## Paths -/

def elements (path : Path) : List Path :=
  ((path.splitOn 47).filter fun name => name ≠ []).map fun name => name.take dirsiz

def Tree.start (t : Tree) (path : Path) : Nat := if path.head? = some 47 then t.root else t.cwd

def nameiLoop (t : Tree) : List Path → Nat → Icache → Option (Icache × Option Nat)
  | [], ip, s => some (s, some ip)
  | name :: rest, ip, s =>
    (ilock s ip).bind fun s =>
      if t.kind ip ≠ .dir then (iunlockput s ip).map fun s => (s, none)
      else
        match t.entry ip name with
        | none => (iunlockput s ip).map fun s => (s, none)
        | some next => (iunlockput (s.get next) ip).bind fun s => nameiLoop t rest next s

def namei (t : Tree) (path : Path) (s : Icache) : Option (Icache × Option Nat) :=
  nameiLoop t (elements path) (t.start path) (s.get (t.start path))

/-- The loop of `namex` for `nameiparent`: it stops at the last name. -/
def nameiparentLoop (t : Tree) :
    List Path → Nat → Icache → Option (Icache × Option (Nat × Path))
  | [], ip, s => some (iput s ip, none)
  | name :: rest, ip, s =>
    (ilock s ip).bind fun s =>
      if t.kind ip ≠ .dir then (iunlockput s ip).map fun s => (s, none)
      else if rest = [] then (iunlock s ip).map fun s => (s, some (ip, name))
      else
        match t.entry ip name with
        | none => (iunlockput s ip).map fun s => (s, none)
        | some next => (iunlockput (s.get next) ip).bind fun s => nameiparentLoop t rest next s

def nameiparent (t : Tree) (path : Path) (s : Icache) :
    Option (Icache × Option (Nat × Path)) :=
  nameiparentLoop t (elements path) (t.start path) (s.get (t.start path))

/-- `create(path, T_FILE, 0, 0)`: the inode, locked, and its kind.  `fresh` is the inode that
`ialloc` finds. -/
def create (t : Tree) (path : Path) (fresh : Nat) (s : Icache) :
    Option (Icache × Option (Nat × Kind)) :=
  (nameiparent t path s).bind fun (s, parent) =>
    match parent with
    | none => some (s, none)
    | some (dp, name) =>
      (ilock s dp).bind fun s =>
        match t.entry dp name with
        | some ip =>
          (iunlockput (s.get ip) dp).bind fun s => (ilock s ip).bind fun s =>
            match t.kind ip with
            | .file => some (s, some (ip, .file))
            | .device major => some (s, some (ip, .device major))
            | .dir => (iunlockput s ip).map fun s => (s, none)
            | .symlink _ => (iunlockput s ip).map fun s => (s, none)
        | none =>
          (ilock (s.get fresh) fresh).bind fun s =>
            (iunlockput s dp).map fun s => (s, some (fresh, .file))

/-! ## `sys_open` -/

/-- The value returned: a descriptor for the inode, with `f->writable`, or -1. -/
inductive Result where
  | opened (ip : Nat) (kind : Kind) (writable : Bool)
  | failed
  deriving DecidableEq, Repr

def oCreate (omode : Nat) : Bool := omode.testBit 9
def oNofollow (omode : Nat) : Bool := omode.testBit 11
def oWritable (omode : Nat) : Bool := omode.testBit 0 || omode.testBit 1

/-- The part of the loop before its test: the link is put and its text looked up. -/
def leaveLink (t : Tree) (ip : Nat) (text : Path) (s : Icache) : Option (Icache × Option Nat) :=
  (iunlockput s ip).bind fun s => namei t text s

/-- The loop that follows links, `left` being `threshold - indent`.  When `indent == threshold`, the
inode that the link leads to is not put. -/
def followLoop (t : Tree) : Nat → Nat → Kind → Icache → Option (Icache × Option (Nat × Kind))
  | 0, ip, .symlink text, s => (leaveLink t ip text s).map fun (s, _) => (s, none)
  | left + 1, ip, .symlink text, s =>
    (leaveLink t ip text s).bind fun (s, next) =>
      match next with
      | none => some (s, none)
      | some next => (ilock s next).bind fun s => followLoop t left next (t.kind next) s
  | _, ip, other, s => some (s, some (ip, other))

def threshold : Nat := 10

def openFirst (t : Tree) (path : Path) (omode fresh : Nat) (s : Icache) :
    Option (Icache × Option (Nat × Kind)) :=
  if oCreate omode then create t path fresh s
  else
    (namei t path s).bind fun (s, found) =>
      match found with
      | none => some (s, none)
      | some ip =>
        (ilock s ip).bind fun s =>
          if t.kind ip = .dir ∧ omode ≠ 0 then (iunlockput s ip).map fun s => (s, none)
          else some (s, some (ip, t.kind ip))

def badDevice : Kind → Bool
  | .device major => decide (major < 0 ∨ ndev ≤ major)
  | _ => false

/-- The end of `sys_open`; `free` tells whether `filealloc` and `fdalloc` succeed. -/
def openLast (omode : Nat) (free : Bool) (ip : Nat) (kind : Kind) (s : Icache) :
    Option (Icache × Result) :=
  if badDevice kind then (iunlockput s ip).map fun s => (s, .failed)
  else if free = false then (iunlockput s ip).map fun s => (s, .failed)
  else (iunlock s ip).map fun s => (s, .opened ip kind (oWritable omode))

def sysOpen (t : Tree) (path : Path) (omode fresh : Nat) (free : Bool) (s : Icache) :
    Option (Icache × Result) :=
  (openFirst t path omode fresh s).bind fun (s, first) =>
    match first with
    | none => some (s, .failed)
    | some (ip, kind) =>
      if oNofollow omode then openLast omode free ip kind s
      else
        (followLoop t threshold ip kind s).bind fun (s, last) =>
          match last with
          | none => some (s, .failed)
          | some (ip, kind) => openLast omode free ip kind s

/-! ## What paths and links lead to -/

def Kind.isLink : Kind → Bool
  | .symlink _ => true
  | _ => false

def Tree.walk (t : Tree) : List Path → Nat → Option Nat
  | [], ip => some ip
  | name :: rest, ip =>
    if t.kind ip = .dir then (t.entry ip name).bind (t.walk rest) else none

def Tree.resolve (t : Tree) (path : Path) : Option Nat := t.walk (elements path) (t.start path)

def Tree.target (t : Tree) (ip : Nat) : Option Nat :=
  match t.kind ip with
  | .symlink text => t.resolve text
  | _ => none

def Tree.follow (t : Tree) : Nat → Nat → Option Nat
  | 0, ip => some ip
  | n + 1, ip => (t.target ip).bind (t.follow n)

def Tree.after (t : Tree) (path : Path) (n : Nat) : Option Nat := (t.resolve path).bind (t.follow n)

def Tree.Reaches (t : Tree) (path : Path) (k ip : Nat) : Prop :=
  t.after path k = some ip ∧ (t.kind ip).isLink = false

variable {jp : Nat}

open Open.Tree

variable {k : Nat}

section Chains
variable {t : Tree} {ip : Nat}

theorem Tree.target_none (noLink : (t.kind ip).isLink = false) : t.target ip = none := by
  unfold target
  split
  · rename_i text kind
    simp [kind, Kind.isLink] at noLink
  · rfl

theorem Tree.follow_link {n : Nat} (chain : t.follow n ip = some jp) (before : k < n) :
    ∃ kp, t.follow k ip = some kp ∧ (t.kind kp).isLink = true := by
  induction n generalizing k ip with
  | zero => omega
  | succ n ih =>
    obtain ⟨next, target, rest⟩ := bind_eq_some_iff.mp chain
    cases k with
    | zero =>
      refine ⟨ip, rfl, ?_⟩
      by_contra noLink
      rw [target_none (by simpa using noLink)] at target
      exact some_ne_none next target.symm
    | succ k =>
      obtain ⟨kp, found, link⟩ := ih rest (k := k) (by omega)
      exact ⟨kp, by simpa [follow, target] using found, link⟩

theorem Tree.follow_deadEnd (link : (t.kind ip).isLink = true) (target : t.target ip = none)
    (chain : t.follow k ip = some jp) : (t.kind jp).isLink = true := by
  cases k with
  | zero =>
    cases chain
    exact link
  | succ k => simp [follow, target] at chain

theorem Tree.follow_end {k' jp' : Nat} (chain : t.follow k ip = some jp)
    (noLink : (t.kind jp).isLink = false) (chain' : t.follow k' ip = some jp')
    (noLink' : (t.kind jp').isLink = false) : k = k' ∧ jp = jp' := by
  have same : k = k' := by
    rcases Nat.lt_trichotomy k k' with less | same | less
    · obtain ⟨kp, found, link⟩ := follow_link chain' less
      rw [chain] at found
      cases found
      simp [noLink] at link
    · exact same
    · obtain ⟨kp, found, link⟩ := follow_link chain less
      rw [chain'] at found
      cases found
      simp [noLink'] at link
  subst same
  exact ⟨rfl, Option.some.inj (chain.symm.trans chain')⟩

end Chains

/-! ## References and locks of a process that holds no lock -/

structure Icache.Idle (s : Icache) : Prop where
  unlocked : s.held = []
  nonneg : ∀ ip, 0 ≤ s.ref ip

def Icache.lock (s : Icache) (ip : Nat) : Icache := { s with held := ip :: s.held }

variable {kind : Kind}

open Icache

section Walks
variable {t : Tree} {s : Icache}

theorem Icache.Idle.get (idle : s.Idle) (ip : Nat) : (s.get ip).Idle := by
  refine ⟨idle.unlocked, fun jp => ?_⟩
  have nonneg := idle.nonneg jp
  simp only [Icache.get, Pi.add_apply, oneRef]
  split <;> omega

theorem Icache.Idle.get_pos (idle : s.Idle) (ip : Nat) : 1 ≤ (s.get ip).ref ip := by
  have nonneg := idle.nonneg ip
  simp only [Icache.get, Pi.add_apply, oneRef, if_true]
  omega

theorem Icache.le_get (s : Icache) (ip jp : Nat) : s.ref jp ≤ (s.get ip).ref jp := by
  simp only [get, Pi.add_apply, oneRef]
  split <;> omega

theorem iput_get (s : Icache) (ip : Nat) : iput (s.get ip) ip = s := by
  simp [iput, Icache.get]

variable {fresh ip : Nat}

theorem ilock_some (positive : 1 ≤ s.ref ip) (free : ip ∉ s.held) :
    ilock s ip = some (s.lock ip) := by
  rw [ilock, if_neg (not_or.mpr ⟨Int.not_lt.mpr positive, free⟩)]
  rfl

theorem ilock_get (idle : s.Idle) (ip : Nat) : ilock (s.get ip) ip = some ((s.get ip).lock ip) :=
  ilock_some (idle.get_pos ip) (by simp [Icache.get, idle.unlocked])

theorem iunlock_lock (idle : s.Idle) (ip : Nat) :
    iunlock ((s.get ip).lock ip) ip = some (s.get ip) := by
  simp [iunlock, lock, idle.get_pos ip]

theorem iunlockput_lock (idle : s.Idle) (ip : Nat) :
    iunlockput ((s.get ip).lock ip) ip = some s := by
  rw [iunlockput, iunlock_lock idle, map_some, iput_get]

theorem get_lock_get (s : Icache) (ip next : Nat) :
    ((s.get ip).lock ip).get next = ((s.get next).get ip).lock ip := by
  simp [Icache.lock, Icache.get, add_assoc, add_comm (oneRef ip)]

def Icache.take (s : Icache) : Option Nat → Icache × Option Nat
  | none => (s, none)
  | some ip => (s.get ip, some ip)

theorem nameiLoop_eq (idle : s.Idle) (names : List Path) (ip : Nat) :
    nameiLoop t names ip (s.get ip) = some (s.take (t.walk names ip)) := by
  induction names generalizing ip with
  | nil => rfl
  | cons name rest ih =>
    rw [nameiLoop, ilock_get idle, bind_some, walk]
    by_cases dir : t.kind ip = .dir
    · rw [if_neg (not_not.mpr dir), if_pos dir]
      cases t.entry ip name with
      | none => simp [iunlockput_lock idle, take]
      | some next => simp [get_lock_get, iunlockput_lock (idle.get next), ih]
    · simp [dir, iunlockput_lock idle, take]

theorem namei_eq (idle : s.Idle) (path : Path) : namei t path s = some (s.take (t.resolve path)) :=
  nameiLoop_eq idle (elements path) (t.start path)

def Tree.parent (t : Tree) : List Path → Nat → Option (Nat × Path)
  | [], _ => none
  | name :: rest, ip =>
    if t.kind ip = .dir then
      if rest = [] then some (ip, name) else (t.entry ip name).bind (t.parent rest)
    else none

theorem nameiparentLoop_eq (idle : s.Idle) (names : List Path) (ip : Nat) :
    nameiparentLoop t names ip (s.get ip) =
      some (((t.parent names ip).elim s fun (dp, _) => s.get dp), t.parent names ip) := by
  induction names generalizing ip with
  | nil => simp [nameiparentLoop, parent, iput_get]
  | cons name rest ih =>
    rw [nameiparentLoop, ilock_get idle, bind_some, parent]
    by_cases dir : t.kind ip = .dir
    · rw [if_neg (not_not.mpr dir), if_pos dir]
      by_cases last : rest = []
      · simp [last, iunlock_lock idle]
      · rw [if_neg last, if_neg last]
        cases t.entry ip name with
        | none => simp [iunlockput_lock idle]
        | some next => simp [get_lock_get, iunlockput_lock (idle.get next), ih]
    · simp [dir, iunlockput_lock idle]

variable {names : List Path}

/-- `namei` looks the last name up in the directory that `nameiparent` finds. -/
theorem Tree.walk_parent (ip : Nat) (nonempty : names ≠ []) :
    t.walk names ip = (t.parent names ip).bind fun (dp, name) => t.entry dp name := by
  induction names generalizing ip with
  | nil => exact absurd rfl nonempty
  | cons name rest ih =>
    rw [walk, parent]
    by_cases dir : t.kind ip = .dir
    · by_cases last : rest = []
      · subst last
        cases entry : t.entry ip name <;> simp [dir, walk, entry]
      · simp only [if_pos dir, if_neg last, Option.bind_assoc]
        exact congrArg _ (funext fun next => ih next last)
    · simp [dir]

structure Tree.Unused (t : Tree) (fresh : Nat) : Prop where
  notRoot : fresh ≠ t.root
  notCwd : fresh ≠ t.cwd
  noEntry : ∀ dp name, t.entry dp name ≠ some fresh

variable {dp : Nat}

theorem Tree.Unused.ne_parent (unused : t.Unused fresh) {name : Path} (start : fresh ≠ ip)
    (parent : t.parent names ip = some (dp, name)) : fresh ≠ dp := by
  induction names generalizing ip with
  | nil => simp [Tree.parent] at parent
  | cons first rest ih =>
    rw [Tree.parent] at parent
    split at parent
    · split at parent
      · cases parent
        exact start
      · obtain ⟨next, entry, parent⟩ := bind_eq_some_iff.mp parent
        refine ih (fun same => ?_) parent
        subst same
        exact unused.noEntry ip first entry
    · cases parent

theorem Tree.Unused.ne_start (unused : t.Unused fresh) (path : Path) : fresh ≠ t.start path := by
  unfold start
  split
  · exact unused.notRoot
  · exact unused.notCwd

theorem ilock_fresh (idle : s.Idle) (other : fresh ≠ dp) :
    ilock (((s.get dp).lock dp).get fresh) fresh =
      some ((((s.get fresh).get dp).lock dp).lock fresh) := by
  rw [get_lock_get]
  refine ilock_some ?_ ?_
  · exact Int.le_trans (idle.get_pos fresh) (le_get (s.get fresh) dp fresh)
  · simp [Icache.lock, Icache.get, idle.unlocked, other]

theorem iunlockput_dir (idle : s.Idle) (other : fresh ≠ dp) :
    iunlockput ((((s.get fresh).get dp).lock dp).lock fresh) dp =
      some ((s.get fresh).lock fresh) := by
  have positive : 1 ≤ ((s.get fresh).get dp).ref dp := (idle.get fresh).get_pos dp
  rw [iunlockput, iunlock, if_neg]
  · simp [Icache.lock, iput, Icache.get, List.erase_cons_tail, other]
  · exact not_or.mpr ⟨not_not.mpr (by simp [Icache.lock]), Int.not_lt.mpr positive⟩

def Icache.enter (s : Icache) : Option (Nat × Kind) → Icache
  | none => s
  | some (ip, _) => (s.get ip).lock ip

def Tree.created (t : Tree) (path : Path) (fresh : Nat) : Option (Nat × Kind) :=
  (t.parent (elements path) (t.start path)).bind fun (dp, name) =>
    match t.entry dp name with
    | none => some (fresh, .file)
    | some ip =>
      match t.kind ip with
      | .file => some (ip, .file)
      | .device major => some (ip, .device major)
      | _ => none

theorem create_eq (idle : s.Idle) (unused : t.Unused fresh) (path : Path) :
    create t path fresh s = some (s.enter (t.created path fresh), t.created path fresh) := by
  rw [create, nameiparent, nameiparentLoop_eq idle, bind_some]
  unfold created
  cases parent : t.parent (elements path) (t.start path) with
  | none => rfl
  | some found =>
    obtain ⟨dp, name⟩ := found
    simp only [elim_some, ilock_get idle, bind_some]
    cases entry : t.entry dp name with
    | none =>
      have other := unused.ne_parent (unused.ne_start path) parent
      simp [ilock_fresh idle other, iunlockput_dir idle other, enter]
    | some ip =>
      simp only [get_lock_get, iunlockput_lock (idle.get ip), bind_some, ilock_get idle]
      cases kind : t.kind ip <;> simp [iunlockput_lock idle, enter]

def Tree.first (t : Tree) (path : Path) (omode fresh : Nat) : Option (Nat × Kind) :=
  if oCreate omode then t.created path fresh
  else
    (t.resolve path).bind fun ip =>
      if t.kind ip = .dir ∧ omode ≠ 0 then none else some (ip, t.kind ip)

theorem openFirst_eq (idle : s.Idle) (unused : t.Unused fresh) (path : Path) (omode : Nat) :
    openFirst t path omode fresh s =
      some (s.enter (t.first path omode fresh), t.first path omode fresh) := by
  rw [openFirst, first]
  by_cases creating : oCreate omode
  · rw [if_pos creating, if_pos creating, create_eq idle unused]
  rw [if_neg creating, if_neg creating, namei_eq idle, bind_some]
  cases t.resolve path with
  | none => rfl
  | some ip =>
    simp only [take, ilock_get idle, bind_some]
    split <;> simp [iunlockput_lock idle, enter]

theorem followLoop_end (noLink : kind.isLink = false) (left ip : Nat) (s : Icache) :
    followLoop t left ip kind s = some (s, some (ip, kind)) := by
  cases kind with
  | symlink text => simp [Kind.isLink] at noLink
  | file | dir | device => simp [followLoop]

theorem followLoop_link (idle : s.Idle) (link : (t.kind ip).isLink = true) (left : Nat) :
    followLoop t left ip (t.kind ip) ((s.get ip).lock ip) =
      match t.target ip, left with
      | none, _ => some (s, none)
      | some jp, 0 => some (s.get jp, none)
      | some jp, left + 1 => followLoop t left jp (t.kind jp) ((s.get jp).lock jp) := by
  rw [target]
  cases kind : t.kind ip with
  | symlink text =>
    have leave : leaveLink t ip text ((s.get ip).lock ip) = some (s.take (t.resolve text)) := by
      rw [leaveLink, iunlockput_lock idle, bind_some, namei_eq idle]
    cases left with
    | zero => cases target : t.resolve text <;> simp [followLoop, leave, target, take]
    | succ left =>
      cases target : t.resolve text <;>
        simp [followLoop, leave, target, take, ilock_get idle]
  | file | dir | device => simp [kind, Kind.isLink] at link

/-- The loop ends at the inode that the links lead to, at a link that leads nowhere, or with the
inode that the last link leads to still got. -/
theorem followLoop_cases (idle : s.Idle) (left ip : Nat) :
    (∃ k jp, k ≤ left ∧ t.follow k ip = some jp ∧ (t.kind jp).isLink = false ∧
      followLoop t left ip (t.kind ip) ((s.get ip).lock ip) =
        some ((s.get jp).lock jp, some (jp, t.kind jp))) ∨
    (∃ jp, t.follow (left + 1) ip = some jp ∧
      followLoop t left ip (t.kind ip) ((s.get ip).lock ip) = some (s.get jp, none)) ∨
    t.follow (left + 1) ip = none ∧
      (∀ k jp, t.follow k ip = some jp → (t.kind jp).isLink = true) ∧
      followLoop t left ip (t.kind ip) ((s.get ip).lock ip) = some (s, none) := by
  induction left generalizing ip with
  | zero =>
    cases link : (t.kind ip).isLink with
    | false => exact .inl ⟨0, ip, Nat.le_refl 0, rfl, link, followLoop_end link 0 ip _⟩
    | true =>
      rw [followLoop_link idle link]
      cases target : t.target ip with
      | some jp => exact .inr (.inl ⟨jp, by simp [follow, target], rfl⟩)
      | none =>
        refine .inr (.inr ⟨by simp [follow, target], fun k jp chain => ?_, rfl⟩)
        exact follow_deadEnd link target chain
  | succ left ih =>
    cases link : (t.kind ip).isLink with
    | false => exact .inl ⟨0, ip, Nat.zero_le _, rfl, link, followLoop_end link (left + 1) ip _⟩
    | true =>
      rw [followLoop_link idle link]
      cases target : t.target ip with
      | none =>
        refine .inr (.inr ⟨by simp [follow, target], fun k jp chain => ?_, rfl⟩)
        exact follow_deadEnd link target chain
      | some next =>
        -- a chain from `ip` is its first link and a chain from `next`
        have onward : ∀ n, t.follow (n + 1) ip = t.follow n next := fun n => by
          simp [follow, target]
        rcases ih next with ⟨k, jp, bound, chain, noLink, run⟩ | ⟨jp, chain, run⟩ |
          ⟨cut, links, run⟩
        · exact .inl ⟨k + 1, jp, Nat.succ_le_succ bound, (onward k).trans chain, noLink, run⟩
        · exact .inr (.inl ⟨jp, (onward (left + 1)).trans chain, run⟩)
        · refine .inr (.inr ⟨(onward (left + 1)).trans cut, fun k jp chain => ?_, run⟩)
          cases k with
          | zero =>
            cases chain
            exact link
          | succ k => exact links k jp ((onward k).symm.trans chain)

/-! ## Every call -/

theorem openLast_eq (idle : s.Idle) (omode : Nat) (free : Bool) (ip : Nat) (kind : Kind) :
    openLast omode free ip kind ((s.get ip).lock ip) =
      some (if badDevice kind ∨ free = false then (s, .failed)
        else (s.get ip, .opened ip kind (oWritable omode))) := by
  unfold openLast
  by_cases bad : badDevice kind
  · simp [bad, iunlockput_lock idle]
  · by_cases full : free = false
    · simp [full, iunlockput_lock idle]
    · simp [bad, full, iunlock_lock idle]

/-- `open` may refuse the inode: a limit on files is reached, a directory is not opened for reading
only, or the device does not exist. -/
def Tree.Refuses (t : Tree) (omode : Nat) (free : Bool) (ip : Nat) : Prop :=
  free = false ∨ t.kind ip = .dir ∧ omode ≠ 0 ∨ badDevice (t.kind ip)

/-- The inode behind at most ten links is opened or refused; only a created file is opened
otherwise; a call that fails changes no reference and no lock; no directory is writable. -/
structure Conforms (t : Tree) (path : Path) (omode : Nat) (free : Bool) (s s' : Icache)
    (result : Result) : Prop where
  reached : ∀ k ip, k ≤ 10 → t.Reaches path k ip →
    (∃ writable, result = .opened ip (t.kind ip) writable) ∨
      result = .failed ∧ t.Refuses omode free ip
  unreached : (∀ k ip, k ≤ 10 → ¬t.Reaches path k ip) →
    (oCreate omode = true → t.resolve path ≠ none) → result = .failed
  restored : result = .failed → s' = s
  notWritable : ∀ ip writable, result = .opened ip .dir writable → writable = false

/-- No file is to be created where a link leads to an inode that can be opened, no directory written
through a link, and an eleventh link leads nowhere. -/
structure LinksAllowed (t : Tree) (path : Path) (omode : Nat) (free : Bool) : Prop where
  create : oCreate omode = true → ∀ k ip, 0 < k → k ≤ 10 → t.Reaches path k ip →
    t.Refuses omode free ip
  write : oCreate omode = false → oWritable omode = true → free = true →
    ∀ k ip, 0 < k → k ≤ 10 → t.Reaches path k ip → t.kind ip ≠ .dir
  long : oCreate omode = false → t.after path 11 = none

theorem Tree.created_cases (t : Tree) (path : Path) (fresh : Nat) : (t.created path fresh = none ∧
      ∀ ip, t.resolve path = some ip → t.kind ip = .dir ∨ (t.kind ip).isLink = true) ∨
    ∃ ip kind, t.created path fresh = some (ip, kind) ∧ kind.isLink = false ∧ kind ≠ .dir ∧
      (t.resolve path = some ip ∧ t.kind ip = kind ∨ t.resolve path = none) := by
  unfold Tree.created
  by_cases empty : elements path = []
  · refine .inl ⟨by simp [empty, Tree.parent], fun ip found => .inl ?_⟩
    have start : t.start path = ip := by simpa [Tree.resolve, empty, Tree.walk] using found
    rw [← start, Tree.start]
    split
    · exact t.rootDir
    · exact t.cwdDir
  rw [Tree.resolve, Tree.walk_parent _ empty]
  cases t.parent (elements path) (t.start path) with
  | none => exact .inl ⟨rfl, fun ip found => by cases found⟩
  | some parent =>
    obtain ⟨dp, name⟩ := parent
    simp only [bind_some]
    cases t.entry dp name with
    | none => exact .inr ⟨fresh, .file, rfl, rfl, by decide, .inr rfl⟩
    | some ip =>
      cases kind : t.kind ip with
      | file => exact .inr ⟨ip, .file, by simp [kind], rfl, by decide, .inl ⟨rfl, kind⟩⟩
      | device major =>
        exact .inr ⟨ip, .device major, by simp [kind], rfl, by simp, .inl ⟨rfl, kind⟩⟩
      | dir =>
        refine .inl ⟨by simp [kind], fun jp found => .inl ?_⟩
        cases found
        exact kind
      | symlink text =>
        refine .inl ⟨by simp [kind], fun jp found => .inr ?_⟩
        cases found
        rw [kind]
        rfl

end Walks

section Calls
variable {t : Tree} {path : Path} {omode fresh : Nat} {free : Bool} {s : Icache}

section
variable (idle : s.Idle) (unused : t.Unused fresh)
include idle unused

theorem sysOpen_none (first : t.first path omode fresh = none) :
    sysOpen t path omode fresh free s = some (s, .failed) := by
  simp [sysOpen, openFirst_eq idle unused, first, enter]

variable {ip : Nat}

theorem sysOpen_some (follows : oNofollow omode = false)
    (first : t.first path omode fresh = some (ip, kind)) :
    sysOpen t path omode fresh free s =
      (followLoop t threshold ip kind ((s.get ip).lock ip)).bind fun (s, last) =>
        match last with
        | none => some (s, .failed)
        | some (ip, kind) => openLast omode free ip kind s := by
  simp [sysOpen, openFirst_eq idle unused, first, enter, follows]

theorem sysOpen_reached (follows : oNofollow omode = false) {last : Kind}
    (first : t.first path omode fresh = some (ip, kind))
    (loop : followLoop t threshold ip kind ((s.get ip).lock ip) =
      some ((s.get jp).lock jp, some (jp, last))) :
    sysOpen t path omode fresh free s =
      some (if badDevice last ∨ free = false then (s, .failed)
        else (s.get jp, .opened jp last (oWritable omode))) := by
  simp only [sysOpen_some idle unused follows first, loop, bind_some]
  exact openLast_eq idle omode free jp last

end

theorem Conforms.failed (refused : ∀ k ip, k ≤ 10 → t.Reaches path k ip → t.Refuses omode free ip) :
    Conforms t path omode free s s .failed where
  reached k ip bound reaches := .inr ⟨rfl, refused k ip bound reaches⟩
  unreached _ _ := rfl
  restored _ := rfl
  notWritable _ _ same := by cases same

theorem Tree.Reaches.unique {k' jp' : Nat} (reaches : t.Reaches path k jp)
    (reaches' : t.Reaches path k' jp') : k = k' ∧ jp = jp' := by
  obtain ⟨ip, found, chain⟩ := bind_eq_some_iff.mp reaches.1
  obtain ⟨ip', found', chain'⟩ := bind_eq_some_iff.mp reaches'.1
  rw [found] at found'
  cases found'
  exact follow_end chain reaches.2 chain' reaches'.2

theorem Tree.Reaches.after_none {n : Nat} (reaches : t.Reaches path k jp) (longer : k < n) :
    t.after path n = none := by
  obtain ⟨ip, found, chain⟩ := bind_eq_some_iff.mp reaches.1
  rw [after, found, bind_some]
  by_contra more
  obtain ⟨last, chain'⟩ := ne_none_iff_exists'.mp more
  obtain ⟨kp, at_k, link⟩ := follow_link chain' longer
  rw [chain] at at_k
  cases at_k
  simp [reaches.2] at link

variable (s omode free) in
theorem conforms_reached (reaches : t.Reaches path k jp) (bound : k ≤ 10)
    (readOnly : free = true → t.kind jp = .dir → oWritable omode = false) :
    ∃ s' result, (if badDevice (t.kind jp) ∨ free = false then (s, .failed)
        else (s.get jp, .opened jp (t.kind jp) (oWritable omode))) = (s', result) ∧
      Conforms t path omode free s s' result := by
  split
  · rename_i refused
    refine ⟨s, .failed, rfl, Conforms.failed fun k' jp' _ reaches' => ?_⟩
    obtain ⟨-, rfl⟩ := reaches.unique reaches'
    exact refused.elim (fun bad => .inr (.inr bad)) .inl
  rename_i accepted
  refine ⟨s.get jp, .opened jp (t.kind jp) (oWritable omode), rfl, ?_⟩
  refine ⟨fun k' jp' _ reaches' => .inl ?_, fun never _ => absurd reaches (never k jp bound), ?_, ?_⟩
  · obtain ⟨-, rfl⟩ := reaches.unique reaches'
    exact ⟨oWritable omode, rfl⟩
  · intro failed
    cases failed
  · intro ip writable opened
    injection opened with _ kind same
    rw [← same]
    exact readOnly (by simpa using fun full => accepted (.inr full)) kind

variable (t path omode fresh free s) in
def Exactly : Prop :=
  (∃ s' result, sysOpen t path omode fresh free s = some (s', result) ∧
    Conforms t path omode free s s' result) ↔ LinksAllowed t path omode free

theorem sysOpen_creating (idle : s.Idle) (unused : t.Unused fresh)
    (follows : oNofollow omode = false) (creating : oCreate omode = true) :
    Exactly t path omode fresh free s := by
  have first : t.first path omode fresh = t.created path fresh := if_pos creating
  have notZero : omode ≠ 0 := by
    rintro rfl
    simp [oCreate] at creating
  rcases t.created_cases path fresh with ⟨missing, exists_⟩ | ⟨ip, kind, made, noLink, notDir, found⟩
  · -- `create` has returned 0, because of a directory, a link or a missing parent
    rw [Exactly, sysOpen_none idle unused (first.trans missing)]
    constructor
    · rintro ⟨s', result, same, conforms⟩
      cases same
      refine ⟨fun _ k ip _ bound reaches => ?_, by simp [creating], by simp [creating]⟩
      rcases conforms.reached k ip bound reaches with ⟨writable, opened⟩ | ⟨_, refused⟩
      · cases opened
      · exact refused
    intro allowed
    refine ⟨s, .failed, rfl, Conforms.failed fun k ip bound reaches => ?_⟩
    cases k with
    | succ k => exact allowed.create creating (k + 1) ip (Nat.succ_pos k) bound reaches
    | zero =>
      have found : t.resolve path = some ip := by
        simpa [after, follow] using reaches.1
      rcases exists_ ip found with dir | link
      · exact .inr (.inl ⟨dir, notZero⟩)
      · simp [reaches.2] at link
  · rw [Exactly, sysOpen_reached idle unused follows (first.trans made)
      (followLoop_end noLink threshold ip _)]
    rcases found with ⟨found, rfl⟩ | found
    · have reaches : t.Reaches path 0 ip := ⟨by simp [after, found, follow], noLink⟩
      refine iff_of_true ?_ ⟨fun _ k jp positive _ reaches' => ?_, by simp [creating],
        by simp [creating]⟩
      · obtain ⟨s', result, same, conforms⟩ := conforms_reached omode free s reaches
          (Nat.zero_le 10) fun _ dir => absurd dir notDir
        exact ⟨s', result, congrArg some same, conforms⟩
      · have := (reaches.unique reaches').1
        omega
    · have never : ∀ k jp, ¬t.Reaches path k jp := fun k jp reaches => by
        simp [Tree.Reaches, after, found] at reaches
      refine iff_of_true ?_ ⟨fun _ k jp _ _ reaches => absurd reaches (never k jp),
        by simp [creating], by simp [creating]⟩
      split
      · exact ⟨s, .failed, rfl, Conforms.failed fun k jp _ reaches => absurd reaches (never k jp)⟩
      · refine ⟨_, _, rfl, fun k jp _ reaches => absurd reaches (never k jp),
          fun _ resolves => absurd found (resolves creating), nofun, ?_⟩
        intro jp writable opened
        injection opened with _ kind _
        exact absurd kind notDir

theorem existing_failed (existing : oCreate omode = false)
    (failed : sysOpen t path omode fresh free s = some (s, .failed))
    (only : ∀ k ip, t.Reaches path k ip → k = 0 ∧ t.Refuses omode free ip)
    (cut : t.after path 11 = none) : Exactly t path omode fresh free s := by
  refine iff_of_true ⟨s, .failed, failed, Conforms.failed fun k ip _ reaches => (only k ip reaches).2⟩
    ⟨by simp [existing], fun _ _ _ k ip positive _ reaches => ?_, fun _ => cut⟩
  exact absurd (only k ip reaches).1 (Nat.ne_of_gt positive)

theorem existing_reached (existing : oCreate omode = false) (reaches : t.Reaches path k jp)
    (bound : k ≤ 10) (notRefused : k = 0 → t.kind jp = .dir → omode = 0)
    (run : sysOpen t path omode fresh free s =
      some (if badDevice (t.kind jp) ∨ free = false then (s, .failed)
        else (s.get jp, .opened jp (t.kind jp) (oWritable omode)))) :
    Exactly t path omode fresh free s := by
  rw [Exactly, run]
  constructor
  · rintro ⟨s', result, same, conforms⟩
    refine ⟨by simp [existing], fun _ writes hasRoom k' jp' positive _ reaches' dir => ?_,
      fun _ => reaches.after_none (Nat.lt_succ_of_le bound)⟩
    obtain ⟨-, rfl⟩ := reaches.unique reaches'
    have accepted : ¬(badDevice (t.kind jp) = true ∨ free = false) := by
      simp [dir, badDevice, hasRoom]
    rw [if_neg accepted, dir] at same
    cases same
    have readOnly := conforms.notWritable jp (oWritable omode) rfl
    simp [writes] at readOnly
  · intro allowed
    have readOnly : free = true → t.kind jp = .dir → oWritable omode = false := by
      intro hasRoom dir
      by_contra writes
      cases k with
      | succ k =>
        exact allowed.write existing (by simpa using writes) hasRoom (k + 1) jp
          (Nat.succ_pos k) bound reaches dir
      | zero => simp [notRefused rfl dir, oWritable] at writes
    obtain ⟨s', result, same, conforms⟩ := conforms_reached omode free s reaches bound readOnly
    exact ⟨s', result, congrArg some same, conforms⟩

theorem sysOpen_existing (idle : s.Idle) (unused : t.Unused fresh)
    (follows : oNofollow omode = false) (existing : oCreate omode = false) :
    Exactly t path omode fresh free s := by
  have noCreate : ¬oCreate omode = true := by simp [existing]
  cases found : t.resolve path with
  | none =>
    have first : t.first path omode fresh = none := by simp [first, noCreate, found]
    refine existing_failed existing (sysOpen_none idle unused first) (fun k jp reaches => ?_)
      (by simp [after, found])
    simp [Tree.Reaches, after, found] at reaches
  | some ip =>
    by_cases refused : t.kind ip = .dir ∧ omode ≠ 0
    · have first : t.first path omode fresh = none := by
        simp [first, noCreate, found, refused]
      have reaches : t.Reaches path 0 ip :=
        ⟨by simp [after, found, follow], by simp [refused.1, Kind.isLink]⟩
      refine existing_failed existing (sysOpen_none idle unused first) (fun k jp reaches' => ?_)
        (reaches.after_none (by omega))
      obtain ⟨rfl, rfl⟩ := reaches.unique reaches'
      exact ⟨rfl, .inr (.inl refused)⟩
    · have first : t.first path omode fresh = some (ip, t.kind ip) := by
        simp [first, noCreate, found, refused]
      have chains : ∀ n, t.after path n = t.follow n ip := fun n => by simp [after, found]
      rcases followLoop_cases idle threshold ip with ⟨k, jp, bound, chain, noLink, run⟩ |
        ⟨jp, chain, run⟩ | ⟨cut, links, run⟩
      · refine existing_reached existing ⟨(chains k).trans chain, noLink⟩ bound (fun zero dir => ?_)
          (sysOpen_reached idle unused follows first run)
        -- the path itself names a directory, which was not refused
        subst zero
        cases chain
        exact by_contra fun nonzero => refused ⟨dir, nonzero⟩
      · have eleven : t.after path 11 = some jp := (chains 11).trans chain
        refine iff_of_false ?_ fun allowed => ?_
        · rintro ⟨s', result, same, conforms⟩
          simp only [sysOpen_some idle unused follows first, run, bind_some] at same
          cases same
          have equal : oneRef jp = 0 := by
            simpa [Icache.get] using congrArg Icache.ref (conforms.restored rfl)
          exact oneRef_ne_zero jp equal
        · rw [allowed.long existing] at eleven
          cases eleven
      · have failed : sysOpen t path omode fresh free s = some (s, .failed) := by
          simp [sysOpen_some idle unused follows first, run]
        refine existing_failed existing failed (fun k jp reaches => ?_) ((chains 11).trans cut)
        have link := links k jp ((chains k).symm.trans reaches.1)
        simp [reaches.2] at link

end Calls

/-- Opening a path, following links, does what is asked exactly if the links allow it. -/
theorem sysOpen_conforms_iff (t : Tree) (path : Path) (omode fresh : Nat) (free : Bool) (s : Icache)
    (idle : s.Idle) (unused : t.Unused fresh) (follows : oNofollow omode = false) :
    (∃ s' result, sysOpen t path omode fresh free s = some (s', result) ∧
      Conforms t path omode free s s' result) ↔ LinksAllowed t path omode free := by
  cases mode : oCreate omode with
  | true => exact sysOpen_creating idle unused follows mode
  | false => exact sysOpen_existing idle unused follows mode

/-- The root with a file `f`, a link `l` to it, a link `d` to the root and a link `a` to itself. -/
def linkTree : Tree where
  kind ip :=
    match ip with
    | 2 => .file
    | 3 => .symlink [47, 102]
    | 4 => .symlink [47]
    | 5 => .symlink [47, 97]
    | _ => .dir
  entry dp name :=
    match dp, name with
    | 1, [102] => some 2
    | 1, [108] => some 3
    | 1, [100] => some 4
    | 1, [97] => some 5
    | _, _ => none
  root := 1
  cwd := 1
  rootDir := rfl
  cwdDir := rfl

def noReferences : Icache := ⟨fun _ => 0, []⟩

theorem linkTree_unused : linkTree.Unused 6 := by
  refine ⟨by decide, by decide, fun dp name => ?_⟩
  simp only [linkTree]
  split <;> decide

/-- The link `l` is opened for reading and writing. -/
theorem sysOpen_throughLink : LinksAllowed linkTree [47, 108] 2 true ∧
      ∃ s' result, sysOpen linkTree [47, 108] 2 6 true noReferences = some (s', result) ∧
        Conforms linkTree [47, 108] 2 true noReferences s' result := by
  have reaches : linkTree.Reaches [47, 108] 1 2 := ⟨by decide, rfl⟩
  have allowed : LinksAllowed linkTree [47, 108] 2 true := by
    refine ⟨fun creating => absurd creating (by decide), fun _ _ _ k ip _ _ reaches' => ?_,
      fun _ => by decide⟩
    obtain ⟨-, rfl⟩ := reaches.unique reaches'
    decide
  have idle : noReferences.Idle := ⟨rfl, fun _ => Int.le_refl 0⟩
  exact ⟨allowed,
    (sysOpen_conforms_iff linkTree [47, 108] 2 6 true noReferences idle linkTree_unused rfl).mpr
      allowed⟩

/-- The link `a` is not opened, but its inode keeps a reference; `d` gives a writable descriptor for
the root; and `l` is not opened with `O_CREATE`. -/
theorem sysOpen_badLinks :
    (sysOpen linkTree [47, 97] 0 6 true noReferences).map (fun (s, r) => (s.ref 5, s.held, r)) =
        some (1, [], .failed) ∧
      (sysOpen linkTree [47, 100] 2 6 true noReferences).map Prod.snd =
        some (.opened 1 .dir true) ∧
      (sysOpen linkTree [47, 108] 512 6 true noReferences).map Prod.snd = some .failed := by
  decide +kernel

end KernelLabs.Xv6.Open
