import Mathlib.Data.List.TakeWhile
import KernelLabs.ChCore.User.TmpfsTree

/-!
# Walking a path of tmpfs

Model of `tfs_namex` without `mkdir_p` and of `handle_xxxat` without a callback
(`user/tmpfs/util.c`).  A path record is the list of its dentries, the last first.  Each round of
the loop of `tfs_namex` and each link that is followed takes one unit of fuel.
-/

set_option autoImplicit false

namespace KernelLabs.ChCore.Tmpfs

open List

/-- Why a walk ends early: an error; a failed assertion or an inode that is used as a directory and
is none; no fuel. -/
inductive Stop where
  | err (code : Int)
  | bug
  | fuel

abbrev Path := List Dentry

/-- `MAX_FILENAME_LEN` and `FS_REQ_PATH_LEN`. -/
def maxFilenameLen : Nat := 255

def pathLastInode : Path → Except Stop Nat
  | [] => .error .bug
  | dent :: _ => .ok dent.inode

def pathLastDirInode (h : Heap) : Path → Except Stop Nat
  | [] => .error .bug
  | dent :: rest =>
    if h.isType dent.inode .dir then .ok dent.inode
    else if h.isType dent.inode .sym then pathLastDirInode h rest
    else .error .bug

def tfsNamexLookup (h : Heap) (dirat : Nat) (name : Name) : Except Stop Dentry :=
  if h.isType dirat .dir then (tfsLookup h dirat name).elim (.error (.err (-enoent))) .ok
  else .error .bug

def linkText (h : Heap) (i : Nat) : Name :=
  (h.nodes i).elim [] fun node => (tfsFileRead node.file 0 node.file.size).1

abbrev Loop := Path → Nat → Name → Except Stop (Path × Name)

def tfsNamex (h : Heap) (loop : Loop) (path : Path) (name : Name) : Except Stop (Path × Name) :=
  if name.head? = some 47 then .error .bug
  else do
    let parent ← pathLastDirInode h path
    if name = [] then .error (.err (-einval)) else loop path parent name

/-- The path after the component `dent`, which is followed if it is a link.  The buffer for the
text of a link has no terminator, and `junk` is what follows it on the stack. -/
def appendDent (h : Heap) (junk : Name) (loop : Loop) (path : Path) (dent : Dentry) :
    Except Stop Path :=
  if h.isType dent.inode .sym = false then .ok (dent :: path)
  else do
    let (path, leaf) ← tfsNamex h loop (dent :: path) (linkText h dent.inode ++ junk)
    let dirat ← pathLastInode path
    if leaf = [] then .error .bug
    else
      let last ← tfsNamexLookup h dirat leaf
      if h.isType last.inode .dir then .ok (last :: path) else .error .bug

def namexLoop (h : Heap) (junk : Name) : Nat → Loop
  | 0, _, _, _ => .error .fuel
  | fuel + 1, path, parent, name =>
    let buff := name.takeWhile (· ≠ 47)
    let rest := name.dropWhile (· ≠ 47)
    if maxFilenameLen < buff.length then .error (.err (-einval))
    else if rest = [] then .ok (path, buff)
    else do
      let dent ← tfsNamexLookup h parent buff
      let path ← appendDent h junk (namexLoop h junk fuel) path dent
      let parent ← pathLastInode path
      let name := rest.dropWhile (· = 47)
      if name ≠ [] ∧ h.isType parent .dir = false then .error (.err (-einval))
      else namexLoop h junk fuel path parent name

/-- `handle_xxxat` from the dentries `record` of a descriptor or of the root: `walk->target`. -/
def handleXxxat (h : Heap) (junk : Name) (follow : Bool) :
    Nat → Path → Name → Except Stop (Option Nat)
  | 0, _, _ => .error .fuel
  | fuel + 1, record, path =>
    let leaf := path.dropWhile (· = 47)
    if path = [] then .error .bug
    else if leaf = [] then (pathLastInode record).map some
    else do
      let (record, leaf) ← tfsNamex h (namexLoop h junk fuel) record leaf
      let parent ← pathLastInode record
      if leaf = [] then
        -- the target keeps its value, which is `NULL`
        if h.isType parent .dir then .ok none else .error (.err (-enoent))
      else
        let found ← tfsNamexLookup h parent leaf
        if h.isType found.inode .sym ∧ follow then
          let text := linkText h found.inode
          let record := if text.head? = some 47 then h.rootDent :: found :: record
            else found :: record
          if maxFilenameLen < text.length then .error .bug
          else handleXxxat h junk follow fuel record text
        else .ok (some found.inode)

theorem bind_ok {α β : Type} {x : Except Stop α} {f : α → Except Stop β} {b : β} :
    x >>= f = .ok b ↔ ∃ a, x = .ok a ∧ f a = .ok b := by
  cases x <;> simp [bind, Except.bind]

/-! ## Trailing slashes -/

section Walks
variable {h : Heap} {junk : Name} {fuel : Nat}

/-- What `tfs_namex` leaves of a path is behind its last slash. -/
theorem namexLoop_leaf : ∀ {path path' : Path} {parent : Nat} {name leaf : Name},
    namexLoop h junk fuel path parent name = .ok (path', leaf) → leaf <:+ name ∧ 47 ∉ leaf := by
  induction fuel with
  | zero =>
    intro path path' parent name leaf run
    cases run
  | succ fuel ih =>
    intro path path' parent name leaf run
    rw [namexLoop] at run
    split at run
    · cases run
    split at run
    · rename_i last
      cases run
      have whole := takeWhile_append_dropWhile (p := (· ≠ (47 : UInt8))) (l := name)
      rw [last, append_nil] at whole
      exact ⟨⟨[], whole⟩, fun slash => by simpa using mem_takeWhile_imp slash⟩
    · simp only [bind_ok] at run
      obtain ⟨dent, _, path₁, _, parent₁, _, run⟩ := run
      split at run
      · cases run
      · obtain ⟨behind, none⟩ := ih run
        exact ⟨behind.trans ((dropWhile_suffix _).trans (dropWhile_suffix _)), none⟩

variable {follow : Bool} {start : Path} {p : Name} {target : Option Nat}

/-- `tfs_namex` takes every component of the path `p` and leaves no leaf; the last one is `i`. -/
def LeadsTo (h : Heap) (junk : Name) (start : Path) (p : Name) (i : Nat) : Prop :=
  ∃ fuel record, tfsNamex h (namexLoop h junk fuel) start (p.dropWhile (· = 47)) = .ok (record, []) ∧
    pathLastInode record = .ok i

theorem handleXxxat_trailing (other : ¬ ∀ c ∈ p, c = 47)
    (walk : handleXxxat h junk follow fuel start (p ++ [47]) = .ok target) :
    target = none ∧ ∃ i, LeadsTo h junk start (p ++ [47]) i ∧ h.isType i .dir = true := by
  cases fuel with
  | zero => cases walk
  | succ fuel =>
    have leaf : (p ++ [47]).dropWhile (· = 47) ≠ [] := fun empty => other fun c member => by
      simpa using dropWhile_eq_nil_iff.mp empty c (mem_append_left _ member)
    simp only [handleXxxat, append_ne_nil_of_right_ne_nil p (cons_ne_nil 47 []), leaf, if_false,
      bind_ok] at walk
    obtain ⟨⟨record, last⟩, names, parent, ends, walk⟩ := walk
    have run := names
    simp only [tfsNamex, leaf, if_false] at run
    split at run
    · cases run
    obtain ⟨_, _, run⟩ := bind_ok.mp run
    obtain ⟨behind, none⟩ := namexLoop_leaf run
    rcases suffix_concat_iff.mp (behind.trans (dropWhile_suffix _)) with rfl | ⟨t, rfl, _⟩
    · rw [if_pos rfl] at walk
      split at walk <;> cases walk
      rename_i dir
      exact ⟨rfl, parent, ⟨fuel, record, names, ends⟩, dir⟩
    · simp at none

theorem handleXxxat_slashes (slashes : ∀ c ∈ p, c = 47) (nonempty : p ≠ []) :
    handleXxxat h junk follow (fuel + 1) start p = (pathLastInode start).map some := by
  have leaf : p.dropWhile (· = 47) = [] :=
    dropWhile_eq_nil_iff.mpr fun c member => by simp [slashes c member]
  simp only [handleXxxat, nonempty, leaf, if_true, if_false]

end Walks

end KernelLabs.ChCore.Tmpfs
