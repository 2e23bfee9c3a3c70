import Mathlib.Data.Finset.Option
import KernelLabs.Xv6.FsTrunc

/-!
# Transactions of the file system

`writei` of `kernel/fs.c`, the transactions that write to a file or free its blocks, and the blocks
that each of them passes to `log_write`.  These are blocks of three kinds, from disjoint ranges of
the disk: the blocks in some slots of one file, blocks of the bitmap, and inode blocks.
-/

set_option autoImplicit false

namespace KernelLabs.Xv6

open Function List

def maxopblocks : Nat := 10

def tDir : BitVec 16 := 1

def tFile : BitVec 16 := 2

def direntSize : Nat := 16

def writeMax : Nat := (maxopblocks - 1 - 1 - 2) / 2 * bsize

theorem bsize_le_writeMax : bsize ≤ writeMax := by decide

/-- What the buffer holds after the `either_copyin` of each iteration, and whether that succeeds. -/
structure Copyin where
  data : Nat → Nat → Word
  ok : Nat → Bool

namespace Fs

section Model
variable {sb : Superblock}

/-- The loop of `writei` in iteration `k`, with `left` bytes to write at `off`.  It returns these
two as they are at the end. -/
def writeLoop (s : Fs sb) (i : Fin sb.ninodes) (src : Copyin) :
    Nat → Nat → Nat → Nat → Option (Nat × Nat × Fs sb)
  | 0, _, off, left => some (off, left, s)
  | fuel + 1, k, off, left =>
    if left = 0 then some (off, left, s)
    else do
      let (addr, s) ← s.bmap i (off / bsize)
      let m := min left (bsize - off % bsize)
      let s := s.setBlock addr (src.data k)
      if src.ok k then (s.logWrite addr).writeLoop i src fuel (k + 1) (off + m) (left - m)
      else some (off, left, s)

/-- The checks of `writei`, where `off + n` is computed as a `uint`. -/
def WriteRejected (s : Fs sb) (i : Fin sb.ninodes) (off n : Nat) : Prop :=
  (s.inodes i).size.toNat < off ∨ (off + n) % 2 ^ 32 < off ∨ maxfile * bsize < (off + n) % 2 ^ 32

instance (s : Fs sb) (i : Fin sb.ninodes) (off n : Nat) : Decidable (s.WriteRejected i off n) :=
  inferInstanceAs (Decidable (_ ∨ _ ∨ _))

/-- Returns the number of bytes written, or `none` for -1. -/
def writei (s : Fs sb) (i : Fin sb.ninodes) (src : Copyin) (off n : Nat) :
    Option (Option Nat × Fs sb) :=
  if s.WriteRejected i off n then some (none, s)
  else do
    let (last, left, s) ← s.writeLoop i src n 0 off n
    let s := if (s.inodes i).size.toNat < last then
        s.setInode i { s.inodes i with size := BitVec.ofNat 32 last }
      else s
    some (some (n - left), s.iupdate i)

/-- The part of `iput` for an inode without links: its blocks are freed, and then the inode. -/
def iputLast (s : Fs sb) (i : Fin sb.ninodes) (dropped : Bool) : Option (Fs sb) := do
  let s ← s.itrunc i dropped
  some ((s.setInode i { s.inodes i with type := 0 }).iupdate i)

/-- An iteration of `filewrite`; `sys_open` with `O_TRUNC` of an existing file, or of one that it
creates in entry `entry` of `dp`; the last `iput` of a file without links, from `fileclose` or
`sys_unlink`. -/
inductive Transaction (sb : Superblock) where
  | filewrite (i : Fin sb.ninodes) (src : Copyin) (off : Word) (n : Nat) (short : n ≤ writeMax)
  | openTrunc (i : Fin sb.ninodes) (dropped : Bool)
  | openCreate (dp i : Fin sb.ninodes) (src : Copyin) (entry : Nat) (dropped : Bool)
  | close (i : Fin sb.ninodes) (dropped : Bool)
  | unlink (dp i : Fin sb.ninodes) (src : Copyin) (entry : Nat) (dropped : Bool)

/-- There is no state after a panic, and none if the directory is no directory, the inode to create
is not free or the one to unlink has another link. -/
def execute (s : Fs sb) : Transaction sb → Option (Fs sb)
  | .filewrite i src off n _ => (s.writei i src off.toNat n).map Prod.snd
  | .openTrunc i dropped => if (s.inodes i).type = tFile then s.itrunc i dropped else some s
  | .openCreate dp i src entry dropped =>
    if (s.inodes dp).type = tDir ∧ (s.inodes i).type = 0 then do
      let s := (s.setInode i ⟨tFile, 0, 0, 1, 0, fun _ => 0⟩).iupdate i
      let (written, s) ← s.writei dp src (entry * direntSize) direntSize
      if written = some direntSize then s.itrunc i dropped else none
    else none
  | .close i dropped => if (s.inodes i).nlink = 0 then s.iputLast i dropped else some s
  | .unlink dp i src entry dropped =>
    if (s.inodes dp).type = tDir ∧ (s.inodes i).type ≠ tDir ∧ (s.inodes i).nlink = 1 then do
      let (written, s) ← s.writei dp src (entry * direntSize) direntSize
      if written = some direntSize then
        ((s.setInode i { s.inodes i with nlink := 0 }).iupdate i).iputLast i dropped
      else none
    else none

def begun (s : Fs sb) : Fs sb := { s with written := [] }

end Model

/-! ## The blocks that a transaction logs -/

section Load
variable {sb : Superblock}

/-- The blocks of a file that the loop of `writei` visits, each with whether the copy succeeds. -/
def visits (src : Copyin) : Nat → Nat → Nat → Nat → List (Nat × Bool)
  | 0, _, _, _ => []
  | fuel + 1, k, off, left =>
    if left = 0 then []
    else
      let m := min left (bsize - off % bsize)
      (off / bsize, src.ok k) ::
        if src.ok k then visits src fuel (k + 1) (off + m) (left - m) else []

/-- The slot of block `bn` of a file; there are none beyond `MAXFILE`. -/
def slotAt (bn : Nat) : Slot := if range : bn < maxfile then dataSlot ⟨bn, range⟩ else .double

def pathSlots (blocks : List (Nat × Bool)) : Finset Slot :=
  (blocks.flatMap fun v => (slotAt v.1).path).toFinset

def copiedSlots (blocks : List (Nat × Bool)) : Finset Slot :=
  ((blocks.filter fun v => v.2).map fun v => slotAt v.1).toFinset

def emptySlots (s : Fs sb) (i : Fin sb.ninodes) (blocks : List (Nat × Bool)) : Finset Slot :=
  (pathSlots blocks).filter fun c => s.value i c = 0

def above (c : Slot) : Finset Slot := (c.parent.map Prod.fst).toFinset

/-- Slots of one file, blocks of the bitmap as offsets from the first one, and inode blocks. -/
structure Load where
  slots : Finset Slot
  groups : Finset Nat
  inodeBlocks : Finset Nat

def Load.none : Load := ⟨∅, ∅, ∅⟩

def Load.union (l l' : Load) : Load :=
  ⟨l.slots ∪ l'.slots, l.groups ∪ l'.groups, l.inodeBlocks ∪ l'.inodeBlocks⟩

def Load.size (l : Load) : Nat := l.slots.card + l.groups.card + l.inodeBlocks.card

/-- `writei` logs the blocks it copies to, those it allocates and the index blocks that these are
entered in; the blocks of the bitmap of the first free blocks; and the inode. -/
def writeLoad (s : Fs sb) (i : Fin sb.ninodes) (src : Copyin) (off n : Nat) : Load :=
  if s.WriteRejected i off n then .none
  else
    let blocks := visits src n 0 off n
    let news := s.emptySlots i blocks
    ⟨copiedSlots blocks ∪ (news ∪ news.biUnion above),
      ((s.freeList.take news.card).map (· / bpb)).toFinset, {sb.iblock i.val}⟩

/-- `itrunc` logs the blocks of the bitmap of all blocks of the file, and the inode. -/
def truncLoad (s : Fs sb) (i : Fin sb.ninodes) : Load :=
  ⟨∅, ((s.blocksOf i).map (· / bpb)).toFinset, {sb.iblock i.val}⟩

def load (s : Fs sb) : Transaction sb → Load
  | .filewrite i src off n _ => s.writeLoad i src off.toNat n
  | .openTrunc i _ => if (s.inodes i).type = tFile then s.truncLoad i else .none
  | .openCreate dp i src entry _ =>
    (s.writeLoad dp src (entry * direntSize) direntSize).union ⟨∅, ∅, {sb.iblock i.val}⟩
  | .close i _ => if (s.inodes i).nlink = 0 then s.truncLoad i else .none
  | .unlink dp i src entry _ =>
    (s.writeLoad dp src (entry * direntSize) direntSize).union (s.truncLoad i)

end Load

/-! ## The effect of `writei` -/

variable {c : Slot} {done : List Slot} {gone : Prop}

section Writing
variable {sb : Superblock} {s s' : Fs sb} {i : Fin sb.ninodes}

theorem slotAt_eq {bn : Nat} (range : bn < maxfile) : slotAt bn = dataSlot ⟨bn, range⟩ :=
  dif_pos range

variable {blocks : List (Nat × Bool)}

theorem mem_pathSlots : c ∈ pathSlots blocks ↔ ∃ v ∈ blocks, c ∈ (slotAt v.1).path := by
  simp [pathSlots]

theorem mem_emptySlots :
    c ∈ s.emptySlots i blocks ↔ (∃ v ∈ blocks, c ∈ (slotAt v.1).path) ∧ s.value i c = 0 := by
  rw [emptySlots, Finset.mem_filter, mem_pathSlots]

theorem mem_missing {cs : List Slot} : c ∈ s.missing i cs ↔ c ∈ cs ∧ s.value i c = 0 := by
  simp [missing]

theorem missing_nodup (s : Fs sb) (i : Fin sb.ninodes) (c : Slot) : (s.missing i c.path).Nodup :=
  (path_nodup c).filter _

/-- After the first block, what is empty on the other paths is what was empty there and is not on
the path of the first one. -/
theorem emptySlots_cons (bn : Nat) (ok : Bool) (blocks : List (Nat × Bool)) (sound : s.Sound)
    (grown : Grown s s' i (s.missing i (slotAt bn).path) done) :
    s.emptySlots i ((bn, ok) :: blocks) =
        (s.missing i (slotAt bn).path).toFinset ∪ s'.emptySlots i blocks ∧
      Disjoint (s.missing i (slotAt bn).path).toFinset (s'.emptySlots i blocks) := by
  constructor
  · ext c
    rw [Finset.mem_union, mem_toFinset, mem_missing, mem_emptySlots, mem_emptySlots]
    simp only [mem_cons, exists_eq_or_imp]
    by_cases here : c ∈ (slotAt bn).path ∧ s.value i c = 0
    · simp [here]
    · have same : s'.value i c = s.value i c :=
        grown.keeps i c (.inr fun member => here (mem_missing.mp member))
      rw [same]
      tauto
  · rw [Finset.disjoint_left]
    intro c first later
    exact grown.filled sound (mem_toFinset.mp first) (mem_emptySlots.mp later).2

theorem Grown.of_same (values : ∀ i' c, s'.value i' c = s.value i' c)
    (bits : ∀ x, x < sb.size → s'.bit x = s.bit x) (has : ∀ c ∈ done, s.value i c ≠ 0)
    (written : s'.written = done.map (s.value i) ++ s.written) (freed : s'.freed = s.freed)
    (inodes : s'.inodes = s.inodes) : Grown s s' i [] done where
  nodup := nodup_nil
  empty := by simp
  keeps i' c _ := values i' c
  ready := by simp
  taken := (freeList_of_bits bits).symm
  has c member := by
    rw [values]
    exact has c member
  logged x := by
    simp only [written, values, mem_append, mem_map, not_mem_nil, false_and,
      exists_false, false_or]
    rw [or_comm]
    simp only [eq_comm]
  freed := freed
  attrs i' := by rw [inodes]

theorem setBlock_same (sound : s.Sound) {bn : Fin maxfile} (has : s.value i (dataSlot bn) ≠ 0)
    (block : Nat → Word) :
    (∀ i' c, (s.setBlock (s.value i (dataSlot bn)) block).value i' c = s.value i' c) ∧
      (∀ x, x < sb.size → (s.setBlock (s.value i (dataSlot bn)) block).bit x = s.bit x) ∧
      (s.setBlock (s.value i (dataSlot bn)) block).Sound := by
  have values : ∀ i' c, (s.setBlock (s.value i (dataSlot bn)) block).value i' c =
      if False then 0 else s.value i' c := by
    refine value_of_cleared (fun _ => False) (fun i' n => rfl) fun i' c p j above _ index => ?_
    refine update_of_ne (fun same => ?_) _ _
    have slot := (sound.distinct index same).2
    rw [slot] at above
    exact dataSlot_not_parent bn above
  have bits : ∀ x, x < sb.size → (s.setBlock (s.value i (dataSlot bn)) block).bit x = s.bit x :=
    fun x inside => bit_setBlock_of_data inside (sound.inUse has).1 block
  exact ⟨values, bits, sound.of_cleared (fun _ => False) values bits⟩

theorem off_div_lt {off left : Nat} (range : off + left ≤ maxfile * bsize) (more : left ≠ 0) :
    off / bsize < maxfile :=
  Nat.div_lt_of_lt_mul (by rw [Nat.mul_comm]; omega)

theorem copiedSlots_cons (bn : Nat) (ok : Bool) (blocks : List (Nat × Bool)) :
    copiedSlots ((bn, ok) :: blocks) =
      (if ok then [slotAt bn] else []).toFinset ∪ copiedSlots blocks := by
  cases ok <;> simp [copiedSlots]

/-- The loop fills the empty slots on the paths it visits and logs what it copies, unless there are
not enough free blocks. -/
theorem writeLoop_cases (src : Copyin) (fuel : Nat) : ∀ {s : Fs sb} {k off left : Nat}, s.Sound →
    off + left ≤ maxfile * bsize →
    (∃ last rest s' news done, s.writeLoop i src fuel k off left = some (last, rest, s') ∧
      s'.Sound ∧ Grown s s' i news done ∧
      news.toFinset = s.emptySlots i (visits src fuel k off left) ∧
      done.toFinset = copiedSlots (visits src fuel k off left)) ∨
    s.writeLoop i src fuel k off left = none ∧
      s.freeList.length < (s.emptySlots i (visits src fuel k off left)).card := by
  induction fuel with
  | zero =>
    intro s k off left sound _
    exact .inl ⟨off, left, s, [], [], rfl, sound, .refl s i, rfl, rfl⟩
  | succ fuel ih =>
    intro s k off left sound range
    rw [writeLoop, visits]
    by_cases more : left = 0
    · rw [if_pos more, if_pos more]
      exact .inl ⟨off, left, s, [], [], rfl, sound, .refl s i, rfl, rfl⟩
    rw [if_neg more, if_neg more]
    have bound := off_div_lt range more
    have slot := slotAt_eq bound
    rcases bmap_cases (i := i) sound ⟨off / bsize, bound⟩ with
      ⟨s1, result, sound1, grown1, all⟩ | ⟨none, few⟩
    · have has := all _ (mem_path_self _)
      obtain ⟨values, bits, sound2⟩ := setBlock_same sound1 has (src.data k)
      simp only [result, Option.bind_eq_bind, Option.bind_some]
      rw [← slot] at grown1 has values bits sound2 ⊢
      generalize number : s1.value i (slotAt (off / bsize)) = block at values bits sound2 ⊢
      cases ok : src.ok k with
      | false =>
        have same : Grown s1 (s1.setBlock block (src.data k)) i [] [] :=
          .of_same values bits (by simp) rfl rfl rfl
        have grown := grown1.trans same sound
        rw [append_nil] at grown
        refine .inl ⟨off, left, _, _, _, rfl, sound2, grown, ?_, rfl⟩
        rw [if_neg Bool.false_ne_true, (emptySlots_cons _ false [] sound grown).1]
        simp [emptySlots, pathSlots]
      | true =>
        have copied : Grown s1 ((s1.setBlock block (src.data k)).logWrite block) i []
            [slotAt (off / bsize)] :=
          .of_same values bits (by simpa using has) (by rw [← number]; rfl) rfl rfl
        have grown := grown1.trans copied sound
        rw [append_nil] at grown
        have sound3 : ((s1.setBlock block (src.data k)).logWrite block).Sound :=
          ⟨sound2.owned, sound2.reserved⟩
        have inside := Nat.min_le_left left (bsize - off % bsize)
        rw [if_pos rfl, if_pos rfl]
        generalize (s1.setBlock block (src.data k)).logWrite block = s2 at grown sound3 ⊢
        generalize min left (bsize - off % bsize) = m at inside ⊢
        have within : off + m + (left - m) ≤ maxfile * bsize := by omega
        have slots := emptySlots_cons (off / bsize) true
          (visits src fuel (k + 1) (off + m) (left - m)) sound grown
        rw [slots.1, copiedSlots_cons]
        rcases ih sound3 within with
          ⟨last, rest, s', news, done, result', sound', grown', which, copies⟩ | ⟨none, few⟩
        · refine .inl ⟨last, rest, s', _, _, result', sound', grown.trans grown' sound, ?_, ?_⟩
          · rw [toFinset_append, which]
          · rw [toFinset_append, copies]
            rfl
        · have length := congrArg List.length grown.taken
          rw [length_append, length_map] at length
          refine .inr ⟨none, ?_⟩
          rw [Finset.card_union_of_disjoint slots.2, toFinset_card_of_nodup (missing_nodup s i _)]
          omega
    · refine .inr ⟨by rw [none]; rfl, Nat.lt_of_lt_of_le few ?_⟩
      rw [← slot, ← toFinset_card_of_nodup (missing_nodup s i _)]
      refine Finset.card_le_card fun c member => ?_
      obtain ⟨here, empty⟩ := mem_missing.mp (mem_toFinset.mp member)
      exact mem_emptySlots.mpr ⟨⟨_, mem_cons_self, here⟩, empty⟩

theorem writeLoop_last (src : Copyin) (fuel : Nat) : ∀ {s s' : Fs sb} {k off left last rest : Nat},
      s.writeLoop i src fuel k off left = some (last, rest, s') →
      last + rest = off + left ∧ ((∀ k, src.ok k = true) → left ≤ fuel → rest = 0) := by
  induction fuel with
  | zero =>
    intro s s' k off left last rest result
    cases result
    exact ⟨rfl, fun _ enough => Nat.le_zero.mp enough⟩
  | succ fuel ih =>
    intro s s' k off left last rest result
    rw [writeLoop] at result
    by_cases more : left = 0
    · rw [if_pos more] at result
      cases result
      exact ⟨rfl, fun _ _ => more⟩
    rw [if_neg more] at result
    obtain ⟨⟨addr, s1⟩, _, result⟩ := Option.bind_eq_some_iff.mp result
    have room : 0 < bsize - off % bsize := Nat.sub_pos_of_lt (Nat.mod_lt _ (by decide))
    have inside : 0 < min left (bsize - off % bsize) ∧ min left (bsize - off % bsize) ≤ left :=
      ⟨by omega, Nat.min_le_left _ _⟩
    cases ok : src.ok k with
    | false =>
      simp only [ok, Bool.false_eq_true, if_false, Option.some.injEq, Prod.mk.injEq] at result
      obtain ⟨rfl, rfl, _⟩ := result
      refine ⟨rfl, fun all _ => ?_⟩
      rw [all] at ok
      cases ok
    | true =>
      simp only [ok, if_true] at result
      obtain ⟨moves, all⟩ := ih result
      exact ⟨by omega, fun every enough => all every (by omega)⟩

structure Saved (s s' : Fs sb) (i : Fin sb.ninodes) (gone : Prop) [Decidable gone] : Prop where
  values : ∀ i' c, s'.value i' c = if i' = i ∧ gone then 0 else s.value i' c
  bits : ∀ x, x < sb.size → s'.bit x = s.bit x
  written : s'.written = sb.iblock i.val :: s.written
  others : ∀ i', i' ≠ i → s'.inodes i' = s.inodes i'

theorem setInode_saved (sound : s.Sound) (i : Fin sb.ninodes) (ip : Inode) (gone : Prop)
    [Decidable gone] (addrs : ∀ n : Fin (ndirect + 2),
      ip.addrs n = if gone then 0 else (s.inodes i).addrs n) :
    Saved s ((s.setInode i ip).iupdate i) i gone where
  values := by
    refine value_of_cleared (fun i' => i' = i ∧ gone) (fun i' n => ?_) fun i' c p j _ _ has => ?_
    · show (update s.inodes i ip i').addrs n = _
      by_cases here : i' = i
      · subst here
        rw [update_self, addrs]
        simp
      · rw [update_of_ne here, if_neg fun both => here both.1]
    · exact iupdate_disk _ i (sound.inUse has).1
  bits x _ := iupdate_bit _ i x
  written := rfl
  others i' other := update_of_ne other _ _

theorem Saved.sound [Decidable gone] (saved : Saved s s' i gone) (sound : s.Sound) : s'.Sound :=
  sound.of_cleared (fun i' => i' = i ∧ gone) saved.values saved.bits

structure Wrote (s s' : Fs sb) (i : Fin sb.ninodes) (src : Copyin) (off n : Nat)
    (news done : List Slot) : Prop where
  sound : s'.Sound
  grown : ∃ last rest s₁, s.writeLoop i src n 0 off n = some (last, rest, s₁) ∧
    Grown s s₁ i news done ∧ Saved s₁ s' i False ∧
    (s'.inodes i).size.toNat = max (s.inodes i).size.toNat last ∧
    (s'.inodes i).type = (s₁.inodes i).type
  empty : news.toFinset = s.emptySlots i (visits src n 0 off n)
  copied : done.toFinset = copiedSlots (visits src n 0 off n)

theorem range_of_accepted {off n : Nat} (small : n < 2 ^ 32)
    (accepted : ¬ s.WriteRejected i off n) : off + n ≤ maxfile * bsize := by
  simp only [WriteRejected, not_or, Nat.not_lt] at accepted
  omega

theorem writei_cases (src : Copyin) {off n : Nat} (small : n < 2 ^ 32) (sound : s.Sound)
    (accepted : ¬ s.WriteRejected i off n) :
    (∃ r s' news done, s.writei i src off n = some (some r, s') ∧
      Wrote s s' i src off n news done) ∨
    s.writei i src off n = none ∧
      s.freeList.length < (s.emptySlots i (visits src n 0 off n)).card := by
  have range := range_of_accepted small accepted
  rw [writei, if_neg accepted]
  rcases writeLoop_cases (i := i) src n (k := 0) sound range with
    ⟨last, rest, s1, news, done, result, sound1, grown, empty, copied⟩ | ⟨none, few⟩
  · have moves := (writeLoop_last src n result).1
    have limit : last < 2 ^ 32 := by
      have all : maxfile * bsize < 2 ^ 32 := by decide
      omega
    have size : (BitVec.ofNat 32 last).toNat = last := by
      rw [BitVec.toNat_ofNat, Nat.mod_eq_of_lt limit]
    rw [result]
    left
    simp only [Option.bind_eq_bind, Option.bind_some]
    by_cases longer : (s1.inodes i).size.toNat < last
    · rw [if_pos longer]
      have saved : Saved s1 ((s1.setInode i { s1.inodes i with
          size := BitVec.ofNat 32 last }).iupdate i) i False :=
        setInode_saved sound1 i _ False fun n => by simp
      refine ⟨_, _, news, done, rfl, saved.sound sound1,
        ⟨last, rest, s1, result, grown, saved, ?_, ?_⟩, empty, copied⟩
      · show (update s1.inodes i _ i).size.toNat = _
        rw [update_self, size, ← grown.size, Nat.max_eq_right (Nat.le_of_lt longer)]
      · show (update s1.inodes i _ i).type = _
        rw [update_self]
    · rw [if_neg longer]
      have saved : Saved s1 (s1.iupdate i) i False := by
        have same := setInode_saved sound1 i (s1.inodes i) False fun n => by simp
        rwa [setInode, update_eq_self] at same
      refine ⟨_, _, news, done, rfl, saved.sound sound1,
        ⟨last, rest, s1, result, grown, saved, ?_, rfl⟩, empty, copied⟩
      rw [← grown.size, Nat.max_eq_left (Nat.not_lt.mp longer)]
      rfl
  · exact .inr ⟨by rw [none]; rfl, few⟩

end Writing

/-! ## The load of a transaction -/

section Loads
variable {sb : Superblock} {s s' : Fs sb} {i : Fin sb.ninodes} {v : Slot → Nat} {l l' : Load}

def Logs (s s' : Fs sb) (v : Slot → Nat) (l : Load) : Prop :=
  ∀ x, x ∈ s'.written ↔ x ∈ s.written ∨ (∃ c ∈ l.slots, x = v c) ∨
    (∃ g ∈ l.groups, x = g + sb.bmapstart) ∨ x ∈ l.inodeBlocks

structure Spread (sb : Superblock) (v : Slot → Nat) (l : Load) : Prop where
  data : ∀ c ∈ l.slots, sb.dataStart ≤ v c
  distinct : Set.InjOn v l.slots
  groups : ∀ g ∈ l.groups, g ≤ sb.size / bpb
  inodes : ∀ x ∈ l.inodeBlocks, x < sb.bmapstart

theorem Logs.refl (s : Fs sb) (v : Slot → Nat) : Logs s s v .none := by
  intro x
  simp [Load.none]

theorem Spread.none (v : Slot → Nat) : Spread sb v .none := by
  refine ⟨?_, ?_, ?_, ?_⟩ <;> simp [Load.none]

theorem Logs.trans {s'' : Fs sb} (first : Logs s s' v l) (second : Logs s' s'' v l') :
    Logs s s'' v (l.union l') := by
  intro x
  rw [second x, first x]
  simp only [Load.union, Finset.mem_union, or_and_right, exists_or]
  grind

theorem Spread.union (first : Spread sb v l) (second : Spread sb v l') (only : l'.slots = ∅) :
    Spread sb v (l.union l') := by
  refine ⟨?_, ?_, ?_, ?_⟩
  · simpa [Load.union, only] using first.data
  · simpa [Load.union, only] using first.distinct
  · intro g member
    exact (Finset.mem_union.mp member).elim (first.groups g) (second.groups g)
  · intro x member
    exact (Finset.mem_union.mp member).elim (first.inodes x) (second.inodes x)

/-- The number of different blocks logged by a transaction that begins with an empty log. -/
theorem Logs.card (logs : Logs s s' v l) (spread : Spread sb v l) (start : s.written = []) :
    s'.written.toFinset.card = l.size := by
  have parts : s'.written.toFinset =
      (l.slots.image v ∪ l.groups.image (· + sb.bmapstart)) ∪ l.inodeBlocks := by
    ext x
    rw [mem_toFinset, logs x]
    simp only [start, not_mem_nil, false_or, Finset.mem_union, Finset.mem_image, eq_comm, or_assoc]
  have behind : sb.dataStart = sb.bmapstart + sb.size / bpb + 1 := rfl
  have before := bmapstart_le sb
  have first : Disjoint (l.slots.image v) (l.groups.image (· + sb.bmapstart)) := by
    rw [Finset.disjoint_left]
    intro x data group
    obtain ⟨c, slot, rfl⟩ := Finset.mem_image.mp data
    obtain ⟨g, member, same⟩ := Finset.mem_image.mp group
    have low := spread.data c slot
    have high := spread.groups g member
    omega
  have second : Disjoint (l.slots.image v ∪ l.groups.image (· + sb.bmapstart)) l.inodeBlocks := by
    rw [Finset.disjoint_left]
    intro x either inode
    have early := spread.inodes x inode
    rcases Finset.mem_union.mp either with data | group
    · obtain ⟨c, slot, rfl⟩ := Finset.mem_image.mp data
      have low := spread.data c slot
      omega
    · obtain ⟨g, member, rfl⟩ := Finset.mem_image.mp group
      omega
  rw [parts, Finset.card_union_of_disjoint second, Finset.card_union_of_disjoint first,
    Finset.card_image_of_injOn spread.distinct, Finset.card_image_of_injective _
      (add_left_injective sb.bmapstart)]
  rfl

theorem Saved.logs [Decidable gone] (saved : Saved s s' i gone) (v : Slot → Nat) :
    Logs s s' v ⟨∅, ∅, {sb.iblock i.val}⟩ := by
  intro x
  simp only [saved.written, mem_cons, Finset.notMem_empty, false_and, exists_false, false_or,
    Finset.mem_singleton]
  exact or_comm

theorem spread_inode (i : Fin sb.ninodes) (v : Slot → Nat) :
    Spread sb v ⟨∅, ∅, {sb.iblock i.val}⟩ := by
  refine ⟨by simp, by simp, by simp, fun x member => ?_⟩
  rw [Finset.mem_singleton.mp member]
  exact iblock_lt i

theorem Truncated.logs (truncated : Truncated s s' i) (v : Slot → Nat) :
    Logs s s' v (s.truncLoad i) := by
  intro x
  simp only [truncated.written, truncLoad, mem_cons, mem_append, mem_reverse,
    mem_map, mem_toFinset, Superblock.bblock, Finset.notMem_empty, false_and,
    exists_false, false_or, Finset.mem_singleton, exists_exists_and_eq_and]
  grind

theorem Sound.spread_trunc (sound : s.Sound) (i : Fin sb.ninodes) (v : Slot → Nat) :
    Spread sb v (s.truncLoad i) := by
  refine ⟨by simp [truncLoad], by simp [truncLoad], fun g member => ?_, (spread_inode i v).inodes⟩
  obtain ⟨b, block, rfl⟩ := mem_map.mp (mem_toFinset.mp member)
  obtain ⟨pos, c, rfl⟩ := mem_blocksOf.mp block
  exact Nat.div_le_div_right (Nat.le_of_lt (sound.inUse pos).2.1)

theorem mem_above {d : Slot} : d ∈ above c ↔ ∃ j, c.parent = some (d, j) := by
  simp [above]

theorem Grown.logs {news : List Slot} (grown : Grown s s' i news done) : Logs s s' (s'.value i)
      ⟨done.toFinset ∪ (news.toFinset ∪ news.toFinset.biUnion above),
        ((s.freeList.take news.toFinset.card).map (· / bpb)).toFinset, ∅⟩ := by
  have taken : s.freeList.take news.toFinset.card = news.map (s'.value i) := by
    rw [toFinset_card_of_nodup grown.nodup, grown.taken, take_left' (length_map _)]
  intro x
  rw [grown.logged, taken]
  simp only [Finset.mem_union, mem_toFinset, Finset.mem_biUnion, mem_above, mem_map,
    Superblock.bblock, Finset.notMem_empty, or_false, exists_exists_and_eq_and]
  grind

variable {src : Copyin} {dropped : Bool} {entry : Nat}

theorem writei_logs {off n : Nat} {r : Option Nat} (small : n < 2 ^ 32) (sound : s.Sound)
    (result : s.writei i src off n = some (r, s')) :
    s'.Sound ∧ Logs s s' (s'.value i) (s.writeLoad i src off n) ∧
      Spread sb (s'.value i) (s.writeLoad i src off n) ∧
      ∀ i' c, i' ≠ i → s'.value i' c = s.value i' c := by
  by_cases rejected : s.WriteRejected i off n
  · rw [writei, if_pos rejected] at result
    cases result
    rw [writeLoad, if_pos rejected]
    exact ⟨sound, .refl s _, .none _, fun _ _ _ => rfl⟩
  rcases writei_cases src small sound rejected with ⟨r', s2, news, done, found, wrote⟩ | ⟨never, _⟩
  · rw [found] at result
    cases result
    obtain ⟨last, rest, s1, _, grown, saved, _⟩ := wrote.grown
    have values : ∀ i' c, s'.value i' c = s1.value i' c := by simpa using saved.values
    have same : s1.value i = s'.value i := funext fun c => (values i c).symm
    have logs := grown.logs.trans (saved.logs (s1.value i))
    rw [same] at logs
    have total : s.writeLoad i src off n = (⟨done.toFinset ∪ (news.toFinset ∪
        news.toFinset.biUnion above), ((s.freeList.take news.toFinset.card).map (· / bpb)).toFinset,
        ∅⟩ : Load).union ⟨∅, ∅, {sb.iblock i.val}⟩ := by
      simp [writeLoad, rejected, wrote.empty, wrote.copied, Load.union]
    rw [total]
    refine ⟨wrote.sound, logs, ?_, fun i' c other => ?_⟩
    · have has : ∀ c ∈ done.toFinset ∪ (news.toFinset ∪ news.toFinset.biUnion above),
          s'.value i c ≠ 0 := by
        intro c member
        rw [values]
        simp only [Finset.mem_union, mem_toFinset, Finset.mem_biUnion, mem_above] at member
        rcases member with copied | new | ⟨d, new, j, parent⟩
        · exact grown.has c copied
        · exact grown.filled sound new
        · exact grown.ready d new c j parent
      refine Spread.union ⟨fun c member => (wrote.sound.inUse (has c member)).1, ?_, ?_, by simp⟩
        (spread_inode i _) rfl
      · intro c member d _ equal
        exact (wrote.sound.distinct (has c member) equal).2
      · intro g member
        obtain ⟨b, free, rfl⟩ := mem_map.mp (mem_toFinset.mp member)
        exact Nat.div_le_div_right (Nat.le_of_lt (mem_freeList.mp (mem_of_mem_take free)).1)
    · rw [values, grown.keeps i' c (.inl other)]
  · rw [never] at result
    cases result

theorem iputLast_logs (sound : s.Sound) (result : s.iputLast i dropped = some s') (v : Slot → Nat) :
    s'.Sound ∧ Logs s s' v (s.truncLoad i) := by
  obtain ⟨s1, found, truncated⟩ := itrunc_truncated sound i dropped
  simp only [iputLast, found, Option.bind_eq_bind, Option.bind_some, Option.some.injEq] at result
  subst result
  have sound1 := truncated.sound sound
  have saved : Saved s1 ((s1.setInode i { s1.inodes i with type := 0 }).iupdate i) i False :=
    setInode_saved sound1 i _ False fun n => by simp
  have once : s.truncLoad i = (s.truncLoad i).union ⟨∅, ∅, {sb.iblock i.val}⟩ := by
    simp [truncLoad, Load.union]
  refine ⟨saved.sound sound1, ?_⟩
  rw [once]
  exact (truncated.logs v).trans (saved.logs v)

theorem truncLoad_congr (same : ∀ c, s'.value i c = s.value i c) :
    s'.truncLoad i = s.truncLoad i := by
  rw [truncLoad, truncLoad, blocksOf_eq_held, blocksOf_eq_held, held_congr fun c _ => same c]

theorem writeLoad_congr {off n : Nat} (inode : s'.inodes i = s.inodes i)
    (same : ∀ c, s'.value i c = s.value i c) (bits : ∀ x, x < sb.size → s'.bit x = s.bit x) :
    s'.writeLoad i src off n = s.writeLoad i src off n := by
  have empty : ∀ blocks, s'.emptySlots i blocks = s.emptySlots i blocks := by
    intro blocks
    simp only [emptySlots, same]
  have checks : s'.WriteRejected i off n ↔ s.WriteRejected i off n := by
    rw [WriteRejected, WriteRejected, inode]
  simp only [writeLoad, empty, freeList_of_bits bits, checks]

theorem union_inode_twice (l : Load) (x : Nat) :
    ((⟨∅, ∅, {x}⟩ : Load).union l).union ⟨∅, ∅, {x}⟩ = l.union ⟨∅, ∅, {x}⟩ := by
  simp [Load.union, Finset.union_comm]

theorem union_inode_trunc (s : Fs sb) (i : Fin sb.ninodes) (l : Load) :
    (l.union ⟨∅, ∅, {sb.iblock i.val}⟩).union (s.truncLoad i) = l.union (s.truncLoad i) := by
  simp [Load.union, truncLoad]

variable {dp : Fin sb.ninodes}

theorem openCreate_logs (sound : s.Sound)
    (result : s.execute (.openCreate dp i src entry dropped) = some s') :
    s'.Sound ∧ ∃ v, Logs s s' v (s.load (.openCreate dp i src entry dropped)) ∧
      Spread sb v (s.load (.openCreate dp i src entry dropped)) := by
  rw [load]
  obtain ⟨types, result⟩ := Option.ite_none_right_eq_some.mp result
  have other : dp ≠ i := by
    rintro rfl
    rw [types.1] at types
    exact absurd types.2 (by decide)
  have saved := setInode_saved sound i ⟨tFile, 0, 0, 1, 0, fun _ => 0⟩ True fun n => by simp
  generalize (s.setInode i ⟨tFile, 0, 0, 1, 0, fun _ => 0⟩).iupdate i = s1 at result saved
  have sound1 := saved.sound sound
  obtain ⟨⟨r, s2⟩, found, result⟩ := Option.bind_eq_some_iff.mp result
  obtain ⟨sound2, logs, spread, keeps⟩ := writei_logs (by decide) sound1 found
  obtain ⟨s3, found', truncated⟩ := itrunc_truncated sound2 i dropped
  cases found'.symm.trans (Option.ite_none_right_eq_some.mp result).2
  have same : s1.writeLoad dp src (entry * direntSize) direntSize =
      s.writeLoad dp src (entry * direntSize) direntSize :=
    writeLoad_congr (saved.others dp other)
      (fun c => by rw [saved.values, if_neg fun both => other both.1]) saved.bits
  -- the new inode has no blocks to free
  have nothing : s2.truncLoad i = ⟨∅, ∅, {sb.iblock i.val}⟩ := by
    rw [truncLoad, blocksOf_eq_held, held_eq_nil]
    · rfl
    · intro c _
      rw [keeps i c (Ne.symm other), saved.values, if_pos ⟨rfl, trivial⟩]
  have total := ((saved.logs (s2.value dp)).trans logs).trans (truncated.logs _)
  rw [same] at total spread
  rw [nothing, union_inode_twice] at total
  exact ⟨truncated.sound sound2, s2.value dp, total, spread.union (spread_inode i _) rfl⟩

theorem unlink_logs (sound : s.Sound)
    (result : s.execute (.unlink dp i src entry dropped) = some s') :
    s'.Sound ∧ ∃ v, Logs s s' v (s.load (.unlink dp i src entry dropped)) ∧
      Spread sb v (s.load (.unlink dp i src entry dropped)) := by
  rw [load]
  obtain ⟨types, result⟩ := Option.ite_none_right_eq_some.mp result
  have other : i ≠ dp := by
    rintro rfl
    exact types.2.1 types.1
  obtain ⟨⟨r, s1⟩, found, result⟩ := Option.bind_eq_some_iff.mp result
  obtain ⟨sound1, logs, spread, keeps⟩ := writei_logs (by decide) sound found
  have saved : Saved s1 ((s1.setInode i { s1.inodes i with nlink := 0 }).iupdate i) i False :=
    setInode_saved sound1 i _ False fun n => by simp
  obtain ⟨sound', freed⟩ := iputLast_logs (saved.sound sound1)
    (Option.ite_none_right_eq_some.mp result).2 (s1.value dp)
  have same : ((s1.setInode i { s1.inodes i with nlink := 0 }).iupdate i).truncLoad i =
      s.truncLoad i := by
    refine truncLoad_congr fun c => ?_
    rw [saved.values, if_neg fun both => both.2, keeps i c other]
  rw [same] at freed
  have total := (logs.trans (saved.logs _)).trans freed
  rw [union_inode_trunc] at total
  exact ⟨sound', _, total, spread.union (sound.spread_trunc i _) rfl⟩

theorem execute_logs {t : Transaction sb} (sound : s.Sound) (result : s.execute t = some s') :
    s'.Sound ∧ ∃ v, Logs s s' v (s.load t) ∧ Spread sb v (s.load t) := by
  cases t with
  | filewrite i src off n short =>
    obtain ⟨⟨r, s1⟩, found, rfl⟩ := Option.map_eq_some_iff.mp result
    have limit : writeMax < 2 ^ 32 := by decide
    obtain ⟨sound', logs, spread, _⟩ := writei_logs (by omega) sound found
    exact ⟨sound', _, logs, spread⟩
  | openTrunc i dropped =>
    rw [execute] at result
    rw [load]
    by_cases file : (s.inodes i).type = tFile
    · rw [if_pos file] at result ⊢
      obtain ⟨s1, found, truncated⟩ := itrunc_truncated sound i dropped
      rw [found] at result
      cases result
      exact ⟨truncated.sound sound, fun _ => 0, truncated.logs _, sound.spread_trunc i _⟩
    · rw [if_neg file] at result ⊢
      cases result
      exact ⟨sound, fun _ => 0, .refl s _, .none _⟩
  | openCreate dp i src entry dropped => exact openCreate_logs sound result
  | close i dropped =>
    rw [execute] at result
    rw [load]
    by_cases unlinked : (s.inodes i).nlink = 0
    · rw [if_pos unlinked] at result ⊢
      obtain ⟨sound', logs⟩ := iputLast_logs sound result fun _ => 0
      exact ⟨sound', _, logs, sound.spread_trunc i _⟩
    · rw [if_neg unlinked] at result ⊢
      cases result
      exact ⟨sound, fun _ => 0, .refl s _, .none _⟩
  | unlink dp i src entry dropped => exact unlink_logs sound result

end Loads

end Fs

end KernelLabs.Xv6
