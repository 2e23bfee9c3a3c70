import KernelLabs.Xv6.Log

/-!
# The reservation of log space

`begin_op` reserves `MAXOPBLOCKS` blocks of the log for a transaction.  That is enough exactly for
the transactions whose load is not larger.  A file that grows over the end of a third-level block on
a fragmented disk needs more.
-/

set_option autoImplicit false

namespace KernelLabs.Xv6

open Lib List Option Log

namespace Fs

/-- A transaction stays within its reservation exactly if its load does; and as long as each
transaction does, the log has room for all transactions that `begin_op` admits. -/
theorem log_reservation_iff {sb : Superblock} (s : Fs sb) (sound : s.Sound) (t : Transaction sb)
    (s' : Fs sb) (result : s.begun.execute t = some s') {T : Type} [DecidableEq T] [Fintype T]
    (size : Nat) (acts : List (LogAct T)) (within : RunMeets (step size) Within Log.start acts) :
    (s'.written.toFinset.card ≤ maxopblocks ↔ (s.load t).size ≤ maxopblocks) ∧
      (acts.foldl (step size) Log.start).demand ≤ logsize := by
  have start : s.begun.Sound := ⟨sound.owned, sound.reserved⟩
  obtain ⟨_, v, logs, spread⟩ := execute_logs start result
  refine ⟨?_, demand_le size acts within⟩
  rw [logs.card spread rfl]
  rfl

def copyAll : Copyin := ⟨fun _ _ => 0, fun _ => true⟩

theorem one_lt_ninodes : 1 < smallDisk.ninodes := by decide

def firstWrite : Transaction smallDisk :=
  .filewrite ⟨1, one_lt_ninodes⟩ copyAll 0 bsize bsize_le_writeMax

def oneTransaction : List (LogAct Bool) :=
  [.beginOp true, .logWrite true 3, .beginOp false, .logWrite false 3, .endOp true, .endOp false,
    .commit]

theorem log_reservation_firstWrite : emptyFiles.Sound ∧
    RunMeets (step logsize) Within Log.start oneTransaction ∧
    ∃ s', emptyFiles.begun.execute firstWrite = some s' ∧
      (s'.written.toFinset.card ≤ maxopblocks ↔
        (emptyFiles.load firstWrite).size ≤ maxopblocks) ∧
      (oneTransaction.foldl (step logsize) Log.start).demand ≤ logsize := by
  have within : RunMeets (step logsize) Within Log.start oneTransaction := by decide
  have done : (emptyFiles.begun.execute firstWrite).isSome := by decide +kernel
  obtain ⟨s', result⟩ := isSome_iff_exists.mp done
  exact ⟨emptyFiles_sound, within, s', result, log_reservation_iff emptyFiles emptyFiles_sound
    firstWrite s' result logsize oneTransaction within⟩

/-! ## Files that grow block by block -/

/-- The first block of a file whose path goes through the slot. -/
def firstBlock : Slot → Nat
  | .addr n => if n.val = ndirect + 1 then ndirect + nindirect else n.val
  | .ind j => ndirect + j.val
  | .mid j => ndirect + nindirect + nindirect * j.val
  | .leaf j k => ndirect + nindirect + (nindirect * j.val + k.val)

variable {c : Slot}

theorem firstBlock_le {bn : Nat} (range : bn < maxfile) (member : c ∈ (slotAt bn).path) :
    firstBlock c ≤ bn := by
  rw [slotAt_eq range] at member
  rcases dataSlot_cases ⟨bn, range⟩ with ⟨n, slot, at_, direct⟩ | ⟨j, slot, at_⟩ | ⟨j, k, slot, at_⟩
  all_goals
    simp only [slot, Slot.path, mem_cons, not_mem_nil, or_false] at member at_
  · subst member
    simp only at direct
    rw [firstBlock, if_neg (by omega), at_]
  · rcases member with rfl | rfl
    · rw [Slot.single, firstBlock, if_neg (Nat.ne_of_lt (Nat.lt_succ_self ndirect)), at_]
      exact Nat.le_add_right _ _
    · exact at_.ge
  · rcases member with rfl | rfl | rfl
    · rw [Slot.double, firstBlock, if_pos rfl]
      omega
    · rw [firstBlock]
      omega
    · exact at_.ge

theorem firstBlock_slotAt {k : Nat} (range : k < maxfile) : firstBlock (slotAt k) = k := by
  rw [slotAt_eq range]
  rcases dataSlot_cases ⟨k, range⟩ with ⟨n, slot, at_, direct⟩ | ⟨j, slot, at_⟩ | ⟨j, l, slot, at_⟩
  · simp only at at_ direct
    rw [slot, firstBlock, if_neg (by omega), at_]
  · rw [slot, firstBlock, ← at_]
  · rw [slot, firstBlock, ← at_]

section Growing
variable {sb : Superblock} {s s' : Fs sb} {i : Fin sb.ninodes} {k m : Nat}

def writeBlock (i : Fin sb.ninodes) (k : Nat) : Transaction sb :=
  .filewrite i copyAll (BitVec.ofNat 32 (k * bsize)) bsize bsize_le_writeMax

structure Blocks (s : Fs sb) (i : Fin sb.ninodes) (k : Nat) : Prop where
  type : (s.inodes i).type = tFile
  size : (s.inodes i).size.toNat = k * bsize
  slots : ∀ c, s.value i c ≠ 0 ↔ ∃ bn < k, c ∈ (slotAt bn).path

structure Packed (s : Fs sb) (m : Nat) : Prop where
  sound : s.Sound
  free : s.freeList = range' m (sb.size - m)

structure SameFile (s s' : Fs sb) (i : Fin sb.ninodes) : Prop where
  attrs : (s'.inodes i).attrs = (s.inodes i).attrs
  values : ∀ c, s'.value i c = s.value i c

theorem Blocks.of_same (blocks : Blocks s i k) (same : SameFile s s' i) : Blocks s' i k where
  type := (congrArg Prod.fst same.attrs).trans blocks.type
  size := by
    rw [← blocks.size]
    exact congrArg (fun attrs => attrs.2.2.2.2.toNat) same.attrs
  slots c := by rw [same.values, blocks.slots]

theorem Blocks.empty (blocks : Blocks s i k) (range : k ≤ maxfile) (late : k ≤ firstBlock c) :
    s.value i c = 0 := by
  by_contra has
  obtain ⟨bn, early, member⟩ := (blocks.slots c).mp has
  have first := firstBlock_le (by omega) member
  omega

theorem visits_done (src : Copyin) (fuel k off : Nat) : visits src fuel k off 0 = [] := by
  cases fuel with
  | zero => rfl
  | succ fuel => rw [visits, if_pos rfl]

theorem visits_block (k : Nat) : visits copyAll bsize 0 (k * bsize) bsize = [(k, true)] := by
  have start : k * bsize % bsize = 0 := Nat.mul_mod_left k bsize
  have block : k * bsize / bsize = k := Nat.mul_div_cancel k (by decide)
  show visits copyAll (1023 + 1) 0 (k * bsize) bsize = [(k, true)]
  rw [visits, if_neg (by decide), start, block]
  simp [copyAll, visits_done]

theorem path_length_le (c : Slot) : c.path.length ≤ 3 := by
  cases c <;> simp [Slot.path]

structure Appended (s s' : Fs sb) (i : Fin sb.ninodes) (k m m' : Nat) : Prop where
  fewer : m < m' ∧ m' ≤ m + 3
  packed : Packed s' m'
  blocks : Blocks s' i (k + 1)
  block : m ≤ s'.value i (slotAt k) ∧ s'.value i (slotAt k) < m'
  stays : ∀ c, s.value i c ≠ 0 → s'.value i c = s.value i c
  others : ∀ i', i' ≠ i → SameFile s s' i'

theorem accepts_block (blocks : Blocks s i k) (range : k < maxfile) :
    ¬ s.WriteRejected i (k * bsize) bsize := by
  have limit : maxfile * bsize < 2 ^ 32 := by decide
  have inside : (k + 1) * bsize ≤ maxfile * bsize := Nat.mul_le_mul_right bsize range
  rw [Nat.add_mul, Nat.one_mul] at inside
  rw [WriteRejected, blocks.size, Nat.mod_eq_of_lt (by omega)]
  omega

theorem execute_writeBlock (packed : Packed s m) (blocks : Blocks s i k) (range : k < maxfile)
    (room : m + 3 ≤ sb.size) :
    ∃ s' m', s.execute (writeBlock i k) = some s' ∧ Appended s s' i k m m' := by
  have empty : ∀ c, c ∈ s.emptySlots i (visits copyAll bsize 0 (k * bsize) bsize) ↔
      c ∈ (slotAt k).path ∧ s.value i c = 0 := by
    intro c
    rw [visits_block, mem_emptySlots]
    simp
  have three : (s.emptySlots i (visits copyAll bsize 0 (k * bsize) bsize)).card ≤ 3 := by
    have subset : s.emptySlots i (visits copyAll bsize 0 (k * bsize) bsize) ⊆
        (slotAt k).path.toFinset := fun c member => List.mem_toFinset.mpr ((empty c).mp member).1
    exact (Finset.card_le_card subset).trans ((toFinset_card_le _).trans (path_length_le _))
  rcases writei_cases copyAll (by decide) packed.sound (accepts_block blocks range) with
    ⟨r, s', news, done, found, wrote⟩ | ⟨_, few⟩
  · obtain ⟨last, rest, s1, result, grown, saved, size, type⟩ := wrote.grown
    have member : ∀ c, c ∈ news ↔ c ∈ (slotAt k).path ∧ s.value i c = 0 := by
      intro c
      rw [← empty, ← wrote.empty, List.mem_toFinset]
    rw [← wrote.empty, toFinset_card_of_nodup grown.nodup] at three
    have values : ∀ i' c, s'.value i' c = s1.value i' c := by simpa using saved.values
    have here : slotAt k ∈ news := (member _).mpr
      ⟨mem_path_self _, blocks.empty range.le (firstBlock_slotAt range).ge⟩
    -- the new slots have the first of the free blocks
    have split := grown.taken
    rw [packed.free] at split
    obtain ⟨n, within, front, back⟩ := range'_eq_append_iff.mp split
    have length := congrArg List.length front
    rw [length_map, length_range'] at length
    have some_ : 0 < news.length := length_pos_of_mem here
    have block : s1.value i (slotAt k) ∈ range' m n := front ▸ List.mem_map_of_mem here
    rw [mem_range'_1] at block
    have moved := writeLoop_last copyAll bsize result
    have all := moved.2 (fun _ => rfl) (Nat.le_refl _)
    refine ⟨s', m + n, ?_, ⟨by omega, ⟨wrote.sound, ?_⟩, ⟨?_, ?_, fun c => ?_⟩, ?_, fun c has => ?_,
      fun i' other => ⟨?_, fun c => ?_⟩⟩⟩
    · have limit : maxfile * bsize < 2 ^ 32 := by decide
      have inside := Nat.mul_le_mul_right bsize (Nat.le_of_lt range)
      have off : (BitVec.ofNat 32 (k * bsize)).toNat = k * bsize := by
        rw [BitVec.toNat_ofNat, Nat.mod_eq_of_lt (by omega)]
      show (s.writei i copyAll (BitVec.ofNat 32 (k * bsize)).toNat bsize).map Prod.snd = some s'
      rw [off, found]
      rfl
    · rw [freeList_of_bits saved.bits, back, Nat.sub_sub, Nat.mul_one]
    · exact (type.trans (congrArg Prod.fst (grown.attrs i))).trans blocks.type
    · rw [size, blocks.size, Nat.add_mul]
      omega
    · rw [values]
      constructor
      · intro has
        by_cases new : c ∈ news
        · exact ⟨k, by omega, ((member c).mp new).1⟩
        · rw [grown.keeps i c (.inr new), blocks.slots] at has
          obtain ⟨bn, early, through⟩ := has
          exact ⟨bn, by omega, through⟩
      rintro ⟨bn, early, through⟩
      by_cases old : s.value i c = 0
      · have late : ¬ bn < k := fun less => (blocks.slots c).mpr ⟨bn, less, through⟩ old
        obtain rfl : bn = k := by omega
        exact grown.filled packed.sound ((member c).mpr ⟨through, old⟩)
      · rw [grown.stays old]
        exact old
    · rw [values]
      exact block
    · rw [values, grown.stays has]
    · rw [saved.others i' other, grown.attrs]
    · rw [values, grown.keeps i' c (.inl other)]
  · rw [packed.free, length_range'] at few
    omega

theorem execute_writeBlocks (n : Nat) : ∀ {s : Fs sb} {k m : Nat}, Packed s m → Blocks s i k →
    k + n ≤ maxfile → m + 3 * n ≤ sb.size →
    ∃ s' m', ((range' k n).map (writeBlock i)).foldlM execute s = some s' ∧
      (m + n ≤ m' ∧ m' ≤ m + 3 * n) ∧ Packed s' m' ∧ Blocks s' i (k + n) ∧
      ∀ i', i' ≠ i → SameFile s s' i' := by
  induction n with
  | zero =>
    intro s k m packed blocks _ _
    exact ⟨s, m, rfl, ⟨Nat.le_refl m, Nat.le_refl m⟩, packed, blocks,
      fun _ _ => ⟨rfl, fun _ => rfl⟩⟩
  | succ n ih =>
    intro s k m packed blocks range room
    obtain ⟨s1, m1, result1, appended⟩ := execute_writeBlock packed blocks (by omega) (by omega)
    have fewer := appended.fewer
    obtain ⟨s', m', result, moved, packed', blocks', others⟩ :=
      ih appended.packed appended.blocks (by omega) (by omega)
    refine ⟨s', m', ?_, ⟨by omega, by omega⟩, packed', ?_, fun i' other => ?_⟩
    · rw [range'_succ, map_cons, foldlM_cons, result1]
      exact result
    · rwa [Nat.add_right_comm, Nat.add_assoc] at blocks'
    · have first := appended.others i' other
      have later := others i' other
      exact ⟨later.attrs.trans first.attrs, fun c => (later.values c).trans (first.values c)⟩

theorem freeList_eq {l : List Nat} (sorted : l.Pairwise (· < ·))
    (member : ∀ x, x ∈ l ↔ x < sb.size ∧ s.bit x = false) : s.freeList = l := by
  have sorted' : s.freeList.Pairwise (· < ·) := pairwise_lt_range.filter _
  refine List.Perm.eq_of_pairwise' sorted' sorted
    ((perm_ext_iff_of_nodup sorted'.nodup sorted.nodup).mpr fun x => ?_)
  rw [mem_freeList, member]

end Growing

/-! ## A fragmented disk -/

def labDisk : Superblock := ⟨200000, 200, 32, 45, by decide, by decide, by decide⟩

def labImage : Fs labDisk where
  disk b k := if b = 45 then if k < 2 then BitVec.allOnes 32 else if k = 2 then 127 else 0 else 0
  inodes i :=
    if i.val = 1 then ⟨tDir, 0, 0, 1, 1024, fun n => if n = 0 then 70 else 0⟩
    else if i.val = 2 ∨ i.val = 3 then ⟨tFile, 0, 0, 1, 0, fun _ => 0⟩
    else ⟨0, 0, 0, 0, 0, fun _ => 0⟩
  written := []
  freed := []

theorem labImage_bit (b : Nat) : labImage.bit b = decide (b < 71) := by
  have third : ∀ j, j < 32 → (127#32).getLsbD j = decide (j < 7) := by decide
  have group : (b / bpb + 45 = 45) ↔ b < 8192 := by
    simp only [bpb, bsize]
    omega
  show ((if b / bpb + 45 = 45 then if b % bpb / 32 < 2 then BitVec.allOnes 32
    else if b % bpb / 32 = 2 then 127 else 0 else 0 : Word)).getLsbD (b % bpb % 32) =
      decide (b < 71)
  by_cases first : b < 8192
  · have inside : b % bpb = b := Nat.mod_eq_of_lt first
    rw [if_pos (group.mpr first), inside]
    by_cases early : b / 32 < 2
    · rw [if_pos early, BitVec.getLsbD_allOnes]
      simp [Nat.mod_lt, show b < 71 by omega]
    rw [if_neg early]
    by_cases middle : b / 32 = 2
    · rw [if_pos middle]
      refine (third (b % 32) (Nat.mod_lt b (by decide))).trans (decide_eq_decide.mpr ?_)
      omega
    · rw [if_neg middle]
      simp [show ¬ b < 71 by omega]
  · rw [if_neg fun here => first (group.mp here)]
    simp [show ¬ b < 71 by omega]

theorem labImage_addrs (i : Fin labDisk.ninodes) (n : Nat) :
    (labImage.inodes i).addrs n = if i.val = 1 ∧ n = 0 then 70 else 0 := by
  simp only [labImage]
  by_cases root : i.val = 1
  · simp [root]
  · by_cases file : i.val = 2 ∨ i.val = 3 <;> simp [root, file]

theorem labImage_value {i : Fin labDisk.ninodes} (has : labImage.value i c ≠ 0) :
    i.val = 1 ∧ c = .addr ⟨0, by decide⟩ := by
  have none : ∀ n j, n ≠ 0 → labImage.child ((labImage.inodes i).addrs n).toNat j = 0 := by
    intro n j other
    rw [labImage_addrs, if_neg fun both => other both.2]
    rfl
  cases c with
  | addr n =>
    rw [value, labImage_addrs] at has
    have here : i.val = 1 ∧ n.val = 0 := by
      by_contra other
      rw [if_neg other] at has
      exact has rfl
    exact ⟨here.1, congrArg Slot.addr (Fin.ext here.2)⟩
  | ind | mid => exact absurd (none _ _ (by decide)) has
  | leaf j k =>
    rw [value, none (ndirect + 1) j (by decide)] at has
    exact absurd rfl has

theorem labImage_sound : labImage.Sound where
  owned := by
    refine ⟨fun o o' has same => ?_, fun o has => ?_⟩
    · have root := labImage_value has
      have root' := labImage_value (same ▸ has)
      exact Prod.ext (Fin.ext (root.1.trans root'.1.symm)) (root.2.trans root'.2.symm)
    · obtain ⟨root, slot⟩ := labImage_value has
      have seventy : labImage.value o.1 o.2 = 70 := by
        rw [slot, value, labImage_addrs, if_pos ⟨root, rfl⟩]
        rfl
      rw [seventy]
      exact ⟨by decide, by decide, labImage_bit 70⟩
  reserved b early := by
    have limit : labDisk.dataStart = 70 := by decide
    rw [labImage_bit, decide_eq_true_eq]
    omega

theorem labImage_packed : Packed labImage 71 := by
  refine ⟨labImage_sound, freeList_eq pairwise_lt_range' fun x => ?_⟩
  have size : labDisk.size = 200000 := rfl
  rw [mem_range'_1, labImage_bit, decide_eq_false_iff_not]
  omega

def scattered : Fin labDisk.ninodes := ⟨2, by decide⟩

def large : Fin labDisk.ninodes := ⟨3, by decide⟩

theorem labImage_blocks {i : Fin labDisk.ninodes} (file : i.val = 2 ∨ i.val = 3) :
    Blocks labImage i 0 := by
  have other : i.val ≠ 1 := by omega
  refine ⟨by simp [labImage, other, file], by simp [labImage, other, file], fun c => ?_⟩
  simp only [Nat.not_lt_zero, false_and, exists_false, iff_false, not_not]
  by_contra has
  exact other (labImage_value has).1

/-- Two blocks of one file with 8192 blocks of the other between them and more behind, so that they
are in three groups of the bitmap; then the first file is truncated. -/
def fragmenting : List (Transaction labDisk) :=
  writeBlock scattered 0 :: ((range' 0 8192).map (writeBlock large) ++
    writeBlock scattered 1 :: ((range' 8192 8202).map (writeBlock large) ++
      [.openTrunc scattered false]))

def unalignedWrite : Transaction labDisk :=
  .filewrite large copyAll (BitVec.ofNat 32 (16393 * bsize + 512)) writeMax (Nat.le_refl writeMax)

theorem mem_blocksOf_two {s : Fs labDisk} {i : Fin labDisk.ninodes} (blocks : Blocks s i 2)
    (b : Nat) : b ∈ s.blocksOf i ↔ b = s.value i (slotAt 0) ∨ b = s.value i (slotAt 1) := by
  have only : ∀ bn < 2, (slotAt bn).path = [slotAt bn] := by decide
  have has : ∀ bn < 2, s.value i (slotAt bn) ≠ 0 := fun bn two =>
    (blocks.slots _).mpr ⟨bn, two, mem_path_self _⟩
  rw [mem_blocksOf]
  constructor
  · rintro ⟨pos, c, rfl⟩
    obtain ⟨bn, two, through⟩ := (blocks.slots c).mp pos
    rw [only bn two, mem_singleton] at through
    rw [through]
    rcases (by omega : bn = 0 ∨ bn = 1) with rfl | rfl
    · exact .inl rfl
    · exact .inr rfl
  · rintro (rfl | rfl)
    · exact ⟨has 0 (by decide), _, rfl⟩
    · exact ⟨has 1 (by decide), _, rfl⟩

structure Fragmented (s : Fs labDisk) (a b m : Nat) : Prop where
  sound : s.Sound
  blocks : Blocks s large 16394
  free : s.freeList = a :: b :: range' m (labDisk.size - m)
  groups : a / bpb < b / bpb ∧ b / bpb < m / bpb
  room : m + 2 ≤ labDisk.size

theorem freeList_of_holes {s s' : Fs labDisk} {a b m : Nat} (packed : Packed s m)
    (inside : m ≤ labDisk.size) (order : a < b ∧ b < m)
    (bits : ∀ x, x < labDisk.size → s'.bit x = (s.bit x && decide (¬ (x = a ∨ x = b)))) :
    s'.freeList = a :: b :: range' m (labDisk.size - m) := by
  refine freeList_eq ?_ fun x => ?_
  · refine pairwise_cons.mpr ⟨fun x member => ?_, pairwise_cons.mpr
      ⟨fun x member => ?_, pairwise_lt_range'⟩⟩
    all_goals
      simp only [mem_cons, mem_range'_1] at member
      omega
  have free := mem_freeList (s := s) (b := x)
  rw [packed.free, mem_range'_1] at free
  rw [mem_cons, mem_cons, mem_range'_1]
  by_cases onDisk : x < labDisk.size
  · simp only [onDisk, true_and] at free ⊢
    rw [bits x onDisk, Bool.and_eq_false_iff, decide_eq_false_iff_not, ← free]
    omega
  · simp only [onDisk, false_and, iff_false]
    omega

theorem fragmenting_run : ∃ s a b m, fragmenting.foldlM execute labImage = some s ∧
    Fragmented s a b m := by
  have size : labDisk.size = 200000 := rfl
  obtain ⟨s1, m1, result1, step1⟩ := execute_writeBlock labImage_packed
    (labImage_blocks (i := scattered) (.inl rfl)) (by decide) (by decide)
  have fewer1 := step1.fewer
  have large1 : Blocks s1 large 0 :=
    (labImage_blocks (i := large) (.inr rfl)).of_same (step1.others large (by decide))
  obtain ⟨s2, m2, result2, fewer2, packed2, large2, others2⟩ :=
    execute_writeBlocks 8192 step1.packed large1 (by decide) (by omega)
  have same2 := others2 scattered (by decide)
  obtain ⟨s3, m3, result3, step3⟩ := execute_writeBlock packed2 (step1.blocks.of_same same2)
    (by decide) (by omega)
  have fewer3 := step3.fewer
  obtain ⟨s4, m4, result4, fewer4, packed4, large4, others4⟩ := execute_writeBlocks 8202
    step3.packed (large2.of_same (step3.others large (by decide))) (by decide) (by omega)
  have same4 := others4 scattered (by decide)
  have two : Blocks s4 scattered 2 := step3.blocks.of_same same4
  -- where the two blocks of the first file are
  have first := step1.block
  have second := step3.block
  rw [← same2.values] at first
  have kept : s3.value scattered (slotAt 0) = s2.value scattered (slotAt 0) :=
    step3.stays _ (by omega)
  rw [← kept, ← same4.values] at first
  rw [← same4.values, Nat.zero_add] at second
  obtain ⟨s5, result5, truncated⟩ := itrunc_truncated packed4.sound scattered false
  refine ⟨s5, s4.value scattered (slotAt 0), s4.value scattered (slotAt 1), m4, ?_,
    truncated.sound packed4.sound, ?_, ?_, ?_, by omega⟩
  · have last : s4.execute (.openTrunc scattered false) = some s5 := by
      rw [execute, if_pos two.type, result5]
    rw [fragmenting, foldlM_cons, result1, bind_eq_bind, bind_some,
      foldlM_append, result2, bind_eq_bind, bind_some, foldlM_cons, result3,
      bind_eq_bind, bind_some, foldlM_append, result4, bind_eq_bind,
      bind_some, foldlM_cons, last]
    rfl
  · refine large4.of_same ⟨?_, fun c => ?_⟩
    · rw [truncated.others large (by decide)]
    · rw [truncated.value packed4.sound, if_neg (by decide)]
  · refine freeList_of_holes packed4 (by omega) ⟨by omega, by omega⟩ fun x onDisk => ?_
    rw [truncated.bits x onDisk]
    simp only [mem_blocksOf_two two]
  · rw [show bpb = 8192 from rfl]
    omega

/-- The write covers the second half of block 16393, of which the file has the slot, and three more
blocks, of which the last two are below a new block of the second level. -/
def unalignedVisits : List (Nat × Bool) :=
  [(16393, true), (16394, true), (16395, true), (16396, true)]

theorem visits_unalignedWrite :
    visits copyAll writeMax 0 (16393 * bsize + 512) writeMax = unalignedVisits := by
  decide +kernel

theorem accepts_unalignedWrite {s : Fs labDisk} (blocks : Blocks s large 16394) :
    ¬ s.WriteRejected large (16393 * bsize + 512) writeMax := by
  rw [WriteRejected, blocks.size]
  decide

theorem emptySlots_unalignedWrite {s : Fs labDisk} (blocks : Blocks s large 16394) :
    s.emptySlots large (visits copyAll writeMax 0 (16393 * bsize + 512) writeMax) =
      (pathSlots unalignedVisits).filter fun c => 16394 ≤ firstBlock c := by
  have old : ∀ c ∈ pathSlots unalignedVisits, firstBlock c < 16394 → c ∈ (slotAt 16393).path := by
    decide +kernel
  rw [visits_unalignedWrite]
  refine Finset.filter_congr fun c member => ⟨fun none => ?_, blocks.empty (by decide)⟩
  by_contra early
  exact (blocks.slots c).mpr ⟨16393, by decide, old c member (by omega)⟩ none

theorem emptySlots_card :
    ((pathSlots unalignedVisits).filter fun c => 16394 ≤ firstBlock c).card = 4 := by
  decide +kernel

theorem unalignedWrite_load {s : Fs labDisk} {a b m : Nat} (fragmented : Fragmented s a b m) :
    maxopblocks < (s.load unalignedWrite).size := by
  have off : (BitVec.ofNat 32 (16393 * bsize + 512)).toNat = 16393 * bsize + 512 := by decide
  have seven : (copiedSlots unalignedVisits ∪
      ((pathSlots unalignedVisits).filter (fun c => 16394 ≤ firstBlock c) ∪
      ((pathSlots unalignedVisits).filter
        (fun c => 16394 ≤ firstBlock c)).biUnion above)).card = 7 := by decide +kernel
  have three : 2 < ((s.freeList.take 4).map (· / bpb)).toFinset.card := by
    obtain ⟨n, rest⟩ : ∃ n, labDisk.size - m = n + 1 :=
      ⟨labDisk.size - m - 1, by have room := fragmented.room; omega⟩
    have groups := fragmented.groups
    rw [fragmented.free, rest, range'_succ, Finset.two_lt_card]
    exact ⟨a / bpb, by simp, b / bpb, by simp, m / bpb, by simp, by omega, by omega, by omega⟩
  show 10 < (s.writeLoad large copyAll (BitVec.ofNat 32 (16393 * bsize + 512)).toNat writeMax).size
  rw [off, writeLoad, if_neg (accepts_unalignedWrite fragmented.blocks), Load.size]
  simp only [emptySlots_unalignedWrite fragmented.blocks]
  rw [visits_unalignedWrite, emptySlots_card, seven, Finset.card_singleton]
  omega

/-- On the fragmented disk an iteration of `filewrite` logs more than `MAXOPBLOCKS` blocks. -/
theorem filewrite_exceeds_reservation : ∃ s s', fragmenting.foldlM execute labImage = some s ∧
    s.begun.execute unalignedWrite = some s' ∧ maxopblocks < s'.written.toFinset.card := by
  obtain ⟨s, a, b, m, run, fragmented⟩ := fragmenting_run
  have begun : Fragmented s.begun a b m :=
    ⟨⟨fragmented.sound.owned, fragmented.sound.reserved⟩,
      ⟨fragmented.blocks.type, fragmented.blocks.size, fragmented.blocks.slots⟩, fragmented.free, fragmented.groups,
      fragmented.room⟩
  have result : ∃ s', s.begun.execute unalignedWrite = some s' := by
    have off : (BitVec.ofNat 32 (16393 * bsize + 512)).toNat = 16393 * bsize + 512 := by decide
    rcases writei_cases copyAll (by decide) begun.sound (accepts_unalignedWrite begun.blocks) with
      ⟨r, s', _, _, found, _⟩ | ⟨_, few⟩
    · refine ⟨s', ?_⟩
      show (s.begun.writei large copyAll (BitVec.ofNat 32 (16393 * bsize + 512)).toNat writeMax).map
        Prod.snd = some s'
      rw [off, found]
      rfl
    · have room := begun.room
      rw [emptySlots_unalignedWrite begun.blocks, emptySlots_card, begun.free] at few
      simp only [length_cons, length_range'] at few
      omega
  obtain ⟨s', result⟩ := result
  obtain ⟨_, v, logs, spread⟩ := execute_logs begun.sound result
  refine ⟨s, s', run, result, ?_⟩
  rw [logs.card spread rfl]
  exact unalignedWrite_load begun

end Fs

end KernelLabs.Xv6
