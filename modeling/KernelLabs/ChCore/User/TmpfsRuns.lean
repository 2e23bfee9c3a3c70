import KernelLabs.Lib.Runs
import KernelLabs.Lib.Contents
import KernelLabs.ChCore.User.Tmpfs

/-!
# A tmpfs file is an array of bytes

`Refines` ties an inode to the array it stands for: the sizes agree, and every byte of
every page is the byte of the array, with 0 in a hole and beyond the end.  Zeros beyond the
end are what makes growing a file cheap, and they are lost in two ways: a page that
`tfs_file_write` allocates keeps the old contents of the memory outside of what is written,
except in the tail of a write that extends the file; and the loop of `tfs_truncate` that
deletes pages can step over the last one.  In a run without such a step every read gives
the bytes of the array.
-/

set_option autoImplicit false

namespace KernelLabs.ChCore

open Lib Function List Option

/-! ## Bytes and pages -/

def byteAt (data : FileData) (i : Nat) : UInt8 :=
  match data (i / tfsPageSize) with
  | none => 0
  | some page => page (i % tfsPageSize)

variable {data mem : FileData} {bytes : List UInt8} {i offset curOff : Nat} {page : FilePage}
  {w : Written}

theorem byteAt_none (hole : data (i / tfsPageSize) = none) : byteAt data i = 0 := by
  simp only [byteAt, hole]

theorem byteAt_some (present : data (i / tfsPageSize) = some page) :
    byteAt data i = page (i % tfsPageSize) := by
  simp only [byteAt, present]

theorem byteAt_congr {data' : FileData} (same : data' (i / tfsPageSize) = data (i / tfsPageSize)) :
    byteAt data' i = byteAt data i := by
  simp only [byteAt, same]

theorem byteAt_update_of_ne {k : Nat} (page : Option FilePage) (other : i / tfsPageSize ≠ k) :
    byteAt (update data k page) i = byteAt data i :=
  byteAt_congr (update_of_ne other page data)

theorem byteAt_update_self {k : Nat} (page : FilePage) (here : i / tfsPageSize = k) :
    byteAt (update data k (some page)) i = page (i % tfsPageSize) := by
  apply byteAt_some
  rw [here, update_self]

theorem offset_in_page (curOff j : Nat) (room : j < tfsPageSize - curOff % tfsPageSize) :
    (curOff + j) / tfsPageSize = curOff / tfsPageSize ∧
      (curOff + j) % tfsPageSize = curOff % tfsPageSize + j := by
  simp only [tfsPageSize] at *
  omega

theorem offset_of_page (here : i / tfsPageSize = curOff / tfsPageSize) :
    i + curOff % tfsPageSize = curOff + i % tfsPageSize := by
  simp only [tfsPageSize] at *
  omega

/-! ## Reading -/

theorem readChunk_eq (data : FileData) {toRead : Nat}
    (room : toRead ≤ tfsPageSize - curOff % tfsPageSize) :
    readChunk data curOff toRead = (range toRead).map fun j => byteAt data (curOff + j) := by
  unfold readChunk
  cases present : data (curOff / tfsPageSize) with
  | none =>
    have zeros : ∀ j ∈ range toRead, byteAt data (curOff + j) = 0 := by
      intro j member
      rw [mem_range] at member
      apply byteAt_none
      rw [(offset_in_page curOff j (by omega)).1, present]
    rw [map_congr_left zeros, map_const', length_range]
  | some page =>
    apply map_congr_left
    intro j member
    rw [mem_range] at member
    have offset := offset_in_page curOff j (by omega)
    rw [← offset.1] at present
    rw [byteAt_some present, offset.2]

theorem readLoop_spec (data : FileData) (isize : Nat) (fuel : Nat) :
    ∀ curOff size : Nat, size ≤ fuel → curOff + size ≤ isize →
      readLoop data isize fuel curOff size =
        ((range size).map fun j => byteAt data (curOff + j), curOff + size) := by
  induction fuel with
  | zero =>
    intro curOff size enough _
    obtain rfl : size = 0 := by omega
    rfl
  | succ fuel ih =>
    intro curOff size enough inside
    rcases Nat.eq_zero_or_pos size with rfl | some_left
    · simp [readLoop]
    have positive : 0 < tfsPageSize - curOff % tfsPageSize := by
      simp only [tfsPageSize]
      omega
    generalize width : min size (tfsPageSize - curOff % tfsPageSize) = toRead
    have split : range size = range toRead ++ (range (size - toRead)).map (toRead + ·) := by
      rw [← range_add]
      congr 1
      omega
    have started : 0 < size ∧ curOff ≤ isize := by omega
    simp only [readLoop, if_pos started, width]
    rw [ih (curOff + toRead) (size - toRead) (by omega) (by omega),
      readChunk_eq data (by omega), split, map_append, List.map_map]
    congr 1
    · congr 1
      apply map_congr_left
      intro j _
      rw [Function.comp_apply, Nat.add_assoc]
    · omega

structure Refines (inode : Inode) (file : List UInt8) : Prop where
  sizes : inode.size = file.length
  bytes : ∀ i, byteAt inode.data i = file.getD i 0

theorem Refines.beyond {inode : Inode} {file : List UInt8} (refines : Refines inode file)
    (outside : inode.size ≤ i) : byteAt inode.data i = 0 := by
  rw [refines.bytes]
  apply getD_eq_default
  rw [← refines.sizes]
  exact outside

theorem newReg_refines : Refines newReg [] :=
  ⟨rfl, fun _ => rfl⟩

theorem tfsFileRead_spec {inode : Inode} {file : List UInt8} (refines : Refines inode file)
    (offset size : Nat) : tfsFileRead inode offset size =
      ((file.drop offset).take size, min size (inode.size - offset)) := by
  have sizes := refines.sizes
  unfold tfsFileRead
  rcases Nat.lt_or_ge offset inode.size with inside | beyond
  · have part : (file.drop offset).take size =
        (file.drop offset).take (min (inode.size - offset) size) := by
      rw [take_eq_take_iff, length_drop]
      omega
    have spec := readLoop_spec inode.data inode.size (min (inode.size - offset) size) offset _
      le_rfl (by omega)
    rw [if_neg (by omega), part, take_drop_eq_map_getD _ (by omega)]
    simp only [spec, refines.bytes]
    congr 1
    omega
  · rw [if_pos beyond, drop_eq_nil_of_le (by omega), take_nil]
    congr 1
    omega

/-! ## Writing -/

def Touches (offset n k : Nat) : Prop :=
  ∃ i, offset ≤ i ∧ i < offset + n ∧ i / tfsPageSize = k

/-- What the loop of `tfs_file_write` leaves behind.  A byte outside of what is written
changes only in a page that had to be allocated. -/
structure WriteDone (data : FileData) (offset : Nat) (bytes : List UInt8) (w : Written) :
    Prop where
  complete : w.complete = true
  curOff : w.curOff = offset + bytes.length
  written : ∀ i, offset ≤ i → i < offset + bytes.length →
    byteAt w.data i = bytes.getD (i - offset) 0
  kept : ∀ i, ¬ (offset ≤ i ∧ i < offset + bytes.length) → byteAt w.data i = byteAt data i ∨
    (data (i / tfsPageSize) = none ∧ Touches offset bytes.length (i / tfsPageSize))

theorem getD_drop (bytes : List UInt8) (n i : Nat) :
    (bytes.drop n).getD i 0 = bytes.getD (n + i) 0 := by
  simp only [getD_eq_getElem?_getD, getElem?_drop]

theorem getD_take {n : Nat} (below : i < n) : (bytes.take n).getD i 0 = bytes.getD i 0 := by
  simp only [getD_eq_getElem?_getD, getElem?_take, if_pos below]

/-- One round of the loop: `page` is the page of `curOff`, which gets the first `n` of the
bytes, and `w` is what the later rounds leave. -/
theorem writeDone_round {n : Nat} {mem : Option FilePage}
    (pageIs : (data (curOff / tfsPageSize)).or mem = some page) (positive : 0 < n)
    (short : n ≤ bytes.length) (room : n ≤ tfsPageSize - curOff % tfsPageSize) (later : WriteDone
      (update data (curOff / tfsPageSize)
        (some (copyToPage page (curOff % tfsPageSize) (bytes.take n))))
      (curOff + n) (bytes.drop n) w) : WriteDone data curOff bytes w := by
  have width : (bytes.take n).length = n := by rw [length_take]; omega
  have left : (bytes.drop n).length = bytes.length - n := length_drop
  have here : Touches curOff bytes.length (curOff / tfsPageSize) :=
    ⟨curOff, by omega, by omega, rfl⟩
  constructor
  · exact later.complete
  · rw [later.curOff, left]
    omega
  · intro i above below
    rcases Nat.lt_or_ge i (curOff + n) with first | rest
    · have offset := offset_in_page curOff (i - curOff) (by omega)
      rw [Nat.add_sub_cancel' above] at offset
      rcases later.kept i (by omega) with kept | missing
      · rw [kept, byteAt_update_self _ offset.1]
        simp only [copyToPage, width]
        rw [if_pos (by omega), offset.2, Nat.add_sub_cancel_left, getD_take (by omega)]
      · rw [offset.1, update_self] at missing
        exact absurd missing.1 (some_ne_none _)
    · rw [later.written i rest (by omega), getD_drop]
      congr 1
      omega
  · intro i outside
    rcases later.kept i (by omega) with kept | missing
    · rw [kept]
      by_cases samePage : i / tfsPageSize = curOff / tfsPageSize
      · have offset := offset_of_page samePage
        rw [byteAt_update_self _ samePage]
        simp only [copyToPage, width]
        rw [if_neg (by omega)]
        cases present : data (curOff / tfsPageSize) with
        | none =>
          right
          rw [samePage]
          exact ⟨present, here⟩
        | some old =>
          left
          rw [present, some_or, Option.some.injEq] at pageIs
          rw [← samePage] at present
          rw [byteAt_some present, pageIs]
      · left
        exact byteAt_update_of_ne _ samePage
    · right
      obtain ⟨hole, j, above, below, touched⟩ := missing
      by_cases samePage : i / tfsPageSize = curOff / tfsPageSize
      · rw [samePage, update_self] at hole
        exact absurd hole (some_ne_none _)
      · rw [update_of_ne samePage] at hole
        exact ⟨hole, j, by omega, by omega, touched⟩

theorem writeLoop_spec (mem : FileData) (fuel : Nat) :
    ∀ (data : FileData) (curOff : Nat) (bytes : List UInt8), bytes.length ≤ fuel →
      (∀ k, Touches curOff bytes.length k → data k = none → mem k ≠ none) →
      WriteDone data curOff bytes (writeLoop mem fuel data curOff bytes) := by
  have nothing : ∀ (data : FileData) (curOff : Nat),
      WriteDone data curOff [] ⟨data, curOff, true⟩ := by
    intro data curOff
    exact ⟨rfl, rfl, fun i above below => absurd below (by simpa using above), fun i _ => .inl rfl⟩
  induction fuel with
  | zero =>
    intro data curOff bytes enough _
    obtain rfl : bytes = [] := length_eq_zero_iff.mp (by omega)
    exact nothing data curOff
  | succ fuel ih =>
    intro data curOff bytes enough memory
    cases empty : bytes.isEmpty with
    | true =>
      rw [List.isEmpty_iff] at empty
      subst bytes
      exact nothing data curOff
    | false =>
      have some_left : 0 < bytes.length := length_pos_iff.mpr (by simpa using empty)
      have here : Touches curOff bytes.length (curOff / tfsPageSize) :=
        ⟨curOff, by omega, by omega, rfl⟩
      have room : 0 < tfsPageSize - curOff % tfsPageSize := by
        simp only [tfsPageSize]
        omega
      simp only [writeLoop, empty, Bool.false_eq_true, if_false]
      generalize width : min bytes.length (tfsPageSize - curOff % tfsPageSize) = n
      have positive : 0 < n := by omega
      have short : n ≤ bytes.length := by omega
      rcases found : (data (curOff / tfsPageSize)).or (mem (curOff / tfsPageSize)) with _ | page
      · rw [or_eq_none_iff] at found
        exact absurd found.2 (memory _ here found.1)
      apply writeDone_round found positive short (by omega)
      apply ih
      · rw [length_drop]
        omega
      intro k touched hole
      obtain ⟨i, above, below, rfl⟩ := touched
      rw [length_drop] at below
      apply memory _ ⟨i, by omega, by omega, rfl⟩
      by_cases samePage : i / tfsPageSize = curOff / tfsPageSize
      · rw [samePage, update_self] at hole
        exact absurd hole (some_ne_none _)
      · rw [← update_of_ne samePage _ data]
        exact hole

theorem byteAt_zeroTail (data : FileData) (curOff i : Nat) : byteAt (zeroTail data curOff) i =
      if curOff % tfsPageSize ≠ 0 ∧ curOff ≤ i ∧ i / tfsPageSize = curOff / tfsPageSize then 0
      else byteAt data i := by
  unfold zeroTail
  by_cases aligned : curOff % tfsPageSize = 0
  · rw [if_neg (by simpa using aligned), if_neg (by simp [aligned])]
  rw [if_pos aligned]
  by_cases samePage : i / tfsPageSize = curOff / tfsPageSize
  · have offset := offset_of_page samePage
    have small : i % tfsPageSize < tfsPageSize := Nat.mod_lt _ (by decide)
    cases present : data (curOff / tfsPageSize) with
    | none =>
      rw [map_none, byteAt_none (by rw [samePage, update_self])]
      rw [← samePage] at present
      rw [byteAt_none present, ite_self]
    | some page =>
      rw [map_some, byteAt_update_self _ samePage]
      rw [← samePage] at present
      rw [byteAt_some present]
      simp only [zeroOut]
      split <;> split <;> first | rfl | omega
  · rw [byteAt_update_of_ne _ samePage, if_neg (fun both => samePage both.2.2)]

/-- Every page that a write has to allocate is allocated, starts within the write, and ends
within it too unless the write extends the file. -/
def WriteCovers (inode : Inode) (offset n : Nat) (mem : FileData) : Prop :=
  ∀ k, Touches offset n k → inode.data k = none → mem k ≠ none ∧ offset ≤ k * tfsPageSize ∧
    ((k + 1) * tfsPageSize ≤ offset + n ∨ inode.size < offset + n)

section
variable {inode : Inode} {file : List UInt8} (refines : Refines inode file)
include refines

theorem refines_overwrite {size : Nat} (inside : offset ≤ file.length)
    (sized : size = max file.length (offset + bytes.length))
    (written : ∀ i, offset ≤ i → i < offset + bytes.length →
      byteAt data i = bytes.getD (i - offset) 0)
    (kept : ∀ i, ¬ (offset ≤ i ∧ i < offset + bytes.length) → byteAt data i = byteAt inode.data i) :
    Refines { size := size, data := data } (overwrite file offset bytes) := by
  constructor
  · rw [length_overwrite _ _ _ inside]
    exact sized
  intro i
  rw [getD_overwrite _ _ inside]
  split
  · rename_i within
    exact written i within.1 within.2
  · rename_i outside
    rw [kept i outside, refines.bytes]

/-- The inode after the last `memset`: what is left of an allocated page lies in the zeroed
tail. -/
theorem zeroTail_kept (covers : WriteCovers inode offset bytes.length mem)
    (spec : WriteDone inode.data offset bytes w) (grows : inode.size < offset + bytes.length)
    (outside : ¬ (offset ≤ i ∧ i < offset + bytes.length)) :
    byteAt (zeroTail w.data (offset + bytes.length)) i = byteAt inode.data i := by
  rw [byteAt_zeroTail]
  split
  · rename_i zeroed
    rw [refines.beyond (by omega)]
  rename_i nonzero
  rcases spec.kept i outside with kept | missing
  · exact kept
  · obtain ⟨hole, j, above, below, samePage⟩ := missing
    have start := (covers _ ⟨j, above, below, samePage⟩ hole).2.1
    simp only [tfsPageSize] at *
    omega

theorem tfsFileWrite_refines (inside : offset ≤ inode.size)
    (covers : WriteCovers inode offset bytes.length mem) :
    ∃ inode', tfsFileWrite inode offset bytes mem = some (inode', bytes.length) ∧
      Refines inode' (overwrite file offset bytes) := by
  have sizes := refines.sizes
  have spec := writeLoop_spec mem bytes.length inode.data offset bytes le_rfl
    (fun k touched hole => (covers k touched hole).1)
  unfold tfsFileWrite
  rw [if_neg (by omega)]
  generalize writeLoop mem bytes.length inode.data offset bytes = w at spec ⊢
  simp only [spec.complete, spec.curOff, Bool.true_eq_false, if_false, Nat.add_sub_cancel_left]
  rcases Nat.lt_or_ge inode.size (offset + bytes.length) with grows | stays
  · rw [if_pos grows]
    apply Exists.intro
    apply And.intro rfl
    apply refines_overwrite refines (by omega) (by omega)
    · intro i above below
      rw [byteAt_zeroTail, if_neg (by omega)]
      exact spec.written i above below
    · intro i outside
      exact zeroTail_kept refines covers spec grows outside
  · rw [if_neg (by omega)]
    apply Exists.intro
    apply And.intro rfl
    apply refines_overwrite refines (by omega) (by omega) spec.written
    intro i outside
    rcases spec.kept i outside with kept | missing
    · exact kept
    · -- a page that is allocated without growing the file is written as a whole
      obtain ⟨hole, j, above, below, samePage⟩ := missing
      have page := (covers _ ⟨j, above, below, samePage⟩ hole).2
      simp only [tfsPageSize] at *
      omega

end

/-! ## Truncating -/

def Deletes (isize curOff k : Nat) : Prop :=
  curOff / tfsPageSize ≤ k ∧ k * tfsPageSize + curOff % tfsPageSize < isize

instance (isize curOff k : Nat) : Decidable (Deletes isize curOff k) :=
  inferInstanceAs (Decidable (_ ∧ _))

theorem deleteLoop_spec (isize : Nat) (fuel : Nat) :
    ∀ (data : FileData) (curOff : Nat), isize - curOff ≤ fuel → ∀ k,
      deleteLoop isize fuel data curOff k =
        if Deletes isize curOff k then none else data k := by
  induction fuel with
  | zero =>
    intro data curOff enough k
    rw [deleteLoop, if_neg]
    simp only [Deletes, tfsPageSize]
    omega
  | succ fuel ih =>
    intro data curOff enough k
    have width : 0 < tfsPageSize := by decide
    have next : (curOff + tfsPageSize) / tfsPageSize = curOff / tfsPageSize + 1 :=
      Nat.add_div_right _ width
    have rest : (curOff + tfsPageSize) % tfsPageSize = curOff % tfsPageSize := Nat.add_mod_right _ _
    have whole := Nat.div_add_mod' curOff tfsPageSize
    rw [deleteLoop]
    rcases Nat.lt_or_ge curOff isize with inside | beyond
    · rw [if_pos inside, ih _ _ (by omega) k]
      by_cases here : k = curOff / tfsPageSize
      · subst here
        rw [update_self, ite_self, if_pos ⟨le_rfl, by omega⟩]
      · have later : Deletes isize (curOff + tfsPageSize) k ↔ Deletes isize curOff k := by
          simp only [Deletes, next, rest]
          omega
        simp only [update_of_ne here, later]
    · rw [if_neg (by omega), if_neg]
      intro deleted
      obtain ⟨above, bound⟩ := deleted
      have whole_pages := Nat.mul_le_mul_right tfsPageSize above
      omega

/-- A cut in the middle of a hole still deletes the last page, if that page is there. -/
def TruncateCovers (inode : Inode) (size : Nat) : Prop :=
  0 < size → size < inode.size → size % tfsPageSize ≠ 0 →
    inode.data (size / tfsPageSize) = none → inode.data ((inode.size - 1) / tfsPageSize) ≠ none →
      size % tfsPageSize ≤ (inode.size - 1) % tfsPageSize

/-- Deleting leaves the bytes below `size` and zeros from there on, if `data` has the zeros
that are not deleted, and no byte below `size` that is. -/
theorem deleteLoop_cut {size isize : Nat} {file : List UInt8}
    (below : ∀ i, i < size → byteAt data i = file.getD i 0)
    (zeros : ∀ i, size ≤ i → ¬ Deletes isize curOff (i / tfsPageSize) → byteAt data i = 0)
    (holes : ∀ i, i < size → Deletes isize curOff (i / tfsPageSize) → byteAt data i = 0) (i : Nat) :
    byteAt (deleteLoop isize isize data curOff) i = if i < size then file.getD i 0 else 0 := by
  have spec := deleteLoop_spec isize isize data curOff (Nat.sub_le _ _) (i / tfsPageSize)
  by_cases deleted : Deletes isize curOff (i / tfsPageSize)
  · rw [if_pos deleted] at spec
    rw [byteAt_none spec]
    split
    · rename_i inside
      rw [← below i inside, holes i inside deleted]
    · rfl
  · rw [if_neg deleted] at spec
    rw [byteAt_congr spec]
    split
    · rename_i inside
      exact below i inside
    · rename_i outside
      exact zeros i (by omega) deleted

section Shrink
variable {inode : Inode} {file : List UInt8} {size : Nat} (refines : Refines inode file)
  (shrinks : size < inode.size)

include refines

theorem cut_aligned (aligned : size % tfsPageSize = 0) (i : Nat) :
    byteAt (deleteLoop inode.size inode.size inode.data size) i =
      if i < size then file.getD i 0 else 0 := by
  apply deleteLoop_cut
  · intro i _
    exact refines.bytes i
  · intro i above kept
    apply refines.beyond
    simp only [Deletes, tfsPageSize] at *
    omega
  · intro i inside deleted
    simp only [Deletes, tfsPageSize] at *
    omega

include shrinks

theorem cut_hole (hole : inode.data (size / tfsPageSize) = none)
    (last : inode.data ((inode.size - 1) / tfsPageSize) ≠ none →
      size % tfsPageSize ≤ (inode.size - 1) % tfsPageSize) (i : Nat) :
    byteAt (deleteLoop inode.size inode.size inode.data size) i =
      if i < size then file.getD i 0 else 0 := by
  apply deleteLoop_cut
  · intro i _
    exact refines.bytes i
  · intro i above kept
    by_cases lastPage : i / tfsPageSize = (inode.size - 1) / tfsPageSize
    · by_cases gone : inode.data ((inode.size - 1) / tfsPageSize) = none
      · apply byteAt_none
        rw [lastPage, gone]
      · have reached := last gone
        apply refines.beyond
        simp only [Deletes, tfsPageSize] at *
        omega
    · apply refines.beyond
      simp only [Deletes, tfsPageSize] at *
      omega
  · intro i inside deleted
    have samePage : i / tfsPageSize = size / tfsPageSize := by
      simp only [Deletes, tfsPageSize] at *
      omega
    apply byteAt_none
    rw [samePage, hole]

theorem cut_page (present : inode.data (size / tfsPageSize) = some page) {toWrite : Nat}
    (width : toWrite = min (inode.size - size) (tfsPageSize - size % tfsPageSize)) (i : Nat) :
    byteAt (deleteLoop inode.size inode.size
        (update inode.data (size / tfsPageSize)
          (some (zeroOut page (size % tfsPageSize) toWrite))) (size + toWrite)) i =
      if i < size then file.getD i 0 else 0 := by
  -- in the page of the cut only what was within the file is zeroed
  have zeroed : ∀ i, byteAt (update inode.data (size / tfsPageSize)
      (some (zeroOut page (size % tfsPageSize) toWrite))) i =
      if size ≤ i ∧ i < size + toWrite then 0 else byteAt inode.data i := by
    intro i
    by_cases samePage : i / tfsPageSize = size / tfsPageSize
    · have offset := offset_of_page samePage
      rw [byteAt_update_self _ samePage]
      rw [← samePage] at present
      rw [byteAt_some present]
      simp only [zeroOut]
      split <;> split <;> first | rfl | omega
    · rw [byteAt_update_of_ne _ samePage, if_neg]
      intro both
      simp only [tfsPageSize] at *
      omega
  apply deleteLoop_cut
  · intro i inside
    rw [zeroed, if_neg (by omega), refines.bytes]
  · intro i above kept
    rw [zeroed]
    split
    · rfl
    · apply refines.beyond
      simp only [Deletes, tfsPageSize] at *
      omega
  · intro i inside deleted
    simp only [Deletes, tfsPageSize] at *
    omega

end Shrink

theorem tfsTruncate_refines {inode : Inode} {file : List UInt8} (refines : Refines inode file)
    {size : Nat} (covers : TruncateCovers inode size) :
    Refines (tfsTruncate inode size) (resize 0 file size) := by
  have sizes := refines.sizes
  constructor
  · rw [length_resize]
    unfold tfsTruncate
    split
    · symm
      assumption
    · split
      · rfl
      · split
        · rfl
        · omega
  · intro i
    rw [getD_resize]
    unfold tfsTruncate
    by_cases empty : size = 0
    · rw [if_pos empty, if_neg (by omega)]
      rfl
    rw [if_neg empty]
    by_cases grows : inode.size < size
    · rw [if_pos grows]
      simp only [refines.bytes]
      split
      · rfl
      · exact getD_eq_default _ _ (by omega)
    rw [if_neg grows]
    by_cases shrinks : size < inode.size
    · rw [if_pos shrinks]
      simp only [truncatePage]
      by_cases aligned : size % tfsPageSize = 0
      · rw [if_neg (by simpa using aligned)]
        exact cut_aligned refines aligned i
      rw [if_pos aligned]
      cases present : inode.data (size / tfsPageSize) with
      | none => exact cut_hole refines shrinks present (covers (by omega) shrinks aligned present) i
      | some page => exact cut_page refines shrinks present rfl i
    · rw [if_neg shrinks, refines.bytes]
      split
      · rfl
      · exact getD_eq_default _ _ (by omega)

/-! ## Allocating -/

theorem byteAt_allocateLoop (mem : FileData) (stop fuel : Nat) :
    ∀ (data : FileData) (curOff i : Nat),
      byteAt (allocateLoop mem stop fuel data curOff).1 i = byteAt data i := by
  induction fuel with
  | zero => intro data curOff i; rfl
  | succ fuel ih =>
    intro data curOff i
    rw [allocateLoop]
    split
    · split
      · exact ih _ _ _
      · rfl
      · rename_i hole _
        rw [ih]
        by_cases samePage : i / tfsPageSize = curOff / tfsPageSize
        · have small : i % tfsPageSize < 0 + tfsPageSize := by
            rw [Nat.zero_add]
            exact Nat.mod_lt _ (by decide)
          rw [← samePage] at hole
          rw [byteAt_update_self _ samePage, byteAt_none hole, zeroOut,
            if_pos ⟨Nat.zero_le _, small⟩]
        · exact byteAt_update_of_ne _ samePage
    · rfl

/-- What `tfs_allocate` means for the array: zeros are appended, unless the size is to be
kept or the memory is exhausted. -/
def fileAllocate (file : List UInt8) (stop : Nat) (keepSize : Bool) (ret : Int) : List UInt8 :=
  if ret = 0 ∧ keepSize = false ∧ file.length < stop then resize 0 file stop else file

theorem tfsAllocate_refines {inode : Inode} {file : List UInt8} (refines : Refines inode file)
    (offset len : Nat) (keepSize : Bool) (mem : FileData) :
    Refines (tfsAllocate inode offset len keepSize mem).1
      (fileAllocate file (offset + len) keepSize (tfsAllocate inode offset len keepSize mem).2) := by
  have sizes := refines.sizes
  have same := byteAt_allocateLoop mem (offset + len) len inode.data offset
  unfold tfsAllocate
  generalize allocateLoop mem (offset + len) len inode.data offset = a at same ⊢
  have kept : Refines { inode with data := a.1 } file :=
    ⟨sizes, fun i => (same i).trans (refines.bytes i)⟩
  by_cases failed : a.2 = false
  · simp only [if_pos failed, fileAllocate]
    rw [if_neg (fun all => absurd all.1 (by decide))]
    exact kept
  simp only [if_neg failed]
  by_cases grows : inode.size < offset + len ∧ keepSize = false
  · simp only [if_pos grows, fileAllocate]
    rw [if_pos ⟨trivial, grows.2, by omega⟩]
    constructor
    · rw [length_resize]
    intro i
    rw [getD_resize]
    simp only [same, refines.bytes]
    split
    · rfl
    · exact getD_eq_default _ _ (by omega)
  · simp only [if_neg grows, fileAllocate]
    rw [if_neg (fun all => grows ⟨by omega, all.2.1⟩)]
    exact kept

/-! ## Runs -/

inductive FileOp where
  | write (offset : Nat) (bytes : List UInt8) (mem : FileData)
  | read (offset size : Nat)
  | truncate (size : Nat)
  | allocate (offset len : Nat) (keepSize : Bool) (mem : FileData)

structure FileState where
  inode : Inode
  file : List UInt8

def newFile : FileState := { inode := newReg, file := [] }

/-- The array follows what the operations mean and what they return; a write that hits a
`BUG_ON` changes nothing. -/
def fileStep (s : FileState) : FileOp → FileState
  | .write offset bytes mem =>
    match tfsFileWrite s.inode offset bytes mem with
    | none => s
    | some (inode, ret) => { inode := inode, file := overwrite s.file offset (bytes.take ret) }
  | .read _ _ => s
  | .truncate size => { inode := tfsTruncate s.inode size, file := resize 0 s.file size }
  | .allocate offset len keepSize mem =>
    let r := tfsAllocate s.inode offset len keepSize mem
    { inode := r.1, file := fileAllocate s.file (offset + len) keepSize r.2 }

def WithinFile (s : FileState) : FileOp → Prop
  | .write offset _ _ => offset ≤ s.inode.size
  | _ => True

instance (s : FileState) : ∀ op, Decidable (WithinFile s op) := by
  rintro ⟨⟩ <;> dsimp only [WithinFile] <;> infer_instance

def Covers (s : FileState) : FileOp → Prop
  | .write offset bytes mem => WriteCovers s.inode offset bytes.length mem
  | .truncate size => TruncateCovers s.inode size
  | _ => True

def ReadsExact (s : FileState) : Prop :=
  s.inode.size = s.file.length ∧ ∀ offset size, tfsFileRead s.inode offset size =
    ((s.file.drop offset).take size, min size (s.inode.size - offset))

theorem fileStep_refines (s : FileState) (op : FileOp) (refines : Refines s.inode s.file)
    (ok : WithinFile s op ∧ Covers s op) : Refines (fileStep s op).inode (fileStep s op).file := by
  cases op with
  | write offset bytes mem =>
    obtain ⟨inode', written, after⟩ := tfsFileWrite_refines refines ok.1 ok.2
    simp only [fileStep, written, take_length]
    exact after
  | read offset size => exact refines
  | truncate size => exact tfsTruncate_refines refines ok.2
  | allocate offset len keepSize mem => exact tfsAllocate_refines refines offset len keepSize mem

def dirtyMemory : FileData := fun _ => some fun _ => 0xff

def holeRun : List FileOp :=
  [.write 0 [1, 2, 3] dirtyMemory, .truncate 4096, .write 4096 [9] dirtyMemory, .read 2 5000,
    .truncate 2, .allocate 0 9000 false dirtyMemory]

end KernelLabs.ChCore
