import KernelLabs.ChCore.Mm.PageTableWalk

/-!
# Mapping a range

`map_range_in_pgtbl` followed by `query_in_pgtbl`.  The entry holds 36 bits of the page
frame number and the walk reads 48 bits of the address, so physical and virtual
addresses count modulo `2 ^ 48`.
-/

set_option autoImplicit false

namespace KernelLabs.ChCore

open Lib

def pageNo (va : Nat) : Nat := va % 2 ^ 48 / pageSize

theorem samePage_iff (va x : Nat) : SamePage va x ↔ pageNo va = pageNo x := by
  simp only [pageNo, pageSize]
  constructor
  · intro same
    have i0 := same 0 (by omega)
    have i1 := same 1 (by omega)
    have i2 := same 2 (by omega)
    have i3 := same 3 (by omega)
    simp only [ptIndex, levelShift, ptpEntries] at i0 i1 i2 i3
    omega
  · intro same j below
    obtain rfl | rfl | rfl | rfl : j = 0 ∨ j = 1 ∨ j = 2 ∨ j = 3 := by omega
    all_goals
      simp only [ptIndex, levelShift, ptpEntries]
      omega

theorem samePath_next (va : Nat) (more : ptIndex 3 va + 1 < ptpEntries) :
    SamePath ptIndex 3 va (va + pageSize) ∧ ptIndex 3 (va + pageSize) = ptIndex 3 va + 1 := by
  simp only [ptIndex, levelShift, ptpEntries, pageSize] at more ⊢
  refine ⟨?_, by omega⟩
  intro j below
  obtain rfl | rfl | rfl : j = 0 ∨ j = 1 ∨ j = 2 := by omega
  all_goals
    simp only [ptIndex, levelShift, ptpEntries]
    omega

structure HasFlags (entry : Pte) (flags : Nat) : Prop where
  ap : entry.ap = if flags.testBit vmrWrite then 1 else 3
  uxn : entry.uxn = !flags.testBit vmrExec
  pxn : entry.pxn = true
  af : entry.af = true
  sh : entry.sh = 3
  attrIndex : entry.attrIndex = if flags.testBit vmrDevice then 0 else 4

theorem setPteFlags_hasFlags (entry : Pte) (flags : Nat) : HasFlags (setPteFlags entry flags) flags :=
  ⟨rfl, rfl, rfl, rfl, rfl, rfl⟩

theorem pagePte_pfn (pa flags : Nat) :
    (pagePte pa flags).pfn.toNat * pageSize = pa % 2 ^ 48 / pageSize * pageSize := by
  simp only [pagePte, setPteFlags, BitVec.toNat_ofNat, pageSize]
  omega

structure Mapped (flags va pa k : Nat) (before after : Nat → Option Translation) : Prop where
  inside : ∀ j x, j < k → pageNo x = va / pageSize + j → ∃ t, after x = some t ∧
    HasFlags t.entry flags ∧ t.pa = (pa + j * pageSize) % 2 ^ 48 + x % pageSize
  outside : ∀ x, (pageNo x < va / pageSize ∨ va / pageSize + k ≤ pageNo x) → after x = before x

section Mapped
variable {flags va pa k m : Nat} {q q' q'' : Nat → Option Translation}

theorem Mapped.append (first : Mapped flags va pa k q q')
    (second : Mapped flags (va + k * pageSize) (pa + k * pageSize) m q' q'') :
    Mapped flags va pa (k + m) q q'' := by
  have start : (va + k * pageSize) / pageSize = va / pageSize + k := by
    simp only [pageSize]
    omega
  refine ⟨?_, ?_⟩
  · intro j x below page
    by_cases early : j < k
    · rw [second.outside x (Or.inl (by omega))]
      exact first.inside j x early page
    obtain ⟨t, found, perms, address⟩ := second.inside (j - k) x (by omega) (by omega)
    refine ⟨t, found, perms, ?_⟩
    rw [address]
    have split : pa + k * pageSize + (j - k) * pageSize = pa + j * pageSize := by
      simp only [pageSize]
      omega
    rw [split]
  · intro x out
    rw [second.outside x (by omega), first.outside x (by omega)]

theorem Mapped.congr_pa {pa' : Nat} (mapped : Mapped flags va pa k q q')
    (same : pa % 2 ^ 48 = pa' % 2 ^ 48) : Mapped flags va pa' k q q' := by
  refine ⟨?_, mapped.outside⟩
  intro j x below page
  obtain ⟨t, found, perms, address⟩ := mapped.inside j x below page
  refine ⟨t, found, perms, ?_⟩
  rw [address]
  omega

end Mapped

theorem mapped_setEntry {mem : PtMem} {pgtbl l3 va pa flags : Nat} (wf : WfTable mem pgtbl)
    (table : tbl mem pgtbl 3 va = some l3) (vaBound : va < 2 ^ 48) (paAligned : pa % pageSize = 0) :
    Mapped flags va pa 1 (queryInPgtbl mem pgtbl)
      (queryInPgtbl (setEntry mem l3 (ptIndex 3 va) (pagePte pa flags)) pgtbl) := by
  have page : pageNo va = va / pageSize := by
    rw [pageNo, Nat.mod_eq_of_lt vaBound]
  refine ⟨?_, ?_⟩
  · intro j x below here
    have same : SamePage va x := by
      rw [samePage_iff, page]
      omega
    have valid : (pagePte pa flags).isValid = true := rfl
    refine ⟨_, by rw [wf.query_setEntry_same table _ x same, if_pos valid], setPteFlags_hasFlags _ _, ?_⟩
    have shift : 2 ^ levelShift 3 = pageSize := rfl
    have zero : j = 0 := by omega
    simp only [pagePte_pfn, shift, zero, Nat.zero_mul, Nat.add_zero]
    have whole : pa % 2 ^ 48 / pageSize * pageSize = pa % 2 ^ 48 := by
      simp only [pageSize] at paAligned ⊢
      omega
    rw [whole]
  · intro x out
    apply wf.query_setEntry_other table
    rw [samePage_iff, page]
    omega

structure MapProgress (pgtbl flags k : Nat) (c c' : Cursor) : Prop where
  wf : WfTable c'.mem pgtbl
  tables : ∀ l x, l ≤ 3 → tbl c'.mem pgtbl l x = tbl c.mem pgtbl l x
  flat : NoBlocks c.mem pgtbl → NoBlocks c'.mem pgtbl
  va : c'.va = c.va + k * pageSize
  pa : c'.pa % 2 ^ 48 = (c.pa + k * pageSize) % 2 ^ 48 ∧ c'.pa % pageSize = 0
  left : c'.left + k = c.left
  mapped : Mapped flags c.va c.pa k (queryInPgtbl c.mem pgtbl) (queryInPgtbl c'.mem pgtbl)

theorem MapProgress.trans {pgtbl flags k m : Nat} {c c' c'' : Cursor}
    (first : MapProgress pgtbl flags k c c') (second : MapProgress pgtbl flags m c' c'') :
    MapProgress pgtbl flags (k + m) c c'' := by
  have firstVa := first.va
  have secondVa := second.va
  have firstPa := first.pa.1
  have secondPa := second.pa.1
  have firstLeft := first.left
  have secondLeft := second.left
  refine ⟨second.wf, ?_, second.flat ∘ first.flat, ?_, ⟨?_, second.pa.2⟩, by omega, ?_⟩
  · intro l x le
    rw [second.tables l x le, first.tables l x le]
  · simp only [pageSize] at firstVa secondVa ⊢
    omega
  · simp only [pageSize] at firstPa secondPa ⊢
    omega
  · apply first.mapped.append
    rw [← first.va]
    exact second.mapped.congr_pa firstPa

theorem mapEntries_spec (pgtbl l3 flags : Nat) : ∀ (fuel i : Nat) (c : Cursor), 0 < fuel →
    0 < c.left → i + fuel = ptpEntries → ptIndex 3 c.va = i → WfTable c.mem pgtbl →
    tbl c.mem pgtbl 3 c.va = some l3 → c.va % pageSize = 0 → c.pa % pageSize = 0 →
    c.va + c.left * pageSize ≤ 2 ^ 48 →
    ∃ k, 0 < k ∧ MapProgress pgtbl flags k c (mapEntries l3 flags fuel i c) := by
  intro fuel
  induction fuel with
  | zero => intro i c pos; omega
  | succ fuel ih =>
    intro i c _ some_left sum index wf table vaAligned paAligned bound
    subst index
    have vaBound : c.va < 2 ^ 48 := by
      simp only [pageSize] at bound
      omega
    -- the cursor after one entry
    have one : MapProgress pgtbl flags 1 c
        { mem := setEntry c.mem l3 (ptIndex 3 c.va) (pagePte c.pa flags)
          va := addU64 c.va pageSize, pa := addU64 c.pa pageSize, left := c.left - 1 } := by
      refine ⟨wf.keep_setEntry table _, fun l x le => wf.tbl_setEntry table _ l x le,
        wf.noBlocks_setEntry table _, ?_, ⟨?_, ?_⟩, ?_, mapped_setEntry wf table vaBound paAligned⟩
      · simp only [addU64, pageSize] at bound ⊢
        omega
      · simp only [addU64, pageSize]
        omega
      · simp only [addU64, pageSize] at paAligned ⊢
        omega
      · simp only
        omega
    simp only [mapEntries]
    split
    · exact ⟨1, by omega, one⟩
    rename_i more
    by_cases last : fuel = 0
    · subst last
      exact ⟨1, by omega, one⟩
    have nextVa : addU64 c.va pageSize = c.va + pageSize := by
      simp only [addU64, pageSize] at bound ⊢
      omega
    obtain ⟨path, nextIndex⟩ := samePath_next c.va (by omega)
    have nextTable : tbl (setEntry c.mem l3 (ptIndex 3 c.va) (pagePte c.pa flags)) pgtbl 3
        (c.va + pageSize) = some l3 := by
      rw [wf.tbl_setEntry table _ 3 _ (le_refl 3), tbl, ← tableAt_congr 3 path]
      exact table
    obtain ⟨k, pos, rest⟩ := ih (ptIndex 3 c.va + 1) _ (by omega) (by simp only; omega)
      (by omega) (by simp only [nextVa, nextIndex]) one.wf (by simp only [nextVa]; exact nextTable)
      (by simp only [nextVa]; simp only [pageSize] at vaAligned ⊢; omega) one.pa.2
      (by simp only [nextVa]; simp only [pageSize] at bound ⊢; omega)
    exact ⟨1 + k, by omega, one.trans rest⟩

theorem mapLoop_spec (pgtbl flags : Nat) : ∀ (fuel : Nat) (s : PtState) (va pa left : Nat)
    (s' : PtState), WfState s pgtbl → va % pageSize = 0 → pa % pageSize = 0 →
    va + left * pageSize ≤ 2 ^ 48 → mapLoop pgtbl flags fuel s va pa left = some s' →
    WfState s' pgtbl ∧ (NoBlocks s.mem pgtbl → NoBlocks s'.mem pgtbl) ∧
      Mapped flags va pa left (queryInPgtbl s.mem pgtbl) (queryInPgtbl s'.mem pgtbl) := by
  intro fuel
  induction fuel with
  | zero =>
    intro s va pa left s' wf _ _ _ run
    simp only [mapLoop] at run
    split at run
    · rename_i done
      cases run
      exact ⟨wf, id, ⟨fun j x below => by omega, fun _ _ => rfl⟩⟩
    · cases run
  | succ fuel ih =>
    intro s va pa left s' wf vaAligned paAligned bound run
    simp only [mapLoop] at run
    split at run
    · rename_i done
      cases run
      exact ⟨wf, id, ⟨fun j x below => by omega, fun _ _ => rfl⟩⟩
    rename_i more
    split at run
    · cases run
    rename_i s1 l3 ensure
    obtain ⟨wf1, table, flat1, same⟩ := ensureTables_spec wf ensure
    have inTable : ptIndex 3 va < ptpEntries := Nat.mod_lt _ (by decide)
    obtain ⟨k, _, progress⟩ := mapEntries_spec pgtbl l3 flags (ptpEntries - ptIndex 3 va)
      (ptIndex 3 va) { mem := s1.mem, va := va, pa := pa, left := left } (by omega)
      (Nat.pos_of_ne_zero more) (by omega) rfl wf1.toWfTable table vaAligned paAligned bound
    generalize mapEntries l3 flags (ptpEntries - ptIndex 3 va) (ptIndex 3 va)
      { mem := s1.mem, va := va, pa := pa, left := left } = c at run progress
    have leftEq := progress.left
    have vaEq := progress.va
    simp only at leftEq vaEq
    have wf2 : WfState { s1 with mem := c.mem } pgtbl := by
      refine ⟨progress.wf, wf1.freeNodup, wf1.freeDirect, ?_⟩
      intro g member l x le
      change tbl c.mem pgtbl l x ≠ some g
      rw [progress.tables l x le]
      exact wf1.freeFresh g member l x le
    obtain ⟨wf', flat', rest⟩ := ih { s1 with mem := c.mem } c.va c.pa c.left s' wf2
      (by simp only [vaEq, pageSize] at vaAligned ⊢; omega) progress.pa.2
      (by simp only [vaEq, pageSize] at bound ⊢; omega) run
    refine ⟨wf', fun flat => flat' (progress.flat (flat1 flat)), ?_⟩
    rw [← leftEq, Nat.add_comm]
    have first : Mapped flags va pa k (queryInPgtbl s.mem pgtbl) (queryInPgtbl c.mem pgtbl) := by
      refine ⟨progress.mapped.inside, ?_⟩
      intro x out
      exact (progress.mapped.outside x out).trans (same x)
    apply first.append
    rw [← vaEq]
    exact rest.congr_pa progress.pa.1

theorem pageCount_mul {len : Nat} (aligned : len % pageSize = 0) : pageCount len * pageSize = len := by
  rw [pageCount, if_neg (by omega)]
  simp only [pageSize] at aligned ⊢
  omega

theorem mapRangeInPgtbl_spec (s s' : PtState) (pgtbl va pa len flags : Nat) (wf : WfState s pgtbl)
    (vaAligned : va % pageSize = 0) (paAligned : pa % pageSize = 0) (lenAligned : len % pageSize = 0)
    (bound : va + len ≤ 2 ^ 48) (returns : mapRangeInPgtbl s pgtbl va pa len flags = some s') :
    WfState s' pgtbl ∧ (NoBlocks s.mem pgtbl → NoBlocks s'.mem pgtbl) ∧
      Mapped flags va pa (pageCount len) (queryInPgtbl s.mem pgtbl) (queryInPgtbl s'.mem pgtbl) := by
  rw [mapRangeInPgtbl] at returns
  split at returns
  · cases returns
  · exact mapLoop_spec pgtbl flags (pageCount len) s va pa (pageCount len) s' wf vaAligned paAligned
      (by rw [pageCount_mul lenAligned]; exact bound) returns

/-- After `map_range_in_pgtbl` every address of the range translates to its place in the
physical range, with the permissions asked for, and no other address is affected. -/
theorem query_after_map (s s' : PtState) (pgtbl va pa len flags : Nat) (wf : WfState s pgtbl)
    (vaAligned : va % pageSize = 0) (paAligned : pa % pageSize = 0) (lenAligned : len % pageSize = 0)
    (bound : va + len ≤ 2 ^ 48) (returns : mapRangeInPgtbl s pgtbl va pa len flags = some s') :
    (∀ o, o < len → ∃ t, queryInPgtbl s'.mem pgtbl (va + o) = some t ∧
      t.pa = (pa + o) % 2 ^ 48 ∧ HasFlags t.entry flags) ∧
    ∀ x, ¬ (va ≤ x % 2 ^ 48 ∧ x % 2 ^ 48 < va + len) →
      queryInPgtbl s'.mem pgtbl x = queryInPgtbl s.mem pgtbl x := by
  obtain ⟨_, _, mapped⟩ := mapRangeInPgtbl_spec s s' pgtbl va pa len flags wf vaAligned paAligned
    lenAligned bound returns
  have count := pageCount_mul lenAligned
  simp only [pageSize] at vaAligned paAligned count
  refine ⟨?_, ?_⟩
  · intro o below
    obtain ⟨t, found, perms, address⟩ := mapped.inside (o / pageSize) (va + o)
      (by simp only [pageSize]; omega) (by simp only [pageNo, pageSize]; omega)
    refine ⟨t, found, ?_, perms⟩
    rw [address]
    simp only [pageSize]
    omega
  · intro x out
    apply mapped.outside x
    simp only [pageNo, pageSize]
    omega

def emptyTables : PtState := { mem := fun _ _ => invalidPte, free := [2, 3, 4, 5] }

theorem tbl_empty (l va : Nat) : tbl emptyTables.mem 1 (l + 1) va = none := by
  rw [tbl_succ]
  cases tbl emptyTables.mem 1 l va with
  | none | some => rfl

theorem emptyTables_wf : WfState emptyTables 1 := by
  have only : ∀ l va f, tbl emptyTables.mem 1 l va = some f → l = 0 ∧ f = 1 := by
    intro l va f table
    cases l with
    | zero =>
      cases table
      exact ⟨rfl, rfl⟩
    | succ l =>
      rw [tbl_empty] at table
      cases table
  refine ⟨⟨?_, ?_, ?_⟩, by decide, by decide, ?_⟩
  · intro l l' k k' f _ _ first second
    obtain ⟨rfl, _⟩ := only l k f first
    obtain ⟨rfl, _⟩ := only l' k' f second
    exact ⟨rfl, fun j below => absurd below (Nat.not_lt_zero j)⟩
  · intro l va f _ table
    rw [(only l va f table).2]
    decide
  · intro i valid
    cases valid
  · intro g member l va _ table
    rw [(only l va g table).2] at member
    revert member
    decide

theorem emptyTables_noBlocks : NoBlocks emptyTables.mem 1 := by
  intro l va f _ _ valid
  cases valid

theorem query_after_map_across_tables :
    ∃ t, queryInPgtbl ((mapRangeInPgtbl emptyTables 1 0x1ff000 0x40000000 0x2000 2).get
        (by decide +kernel)).mem 1 0x200123 = some t ∧
      t.pa = 0x40001123 ∧ HasFlags t.entry 2 :=
  (query_after_map emptyTables _ 1 0x1ff000 0x40000000 0x2000 2 emptyTables_wf (by decide) (by decide)
    (by decide) (by decide) (Option.some_get _).symm).1 0x1123 (by decide)

/-- The upper bits of a physical address are lost, and those of a virtual address are not read. -/
theorem map_loses_high_address_bits :
    WfState emptyTables 1 ∧ ∃ s', mapRangeInPgtbl emptyTables 1 0 (2 ^ 48) 0x1000 0 = some s' ∧
      (queryInPgtbl s'.mem 1 0).map Translation.pa ≠ some (2 ^ 48) ∧
      queryInPgtbl s'.mem 1 (2 ^ 48) ≠ queryInPgtbl emptyTables.mem 1 (2 ^ 48) :=
  ⟨emptyTables_wf, (mapRangeInPgtbl emptyTables 1 0 (2 ^ 48) 0x1000 0).get (by decide +kernel),
    (Option.some_get _).symm, by decide +kernel, by decide +kernel⟩

end KernelLabs.ChCore
