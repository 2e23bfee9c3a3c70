import KernelLabs.ChCore.Mm.PageTable

/-!
# Walks through a page table

A user page table is a radix tree of depth three over the low 48 bits of the address.
`WfTable` is what every function here relies on: no table page is shared, table pages
lie in the part of physical memory the kernel can address, and level 0 has no block
entries.  A translation depends only on the entries along its walk; allocating a table
page changes no translation at all.
-/

set_option autoImplicit false

namespace KernelLabs.ChCore

open Lib List Option

def nextTable (entry : Pte) : Option Nat :=
  if entry.isValid && entry.isTable then some entry.pfn.toNat else none

abbrev tbl (mem : PtMem) (pgtbl l va : Nat) : Option Nat :=
  tableAt ptIndex nextTable mem pgtbl l va

structure WfTable (mem : PtMem) (pgtbl : Nat) : Prop where
  sharing : NoSharing ptIndex nextTable 3 mem pgtbl
  direct : ∀ l va f, l ≤ 3 → tbl mem pgtbl l va = some f → f < nullFrame
  top : ∀ i, (mem pgtbl i).isValid = true → (mem pgtbl i).isTable = true

structure WfState (s : PtState) (pgtbl : Nat) : Prop extends WfTable s.mem pgtbl where
  freeNodup : s.free.Nodup
  freeDirect : ∀ g ∈ s.free, g < nullFrame
  freeFresh : ∀ g ∈ s.free, Fresh ptIndex nextTable 3 s.mem pgtbl g

/-- Every valid entry of the three upper levels points to a table: `map_range_in_pgtbl` writes
no block entries. -/
def NoBlocks (mem : PtMem) (pgtbl : Nat) : Prop :=
  ∀ l va f, l ≤ 2 → tbl mem pgtbl l va = some f → (mem f (ptIndex l va)).isValid = true →
    (mem f (ptIndex l va)).isTable = true

/-- The walk reads the same entries for both addresses: they lie in one page. -/
abbrev SamePage (va va' : Nat) : Prop := SamePath ptIndex 4 va va'

section Walk
variable {mem mem' : PtMem} {pgtbl f g l va : Nat}

theorem getNextPtp_congr (same : mem' f (ptIndex l va) = mem f (ptIndex l va)) :
    getNextPtp mem' f l va = getNextPtp mem f l va := by
  simp only [getNextPtp, same]

theorem translation_congr (next : Nat) (same : mem' f (ptIndex l va) = mem f (ptIndex l va)) :
    translation mem' f l va next = translation mem f l va next := by
  simp only [translation, same]

theorem getNextPtp_of_invalid (invalid : (mem f (ptIndex l va)).isValid = false) :
    getNextPtp mem f l va = .noMapping := by
  simp [getNextPtp, invalid]

theorem tbl_succ : tbl mem pgtbl (l + 1) va =
    (tbl mem pgtbl l va).bind fun f => nextTable (mem f (ptIndex l va)) := rfl

theorem tbl_succ_of_normal (table : tbl mem pgtbl l va = some f)
    (normal : getNextPtp mem f l va = .normal g) : tbl mem pgtbl (l + 1) va = some g := by
  rw [tbl_succ, table, bind_some, nextTable]
  simp only [getNextPtp] at normal
  split at normal
  · cases normal
  split at normal
  · cases normal
  rename_i valid
  split at normal
  · rename_i isTable
    cases normal
    simp only [Bool.not_eq_false] at valid
    simp [valid, isTable]
  · cases normal

theorem normal_of_tbl_succ (notNull : f ≠ nullFrame) (table : tbl mem pgtbl l va = some f)
    (next : tbl mem pgtbl (l + 1) va = some g) : getNextPtp mem f l va = .normal g := by
  rw [tbl_succ, table, bind_some, nextTable] at next
  split at next
  · rename_i both
    rw [Bool.and_eq_true] at both
    cases next
    simp [getNextPtp, notNull, both.1, both.2]
  · cases next

theorem exists_of_tbl_succ (next : tbl mem pgtbl (l + 1) va = some g) :
    ∃ f, tbl mem pgtbl l va = some f := by
  rw [tbl_succ] at next
  obtain ⟨f, table, _⟩ := bind_eq_some_iff.mp next
  exact ⟨f, table⟩

theorem WfTable.ne_null (wf : WfTable mem pgtbl) (le : l ≤ 3) (table : tbl mem pgtbl l va = some f) :
    f ≠ nullFrame :=
  ne_of_lt (wf.direct l va f le table)

theorem WfTable.top_ne_block (wf : WfTable mem pgtbl) (next : Nat) :
    getNextPtp mem pgtbl 0 va ≠ .block next := by
  intro block
  simp only [getNextPtp] at block
  split at block
  · cases block
  · split at block
    · cases block
    · rename_i valid
      rw [wf.top _ (by simpa using valid)] at block
      cases block

/-! ## Translations -/

/-- A translation depends only on the entries its walk reads. -/
theorem WfTable.query_congr (wf : WfTable mem pgtbl)
    (same : ∀ l f, l ≤ 3 → tbl mem pgtbl l va = some f →
      mem' f (ptIndex l va) = mem f (ptIndex l va)) :
    queryInPgtbl mem' pgtbl va = queryInPgtbl mem pgtbl va := by
  have entry0 := same 0 pgtbl (by omega) rfl
  simp only [queryInPgtbl, getNextPtp_congr entry0]
  cases step0 : getNextPtp mem pgtbl 0 va with
  | noMapping => rfl
  | block next => exact absurd step0 (wf.top_ne_block next)
  | normal l1 =>
    have table1 := tbl_succ_of_normal rfl step0
    have entry1 := same 1 l1 (by omega) table1
    simp only [getNextPtp_congr entry1]
    cases step1 : getNextPtp mem l1 1 va with
    | noMapping => rfl
    | block next => simp only [translation_congr next entry1]
    | normal l2 =>
      have table2 := tbl_succ_of_normal table1 step1
      have entry2 := same 2 l2 (by omega) table2
      simp only [getNextPtp_congr entry2]
      cases step2 : getNextPtp mem l2 2 va with
      | noMapping => rfl
      | block next => simp only [translation_congr next entry2]
      | normal l3 =>
        have table3 := tbl_succ_of_normal table2 step2
        have entry3 := same 3 l3 (by omega) table3
        simp only [getNextPtp_congr entry3, translation_congr _ entry3]

theorem WfTable.query_leaf (wf : WfTable mem pgtbl) (table : tbl mem pgtbl 3 va = some f) :
    queryInPgtbl mem pgtbl va =
      if (mem f (ptIndex 3 va)).isValid then
        some (translation mem f 3 va (mem f (ptIndex 3 va)).pfn.toNat)
      else none := by
  obtain ⟨l2, table2⟩ := exists_of_tbl_succ table
  obtain ⟨l1, table1⟩ := exists_of_tbl_succ table2
  have root : tbl mem pgtbl 0 va = some pgtbl := rfl
  have step0 := normal_of_tbl_succ (wf.ne_null (by omega) root) root table1
  have step1 := normal_of_tbl_succ (wf.ne_null (by omega) table1) table1 table2
  have step2 := normal_of_tbl_succ (wf.ne_null (by omega) table2) table2 table
  simp only [queryInPgtbl, step0, step1, step2]
  by_cases valid : (mem f (ptIndex 3 va)).isValid = true
  · cases isTable : (mem f (ptIndex 3 va)).isTable <;>
      simp [getNextPtp, wf.ne_null (by omega) table, valid, isTable]
  · rw [getNextPtp_of_invalid (by simpa using valid)]
    simp [valid]

theorem WfTable.query_none (wf : WfTable mem pgtbl) (le : l ≤ 3)
    (table : tbl mem pgtbl l va = some f) (invalid : (mem f (ptIndex l va)).isValid = false) :
    queryInPgtbl mem pgtbl va = none := by
  have stop := getNextPtp_of_invalid invalid
  -- the tables above level `l` are all there
  have above : ∀ m, m < l → ∃ cur next, tbl mem pgtbl m va = some cur ∧
      tbl mem pgtbl (m + 1) va = some next ∧ getNextPtp mem cur m va = .normal next := by
    intro m below
    have there : ∃ next, tbl mem pgtbl (m + 1) va = some next := by
      by_contra missing
      rw [not_exists] at missing
      have none : tbl mem pgtbl (m + 1) va = none := eq_none_iff_forall_ne_some.mpr missing
      rw [tbl, tableAt_none_mono (by omega) none] at table
      cases table
    obtain ⟨next, here⟩ := there
    obtain ⟨cur, before⟩ := exists_of_tbl_succ here
    exact ⟨cur, next, before, here, normal_of_tbl_succ (wf.ne_null (by omega) before) before here⟩
  match l, le with
  | 0, _ =>
    cases table
    simp only [queryInPgtbl, stop]
  | 1, _ =>
    obtain ⟨_, l1, ⟨⟩, table1, step0⟩ := above 0 (by omega)
    rw [table] at table1
    cases table1
    simp only [queryInPgtbl, step0, stop]
  | 2, _ =>
    obtain ⟨_, l1, ⟨⟩, table1, step0⟩ := above 0 (by omega)
    obtain ⟨_, l2, table1', table2, step1⟩ := above 1 (by omega)
    rw [table1] at table1'
    cases table1'
    rw [table] at table2
    cases table2
    simp only [queryInPgtbl, step0, step1, stop]
  | 3, _ =>
    rw [wf.query_leaf table]
    simp [invalid]

end Walk

/-! ## Writing an entry of a last table -/

section Leaf
variable {mem : PtMem} {pgtbl f va : Nat} (wf : WfTable mem pgtbl)
  (table : tbl mem pgtbl 3 va = some f) (entry : Pte)

include wf table

theorem WfTable.tbl_setEntry (l x : Nat) (le : l ≤ 3) :
    tbl (setEntry mem f (ptIndex 3 va) entry) pgtbl l x = tbl mem pgtbl l x :=
  tableAt_setEntry_leaf wf.sharing table _ _ l le x

theorem WfTable.setEntry_upper (l x f' : Nat) (le : l ≤ 2) (here : tbl mem pgtbl l x = some f') :
    setEntry mem f (ptIndex 3 va) entry f' (ptIndex l x) = mem f' (ptIndex l x) := by
  apply setEntry_of_ne
  rintro ⟨rfl, _⟩
  have levels := wf.sharing l 3 x va f' (by omega) (le_refl 3) here table
  omega

theorem WfTable.noBlocks_setEntry (flat : NoBlocks mem pgtbl) :
    NoBlocks (setEntry mem f (ptIndex 3 va) entry) pgtbl := by
  intro l x f' le here valid
  rw [wf.tbl_setEntry table entry l x (by omega)] at here
  rw [wf.setEntry_upper table entry l x f' le here] at valid ⊢
  exact flat l x f' le here valid

theorem WfTable.keep_setEntry : WfTable (setEntry mem f (ptIndex 3 va) entry) pgtbl := by
  refine ⟨noSharing_setEntry_leaf wf.sharing table _ _, ?_, ?_⟩
  · intro l x f' le here
    rw [wf.tbl_setEntry table entry l x le] at here
    exact wf.direct l x f' le here
  intro i valid
  have notRoot : ¬ (pgtbl = f ∧ i = ptIndex 3 va) := by
    rintro ⟨rfl, _⟩
    have levels := wf.sharing 0 3 va va pgtbl (by omega) (by omega) rfl table
    exact absurd levels.1 (by omega)
  rw [setEntry_of_ne _ _ _ _ _ _ notRoot] at valid ⊢
  exact wf.top i valid

theorem WfTable.query_setEntry_same (x : Nat) (same : SamePage va x) :
    queryInPgtbl (setEntry mem f (ptIndex 3 va) entry) pgtbl x =
      if entry.isValid then
        some { pa := entry.pfn.toNat * pageSize + x % 2 ^ levelShift 3, frame := f,
               index := ptIndex 3 x, entry := entry }
      else none := by
  obtain ⟨path, last⟩ := samePath_succ.mp same
  have table' : tbl (setEntry mem f (ptIndex 3 va) entry) pgtbl 3 x = some f := by
    rw [wf.tbl_setEntry table entry 3 x (le_refl 3), tbl, ← tableAt_congr 3 path]
    exact table
  rw [(wf.keep_setEntry table entry).query_leaf table', translation, ← last, setEntry_self]

theorem WfTable.query_setEntry_other (x : Nat) (other : ¬ SamePage va x) :
    queryInPgtbl (setEntry mem f (ptIndex 3 va) entry) pgtbl x = queryInPgtbl mem pgtbl x := by
  apply wf.query_congr
  intro l f' le here
  apply setEntry_of_ne
  rintro ⟨rfl, last⟩
  obtain ⟨level, _⟩ := wf.sharing l 3 x va f' le (by omega) here table
  subst level
  exact other (wf.sharing.samePath (le_refl 3) table here last.symm)

end Leaf

/-! ## A new table page -/

theorem nextTable_tablePte {g : Nat} (direct : g < nullFrame) : nextTable (tablePte g) = some g := by
  have small : g < 2 ^ 36 := lt_trans direct (by decide)
  have frame : (BitVec.ofNat 36 g).toNat = g := by
    rw [BitVec.toNat_ofNat, Nat.mod_eq_of_lt small]
  rw [nextTable, tablePte, frame]
  rfl

section Alloc
variable {s : PtState} {pgtbl f g l va : Nat} {free : List Nat}

section
variable (wf : WfState s pgtbl) (le : l ≤ 2) (table : tbl s.mem pgtbl l va = some f)
include wf le table

theorem WfState.keep_graft (frames : s.free = g :: free) :
    WfState { mem := graft ptIndex s.mem f g l va invalidPte (tablePte g), free := free } pgtbl := by
  have head : g ∈ s.free := by rw [frames]; exact mem_cons_self
  have nodup : (g :: free).Nodup := by rw [← frames]; exact wf.freeNodup
  have fresh := wf.freeFresh g head
  have points := nextTable_tablePte (wf.freeDirect g head)
  have deep : l < 3 := by omega
  refine ⟨⟨?_, ?_, ?_⟩, (nodup_cons.mp nodup).2, ?_, ?_⟩
  · exact noSharing_graft fresh deep table wf.sharing points rfl
  · intro m x f' bound here
    by_cases new : f' = g
    · rw [new]
      exact wf.freeDirect g head
    · exact wf.direct m x f' bound
        (tableAt_graft_old fresh deep table wf.sharing points rfl x m bound f' new here)
  · intro i valid
    have notNew : pgtbl ≠ g := fun eq => fresh 0 va (by omega) (by rw [← eq]; rfl)
    by_cases written : pgtbl = f ∧ i = ptIndex l va
    · simp [graft, setEntry, written, tablePte]
    · simp only [graft, setEntry_of_ne _ _ _ _ _ _ written, fillTable, if_neg notNew] at valid ⊢
      exact wf.top i valid
  · intro h member
    exact wf.freeDirect h (by rw [frames]; exact mem_cons_of_mem g member)
  · intro h member
    have ne : h ≠ g := fun eq => (nodup_cons.mp nodup).1 (by rw [← eq]; exact member)
    exact fresh_graft fresh deep table wf.sharing points rfl h ne
      (wf.freeFresh h (by rw [frames]; exact mem_cons_of_mem g member))

theorem WfState.noBlocks_graft (frames : s.free = g :: free) (flat : NoBlocks s.mem pgtbl) :
    NoBlocks (graft ptIndex s.mem f g l va invalidPte (tablePte g)) pgtbl := by
  have head : g ∈ s.free := by rw [frames]; exact mem_cons_self
  have fresh := wf.freeFresh g head
  have points := nextTable_tablePte (wf.freeDirect g head)
  intro m x f' bound here valid
  by_cases new : f' = g
  · subst new
    rw [graft_new_entry fresh (by omega) table] at valid
    cases valid
  have old : tbl s.mem pgtbl m x = some f' :=
    tableAt_graft_old fresh (by omega) table wf.sharing points rfl x m (by omega) f' new here
  by_cases written : f' = f ∧ ptIndex m x = ptIndex l va
  · simp [graft, setEntry, written, tablePte]
  · simp only [graft, setEntry_of_ne _ _ _ _ _ _ written, fillTable, if_neg new] at valid ⊢
    exact flat m x f' bound old valid

theorem WfState.query_graft (frames : s.free = g :: free)
    (invalid : (s.mem f (ptIndex l va)).isValid = false) (x : Nat) :
    queryInPgtbl (graft ptIndex s.mem f g l va invalidPte (tablePte g)) pgtbl x =
      queryInPgtbl s.mem pgtbl x := by
  have head : g ∈ s.free := by rw [frames]; exact mem_cons_self
  have fresh := wf.freeFresh g head
  have points := nextTable_tablePte (wf.freeDirect g head)
  have deep : l < 3 := by omega
  by_cases same : SamePath ptIndex (l + 1) va x
  · obtain ⟨path, last⟩ := samePath_succ.mp same
    have here : tbl s.mem pgtbl l x = some f := by
      rw [tbl, ← tableAt_congr l path]
      exact table
    have new : tbl (graft ptIndex s.mem f g l va invalidPte (tablePte g)) pgtbl (l + 1) x = some g :=
      tableAt_graft_new fresh deep table wf.sharing points x same
    have blank : graft ptIndex s.mem f g l va invalidPte (tablePte g) g (ptIndex (l + 1) x) =
        invalidPte := graft_new_entry fresh deep table _
    have before := wf.query_none (by omega) here (by rw [← last]; exact invalid)
    have after := (wf.keep_graft le table frames).query_none (by omega) new (congrArg _ blank)
    exact after.trans before.symm
  · apply wf.query_congr
    intro m f' bound here
    exact graft_entry fresh deep table wf.sharing bound here (fun both => same both.2)

theorem getNextPtpAlloc_spec {s' : PtState}
    (run : getNextPtpAlloc s f l va = some (s', .normal g)) :
    WfState s' pgtbl ∧ tbl s'.mem pgtbl (l + 1) va = some g ∧
      (NoBlocks s.mem pgtbl → NoBlocks s'.mem pgtbl) ∧
      ∀ x, queryInPgtbl s'.mem pgtbl x = queryInPgtbl s.mem pgtbl x := by
  simp only [getNextPtpAlloc] at run
  split at run
  · rename_i empty
    split at run
    · cases run
    rename_i new free frames
    rw [Option.some.injEq, Prod.mk.injEq] at run
    obtain ⟨rfl, normal⟩ := run
    have kept := wf.keep_graft le table frames
    have above : tbl (graft ptIndex s.mem f new l va invalidPte (tablePte new)) pgtbl l va =
        some f := by
      rw [← table]
      exact tableAt_graft_above (wf.freeFresh new (by rw [frames]; exact mem_cons_self))
        (by omega) table wf.sharing va (le_refl l)
    exact ⟨kept, tbl_succ_of_normal above normal, wf.noBlocks_graft le table frames,
      wf.query_graft le table frames empty.2⟩
  · rw [Option.some.injEq, Prod.mk.injEq] at run
    obtain ⟨rfl, normal⟩ := run
    exact ⟨wf, tbl_succ_of_normal table normal, id, fun _ => rfl⟩

end

/-- The three upper levels are in place and nothing is translated differently. -/
theorem ensureTables_spec (wf : WfState s pgtbl) {s' : PtState} {l3 : Nat}
    (run : ensureTables s pgtbl va = some (s', l3)) :
    WfState s' pgtbl ∧ tbl s'.mem pgtbl 3 va = some l3 ∧
      (NoBlocks s.mem pgtbl → NoBlocks s'.mem pgtbl) ∧
      ∀ x, queryInPgtbl s'.mem pgtbl x = queryInPgtbl s.mem pgtbl x := by
  simp only [ensureTables] at run
  split at run
  · rename_i s1 l1 run1
    obtain ⟨wf1, table1, flat1, query1⟩ := getNextPtpAlloc_spec wf (by omega) rfl run1
    split at run
    · rename_i s2 l2 run2
      obtain ⟨wf2, table2, flat2, query2⟩ := getNextPtpAlloc_spec wf1 (by omega) table1 run2
      split at run
      · rename_i s3 l3' run3
        obtain ⟨wf3, table3, flat3, query3⟩ := getNextPtpAlloc_spec wf2 (by omega) table2 run3
        cases run
        exact ⟨wf3, table3, fun flat => flat3 (flat2 (flat1 flat)),
          fun x => (query3 x).trans ((query2 x).trans (query1 x))⟩
      · cases run
    · cases run
  · cases run

end Alloc

end KernelLabs.ChCore
