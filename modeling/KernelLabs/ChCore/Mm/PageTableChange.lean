import KernelLabs.ChCore.Mm.PageTableMap

/-!
# Unmapping and protecting a range

`unmap_range_in_pgtbl` and `mprotect_in_pgtbl` walk the range with a running address.
Where a table of some level is missing they move on by a whole entry of that level
from wherever the running address stands, so that a start in the middle of a missing
entry carries its offset into the entries behind it and mapped pages are jumped over.
`Running` follows the address through the table, and the two functions are exact if and
only if every mapped page of the range lies behind a running address of its 2 MB region.

User tables have no block entries (`map_range_in_pgtbl` writes none), and as in the walk
itself addresses count by their low 48 bits.
-/

set_option autoImplicit false

namespace KernelLabs.ChCore

open Lib

/-- How far the running address moves on from `va`: by a whole entry of the first level
that is missing, or to the end of the last table. -/
def stride (mem : PtMem) (pgtbl va : Nat) : Nat :=
  if tbl mem pgtbl 1 va = none then perEntryPages 0 * pageSize
  else if tbl mem pgtbl 2 va = none then perEntryPages 1 * pageSize
  else if tbl mem pgtbl 3 va = none then perEntryPages 2 * pageSize
  else (ptpEntries - ptIndex 3 va) * pageSize

inductive Running (mem : PtMem) (pgtbl va : Nat) : Nat → Prop where
  | start : Running mem pgtbl va va
  | next (v : Nat) : Running mem pgtbl va v → Running mem pgtbl va (v + stride mem pgtbl v)

open Running

section Running
variable {mem : PtMem} {pgtbl v w : Nat}

theorem Running.ge (run : Running mem pgtbl v w) : v ≤ w := by
  induction run with
  | start => exact le_refl v
  | next w _ ih => omega

theorem running_iff : Running mem pgtbl v w ↔ w = v ∨ Running mem pgtbl (v + stride mem pgtbl v) w := by
  constructor
  · intro run
    induction run with
    | start => exact .inl rfl
    | next w _ ih =>
      rcases ih with rfl | later
      · exact .inr start
      · exact .inr (next w later)
  · rintro (rfl | later)
    · exact start
    · induction later with
      | start => exact next v start
      | next w _ ih => exact next w ih

end Running

/-- The pages the loop reaches between `v` and `stop`: behind a running address, in a 2 MB
region whose last table exists. -/
def Reached (mem : PtMem) (pgtbl v stop page : Nat) : Prop :=
  ∃ w y, Running mem pgtbl v w ∧ w ≤ y ∧ y < stop ∧ y / 2 ^ 21 = w / 2 ^ 21 ∧
    tbl mem pgtbl 3 w ≠ none ∧ pageNo y = page

/-! ## What the loops do to the entries -/

/-- `change` has been done to the entries of the pages in `P` and to nothing else. -/
structure Changed (change : Pte → Pte) (pgtbl : Nat) (mem mem' : PtMem) (P : Nat → Prop) :
    Prop where
  wf : WfTable mem' pgtbl
  upper : ∀ l x f, l ≤ 2 → tbl mem pgtbl l x = some f → mem' f (ptIndex l x) = mem f (ptIndex l x)
  hit : ∀ x f, tbl mem pgtbl 3 x = some f → P (pageNo x) →
    mem' f (ptIndex 3 x) = change (mem f (ptIndex 3 x))
  miss : ∀ x f, tbl mem pgtbl 3 x = some f → ¬ P (pageNo x) →
    mem' f (ptIndex 3 x) = mem f (ptIndex 3 x)

section Changed
variable {change : Pte → Pte} {pgtbl : Nat} {mem mem' mem'' : PtMem} {P Q : Nat → Prop}

section
variable (changed : Changed change pgtbl mem mem' P)
include changed

theorem Changed.tables (l x : Nat) (le : l ≤ 3) : tbl mem' pgtbl l x = tbl mem pgtbl l x := by
  apply tableAt_eq_of_entries
  intro j f below here
  exact changed.upper j x f (by omega) here

theorem Changed.noBlocks (flat : NoBlocks mem pgtbl) : NoBlocks mem' pgtbl := by
  intro l x f le here valid
  rw [changed.tables l x (by omega)] at here
  rw [changed.upper l x f le here] at valid ⊢
  exact flat l x f le here valid

theorem Changed.congr (same : ∀ p, P p ↔ Q p) : Changed change pgtbl mem mem' Q := by
  obtain rfl : P = Q := funext fun p => propext (same p)
  exact changed

end

theorem Changed.unreached (wf : WfTable mem pgtbl) (empty : ∀ p, ¬ P p) :
    Changed change pgtbl mem mem P :=
  ⟨wf, fun _ _ _ _ _ => rfl, fun _ _ _ inP => absurd inP (empty _), fun _ _ _ _ => rfl⟩

theorem Changed.trans (idem : ∀ e, change (change e) = change e)
    (first : Changed change pgtbl mem mem' P) (second : Changed change pgtbl mem' mem'' Q) :
    Changed change pgtbl mem mem'' (fun p => P p ∨ Q p) := by
  have there : ∀ {l x f}, l ≤ 3 → tbl mem pgtbl l x = some f → tbl mem' pgtbl l x = some f := by
    intro l x f le here
    rw [first.tables l x le]
    exact here
  refine ⟨second.wf, ?_, ?_, ?_⟩
  · intro l x f le here
    rw [second.upper l x f le (there (by omega) here), first.upper l x f le here]
  · intro x f here inEither
    by_cases inQ : Q (pageNo x)
    · rw [second.hit x f (there (le_refl 3) here) inQ]
      by_cases inP : P (pageNo x)
      · rw [first.hit x f here inP, idem]
      · rw [first.miss x f here inP]
    · have inP : P (pageNo x) := inEither.resolve_right inQ
      rw [second.miss x f (there (le_refl 3) here) inQ, first.hit x f here inP]
  · intro x f here outside
    rw [second.miss x f (there (le_refl 3) here) fun inQ => outside (.inr inQ),
      first.miss x f here fun inP => outside (.inl inP)]

theorem Changed.reached_iff (changed : Changed change pgtbl mem mem' P) {v stop page : Nat} :
    Reached mem' pgtbl v stop page ↔ Reached mem pgtbl v stop page := by
  have strides : stride mem' pgtbl = stride mem pgtbl := by
    funext x
    simp only [stride, changed.tables 1 x (by omega), changed.tables 2 x (by omega),
      changed.tables 3 x (by omega)]
  have running : ∀ w, Running mem' pgtbl v w ↔ Running mem pgtbl v w := by
    intro w
    constructor
    · intro run
      induction run with
      | start => exact .start
      | next x _ ih => exact strides ▸ .next x ih
    · intro run
      induction run with
      | start => exact .start
      | next x _ ih => exact strides ▸ .next x ih
  simp only [Reached, running, changed.tables 3 _ (le_refl 3)]

theorem changed_setEntry {l3 v : Nat} (wf : WfTable mem pgtbl)
    (table : tbl mem pgtbl 3 v = some l3) :
    Changed change pgtbl mem (setEntry mem l3 (ptIndex 3 v) (change (mem l3 (ptIndex 3 v))))
      (fun p => p = pageNo v) := by
  refine ⟨wf.keep_setEntry table _, ?_, ?_, ?_⟩
  · exact wf.setEntry_upper table _
  · intro x f here page
    have same : SamePage v x := (samePage_iff v x).mpr page.symm
    obtain ⟨path, last⟩ := samePath_succ.mp same
    have frame : l3 = f := by
      have here' : tbl mem pgtbl 3 v = some f := by
        rw [tbl, tableAt_congr 3 path]
        exact here
      rw [table] at here'
      exact Option.some.inj here'
    subst frame
    rw [← last, setEntry_self]
  · intro x f here page
    apply setEntry_of_ne
    rintro ⟨rfl, last⟩
    apply page
    exact ((samePage_iff v x).mp (wf.sharing.samePath (le_refl 3) table here last.symm)).symm

end Changed

/-! ## The loops -/

theorem ptIndex_mod (l va : Nat) : ptIndex l (va % 2 ^ 64) = ptIndex l va := by
  rcases l with _ | _ | _ | l
  all_goals
    simp only [ptIndex, levelShift, ptpEntries]
    omega

theorem getNextPtp_mod (mem : PtMem) (cur l va : Nat) :
    getNextPtp mem cur l (va % 2 ^ 64) = getNextPtp mem cur l va := by
  simp only [getNextPtp, ptIndex_mod]

theorem next_cases {mem : PtMem} {pgtbl l f va : Nat} (wf : WfTable mem pgtbl)
    (flat : NoBlocks mem pgtbl) (le : l ≤ 2) (table : tbl mem pgtbl l va = some f) :
    (getNextPtp mem f l va = .noMapping ∧ tbl mem pgtbl (l + 1) va = none) ∨
      ∃ g, getNextPtp mem f l va = .normal g ∧ tbl mem pgtbl (l + 1) va = some g := by
  by_cases valid : (mem f (ptIndex l va)).isValid = true
  · have isTable := flat l va f le table valid
    have next : tbl mem pgtbl (l + 1) va = some (mem f (ptIndex l va)).pfn.toNat := by
      rw [tbl_succ, table, Option.bind_some, nextTable, valid, isTable]
      rfl
    exact .inr ⟨_, normal_of_tbl_succ (wf.ne_null (by omega) table) table next, next⟩
  · have invalid : (mem f (ptIndex l va)).isValid = false := by simpa using valid
    refine .inl ⟨getNextPtp_of_invalid invalid, ?_⟩
    rw [tbl_succ, table, Option.bind_some, nextTable, invalid]
    rfl

theorem pages_succ {v n p : Nat} : (∃ j, j < n + 1 ∧ p = pageNo (v + j * pageSize)) ↔
    p = pageNo v ∨ ∃ j, j < n ∧ p = pageNo (v + pageSize + j * pageSize) := by
  have next : ∀ j, v + pageSize + j * pageSize = v + (j + 1) * pageSize := by
    intro j
    rw [Nat.add_mul, Nat.one_mul, Nat.add_comm (j * pageSize), Nat.add_assoc]
  simp only [next]
  constructor
  · rintro ⟨j, below, rfl⟩
    cases j with
    | zero => exact .inl (by simp)
    | succ j => exact .inr ⟨j, by omega, rfl⟩
  · rintro (rfl | ⟨j, below, rfl⟩)
    · exact ⟨0, by omega, by simp⟩
    · exact ⟨j + 1, by omega, rfl⟩

section Loops
variable {change : Pte → Pte} (idem : ∀ e, change (change e) = change e) (pgtbl : Nat)

include idem

/-- The `for` loop: as many entries as are left, up to the end of the table. -/
theorem changeEntries_spec (l3 : Nat) : ∀ (fuel i : Nat) (mem : PtMem) (v left : Nat), 0 < fuel →
    0 < left → i + fuel = ptpEntries → ptIndex 3 v = i → WfTable mem pgtbl →
    tbl mem pgtbl 3 v = some l3 → ∃ mem', changeEntries change l3 fuel i mem (v % 2 ^ 64) left =
        (mem', (v + min left fuel * pageSize) % 2 ^ 64, left - min left fuel) ∧
      Changed change pgtbl mem mem'
        (fun p => ∃ j, j < min left fuel ∧ p = pageNo (v + j * pageSize)) := by
  intro fuel
  induction fuel with
  | zero => intro i mem v left pos; omega
  | succ fuel ih =>
    intro i mem v left _ some_left sum index wf table
    subst index
    have one : Changed change pgtbl mem _ _ := changed_setEntry wf table
    have address : addU64 (v % 2 ^ 64) pageSize = (v + pageSize) % 2 ^ 64 := by
      simp only [addU64, pageSize]
      omega
    have count : min left (fuel + 1) = min (left - 1) fuel + 1 := by omega
    simp only [changeEntries, address, count, pages_succ]
    generalize setEntry mem l3 (ptIndex 3 v) (change (mem l3 (ptIndex 3 v))) = mem1 at one ⊢
    by_cases last : left - 1 = 0 ∨ fuel = 0
    · have none : min (left - 1) fuel = 0 := by omega
      rw [none, Nat.zero_add, Nat.one_mul]
      refine ⟨mem1, ?_, one.congr fun p => by simp⟩
      by_cases lastPage : left - 1 = 0
      · rw [if_pos lastPage, lastPage]
      · obtain rfl := last.resolve_left lastPage
        rw [if_neg lastPage]
        rfl
    · rw [if_neg fun lastPage => last (.inl lastPage)]
      obtain ⟨path, nextIndex⟩ := samePath_next v (by omega)
      have next : tbl mem1 pgtbl 3 (v + pageSize) = some l3 := by
        rw [one.tables 3 _ (le_refl 3), tbl, ← tableAt_congr 3 path]
        exact table
      obtain ⟨mem', run, rest⟩ := ih (ptIndex 3 v + 1) mem1 (v + pageSize) (left - 1) (by omega)
        (by omega) (by omega) nextIndex one.wf next
      refine ⟨mem', ?_, one.trans idem rest⟩
      rw [run]
      simp only [Prod.mk.injEq, true_and, pageSize]
      omega

end Loops

section Reached
variable {mem : PtMem} {pgtbl v stop p : Nat}

theorem not_reached_of_le (past : stop ≤ v) : ¬ Reached mem pgtbl v stop p := by
  rintro ⟨w, y, run, behind, before, _⟩
  have := run.ge
  omega

theorem reached_of_missing (missing : tbl mem pgtbl 3 v = none) :
    Reached mem pgtbl v stop p ↔ Reached mem pgtbl (v + stride mem pgtbl v) stop p := by
  constructor
  · rintro ⟨w, y, run, rest⟩
    rcases running_iff.mp run with rfl | later
    · exact absurd missing rest.2.2.2.1
    · exact ⟨w, y, later, rest⟩
  · rintro ⟨w, y, run, rest⟩
    exact ⟨w, y, running_iff.mpr (.inr run), rest⟩

theorem reached_of_present (left : Nat) (aligned : v % pageSize = 0)
    (present : tbl mem pgtbl 3 v ≠ none) : Reached mem pgtbl v (v + left * pageSize) p ↔
      (∃ j, j < min left (ptpEntries - ptIndex 3 v) ∧ p = pageNo (v + j * pageSize)) ∨
        Reached mem pgtbl (v + min left (ptpEntries - ptIndex 3 v) * pageSize)
          (v + left * pageSize) p := by
  have inTable : ptIndex 3 v < ptpEntries := Nat.mod_lt _ (by decide)
  have upper : ∀ l, l ≤ 3 → tbl mem pgtbl l v ≠ none := by
    intro l le missing
    exact present (tableAt_none_mono le missing)
  have step : stride mem pgtbl v = (ptpEntries - ptIndex 3 v) * pageSize := by
    rw [stride, if_neg (upper 1 (by omega)), if_neg (upper 2 (by omega)), if_neg present]
  constructor
  · rintro ⟨w, y, run, behind, before, region, rest⟩
    rcases running_iff.mp run with rfl | later
    · refine .inl ⟨(y - w) / pageSize, ?_, ?_⟩
      · simp only [ptIndex, levelShift, ptpEntries, pageSize] at *
        omega
      · rw [← rest.2]
        simp only [pageNo, pageSize] at *
        omega
    · rw [step] at later
      have ahead := later.ge
      have whole : min left (ptpEntries - ptIndex 3 v) = ptpEntries - ptIndex 3 v := by
        simp only [pageSize] at *
        omega
      rw [whole]
      exact .inr ⟨w, y, later, behind, before, region, rest⟩
  · rintro (⟨j, below, rfl⟩ | ⟨w, y, run, behind, before, rest⟩)
    · refine ⟨v, v + j * pageSize, start, by omega, ?_, ?_, present, rfl⟩
      · simp only [pageSize]
        omega
      · simp only [ptIndex, levelShift, ptpEntries, pageSize] at *
        omega
    have ahead := run.ge
    have whole : min left (ptpEntries - ptIndex 3 v) = ptpEntries - ptIndex 3 v := by
      simp only [pageSize] at *
      omega
    rw [whole, ← step] at run
    exact ⟨w, y, running_iff.mpr (.inr run), behind, before, rest⟩

theorem reached_skip {left : Nat} {pages : Nat} (step : stride mem pgtbl v = pages * pageSize)
    (missing : tbl mem pgtbl 3 v = none) :
    Reached mem pgtbl (v + pages * pageSize) (v + pages * pageSize + (left - pages) * pageSize) p ↔
      Reached mem pgtbl v (v + left * pageSize) p := by
  rw [reached_of_missing missing, step]
  by_cases whole : pages ≤ left
  · have stop : v + pages * pageSize + (left - pages) * pageSize = v + left * pageSize := by
      simp only [pageSize]
      omega
    rw [stop]
  · refine iff_of_false (not_reached_of_le ?_) (not_reached_of_le ?_)
    · simp only [pageSize]
      omega
    · simp only [pageSize]
      omega

end Reached

section Ranges
variable {change : Pte → Pte} (idem : ∀ e, change (change e) = change e) {pgtbl : Nat}

include idem

/-- The `while` loop changes exactly the pages it reaches.  `mem₀` is the table before the
call: the upper levels stay as they were. -/
theorem changeLoop_spec (mem0 : PtMem) : ∀ (fuel : Nat) (mem : PtMem) (v left : Nat), left ≤ fuel →
    WfTable mem pgtbl → NoBlocks mem pgtbl → v % pageSize = 0 →
    (∀ l x, l ≤ 3 → tbl mem pgtbl l x = tbl mem0 pgtbl l x) →
    Changed change pgtbl mem (changeLoop change pgtbl fuel mem (v % 2 ^ 64) left)
      (Reached mem0 pgtbl v (v + left * pageSize)) := by
  intro fuel
  induction fuel with
  | zero =>
    intro mem v left enough wf _ _ _
    obtain rfl : left = 0 := by omega
    exact Changed.unreached wf (fun p => not_reached_of_le (by omega))
  | succ fuel ih =>
    intro mem v left enough wf flat aligned same
    simp only [changeLoop, getNextPtp_mod, ptIndex_mod]
    by_cases done : left = 0
    · subst done
      exact Changed.unreached wf (fun p => not_reached_of_le (by omega))
    rw [if_neg done]
    -- moving on by a whole entry
    have skip : ∀ level, stride mem0 pgtbl v = perEntryPages level * pageSize →
        0 < perEntryPages level → tbl mem0 pgtbl 3 v = none →
        Changed change pgtbl mem (changeLoop change pgtbl fuel mem
          (addU64 (v % 2 ^ 64) (perEntryPages level * pageSize)) (left - perEntryPages level))
          (Reached mem0 pgtbl v (v + left * pageSize)) := by
      intro level step pos missing
      have address : addU64 (v % 2 ^ 64) (perEntryPages level * pageSize) =
          (v + perEntryPages level * pageSize) % 2 ^ 64 := by
        rw [addU64, Nat.mod_add_mod]
      rw [address]
      have rest := ih mem (v + perEntryPages level * pageSize) (left - perEntryPages level)
        (by omega) wf flat (by simp only [pageSize] at aligned ⊢; omega) same
      exact rest.congr fun p => reached_skip step missing
    have root : tbl mem pgtbl 0 v = some pgtbl := rfl
    rcases next_cases wf flat (by omega) root with ⟨next, none⟩ | ⟨l1, next, table1⟩
    · simp only [next]
      rw [same 1 v (by omega)] at none
      exact skip 0 (by rw [stride, if_pos none]) (by decide) (tableAt_none_mono (by omega) none)
    simp only [next]
    have there1 : tbl mem0 pgtbl 1 v ≠ none := by rw [← same 1 v (by omega), table1]; simp
    rcases next_cases wf flat (by omega) table1 with ⟨next, none⟩ | ⟨l2, next, table2⟩
    · simp only [next]
      rw [same 2 v (by omega)] at none
      exact skip 1 (by rw [stride, if_neg there1, if_pos none]) (by decide)
        (tableAt_none_mono (by omega) none)
    simp only [next]
    have there2 : tbl mem0 pgtbl 2 v ≠ none := by rw [← same 2 v (by omega), table2]; simp
    rcases next_cases wf flat (by omega) table2 with ⟨next, none⟩ | ⟨l3, next, table3⟩
    · simp only [next]
      rw [same 3 v (by omega)] at none
      exact skip 2 (by rw [stride, if_neg there1, if_neg there2, if_pos none]) (by decide) none
    simp only [next]
    have inTable : ptIndex 3 v < ptpEntries := Nat.mod_lt _ (by decide)
    have there3 : tbl mem0 pgtbl 3 v ≠ none := by rw [← same 3 v (by omega), table3]; simp
    obtain ⟨mem', run, changed⟩ := changeEntries_spec idem pgtbl l3
      (ptpEntries - ptIndex 3 v) (ptIndex 3 v) mem v left (by omega) (by omega) (by omega)
      rfl wf table3
    rw [run]
    have rest := ih mem' (v + min left (ptpEntries - ptIndex 3 v) * pageSize)
      (left - min left (ptpEntries - ptIndex 3 v)) (by omega) changed.wf
      (changed.noBlocks flat) (by simp only [pageSize] at aligned ⊢; omega)
      (fun l x le => (changed.tables l x le).trans (same l x le))
    refine (changed.trans idem rest).congr ?_
    intro p
    rw [reached_of_present left aligned there3]
    have stop : v + min left (ptpEntries - ptIndex 3 v) * pageSize +
        (left - min left (ptpEntries - ptIndex 3 v)) * pageSize = v + left * pageSize := by
      simp only [pageSize]
      omega
    rw [stop]

end Ranges

/-! ## Ranges that do not start at a page

The loops look at the page of the running address only.
-/

section Floor
variable {x y : Nat} (same : x / pageSize = y / pageSize)

include same

theorem ptIndex_floor (l : Nat) : ptIndex l x = ptIndex l y := by
  simp only [pageSize] at same
  rcases l with _ | _ | _ | l
  all_goals
    simp only [ptIndex, levelShift, ptpEntries]
    omega

theorem getNextPtp_floor (mem : PtMem) (cur l : Nat) :
    getNextPtp mem cur l x = getNextPtp mem cur l y := by
  simp only [getNextPtp, ptIndex_floor same]

theorem addU64_floor (pages : Nat) :
    addU64 x (pages * pageSize) / pageSize = addU64 y (pages * pageSize) / pageSize := by
  simp only [addU64, pageSize] at *
  omega

end Floor

theorem changeEntries_floor (change : Pte → Pte) (l3 : Nat) : ∀ (fuel i : Nat) (mem : PtMem)
    (x y left : Nat), x / pageSize = y / pageSize →
    ∃ mem' x' y' left', changeEntries change l3 fuel i mem x left = (mem', x', left') ∧
      changeEntries change l3 fuel i mem y left = (mem', y', left') ∧
      x' / pageSize = y' / pageSize := by
  intro fuel
  induction fuel with
  | zero =>
    intro i mem x y left same
    exact ⟨mem, x, y, left, rfl, rfl, same⟩
  | succ fuel ih =>
    intro i mem x y left same
    have next : addU64 x pageSize / pageSize = addU64 y pageSize / pageSize := by
      simpa using addU64_floor same 1
    simp only [changeEntries]
    by_cases last : left - 1 = 0
    · simp only [last, if_true]
      exact ⟨_, _, _, 0, rfl, rfl, next⟩
    · simp only [last, if_false]
      exact ih _ _ _ _ _ next

theorem changeLoop_floor (change : Pte → Pte) (pgtbl : Nat) : ∀ (fuel : Nat) (mem : PtMem)
    (x y left : Nat), x / pageSize = y / pageSize →
    changeLoop change pgtbl fuel mem x left = changeLoop change pgtbl fuel mem y left := by
  intro fuel
  induction fuel with
  | zero => intro mem x y left _; rfl
  | succ fuel ih =>
    intro mem x y left same
    have skip : ∀ level,
        changeLoop change pgtbl fuel mem (addU64 x (perEntryPages level * pageSize))
            (left - perEntryPages level) =
          changeLoop change pgtbl fuel mem (addU64 y (perEntryPages level * pageSize))
            (left - perEntryPages level) := by
      intro level
      exact ih _ _ _ _ (addU64_floor same (perEntryPages level))
    have entries : ∀ l3,
        let rx := changeEntries change l3 (ptpEntries - ptIndex 3 y) (ptIndex 3 y) mem x left
        let ry := changeEntries change l3 (ptpEntries - ptIndex 3 y) (ptIndex 3 y) mem y left
        changeLoop change pgtbl fuel rx.1 rx.2.1 rx.2.2 =
          changeLoop change pgtbl fuel ry.1 ry.2.1 ry.2.2 := by
      intro l3
      obtain ⟨mem', x', y', left', runX, runY, same'⟩ :=
        changeEntries_floor change l3 (ptpEntries - ptIndex 3 y) (ptIndex 3 y) mem x y left same
      rw [runX, runY]
      exact ih mem' x' y' left' same'
    simp only [changeLoop, getNextPtp_floor same, ptIndex_floor same, skip, entries]

section
variable {change : Pte → Pte} (idem : ∀ e, change (change e) = change e) {mem : PtMem}
  {pgtbl va len : Nat} (wf : WfTable mem pgtbl) (flat : NoBlocks mem pgtbl) (vaBound : va < 2 ^ 64)
include idem wf flat vaBound

theorem changeRange_floor (whole : (va + len) % pageSize = 0) :
    Changed change pgtbl mem (changeRange change mem pgtbl va len)
      (Reached mem pgtbl (va / pageSize * pageSize) (va + len)) := by
  have loop := changeLoop_spec idem mem (pageCount len) mem (va / pageSize * pageSize)
    (pageCount len) (le_refl _) wf flat (Nat.mul_mod_left _ _) (fun _ _ _ => rfl)
  have stop : va / pageSize * pageSize + pageCount len * pageSize = va + len := by
    unfold pageCount
    split <;> (simp only [pageSize] at *; omega)
  have bound : va / pageSize * pageSize < 2 ^ 64 :=
    lt_of_le_of_lt (Nat.div_mul_le_self va pageSize) vaBound
  rw [stop, Nat.mod_eq_of_lt bound] at loop
  have root : tbl mem pgtbl 0 va = some pgtbl := rfl
  rw [changeRange, if_neg (wf.ne_null (by omega) root),
    changeLoop_floor change pgtbl _ mem va (va / pageSize * pageSize) _
      (Nat.mul_div_cancel _ (by decide)).symm]
  exact loop

theorem changeRange_spec (vaAligned : va % pageSize = 0) (lenAligned : len % pageSize = 0) :
    Changed change pgtbl mem (changeRange change mem pgtbl va len)
      (Reached mem pgtbl va (va + len)) := by
  have changed := changeRange_floor idem wf flat vaBound
    (show (va + len) % pageSize = 0 by rw [Nat.add_mod, vaAligned, lenAligned]; rfl)
  rwa [Nat.div_mul_cancel (Nat.dvd_of_mod_eq_zero vaAligned)] at changed

end

/-! ## Exactness -/

def InRange (va len x : Nat) : Prop := ∃ y, va ≤ y ∧ y < va + len ∧ y % 2 ^ 48 = x % 2 ^ 48

def UnmapExact (mem : PtMem) (pgtbl va len : Nat) : Prop :=
  ∀ x, (InRange va len x → queryInPgtbl (unmapRangeInPgtbl mem pgtbl va len) pgtbl x = none) ∧
    (¬ InRange va len x →
      queryInPgtbl (unmapRangeInPgtbl mem pgtbl va len) pgtbl x = queryInPgtbl mem pgtbl x)

def MprotectExact (mem : PtMem) (pgtbl va len flags : Nat) : Prop :=
  ∀ x, (InRange va len x → ∀ t, queryInPgtbl mem pgtbl x = some t →
      ∃ t', queryInPgtbl (mprotectInPgtbl mem pgtbl va len flags) pgtbl x = some t' ∧
        t'.pa = t.pa ∧ HasFlags t'.entry flags) ∧
    (¬ InRange va len x ∨ queryInPgtbl mem pgtbl x = none →
      queryInPgtbl (mprotectInPgtbl mem pgtbl va len flags) pgtbl x = queryInPgtbl mem pgtbl x)

/-- The address lies behind a running address that starts at `va`, before `stop` and in the
2 MB region of the running address. -/
def Behind (mem : PtMem) (pgtbl va stop x : Nat) : Prop :=
  ∃ w y, Running mem pgtbl va w ∧ w ≤ y ∧ y < stop ∧ y % 2 ^ 48 = x % 2 ^ 48 ∧
    y / 2 ^ 21 = w / 2 ^ 21

/-- Every mapped page of the range lies behind a running address, in the 2 MB region of
that address. -/
def NoneJumped (mem : PtMem) (pgtbl va len : Nat) : Prop :=
  ∀ y, va ≤ y → y < va + len → queryInPgtbl mem pgtbl y ≠ none →
    Behind mem pgtbl va (va + len) y

section Exact
variable {mem mem' : PtMem} {pgtbl va len x : Nat}

/-- A translation depends on the low 48 bits of the address only. -/
theorem query_mod (mem : PtMem) (pgtbl : Nat) {y : Nat} (same : x % 2 ^ 48 = y % 2 ^ 48) :
    queryInPgtbl mem pgtbl x = queryInPgtbl mem pgtbl y := by
  have page : SamePage x y := by
    rw [samePage_iff, pageNo, pageNo, same]
  have next : ∀ l f, l < 4 → getNextPtp mem f l x = getNextPtp mem f l y := by
    intro l f below
    simp only [getNextPtp, page l below]
  have offset : ∀ l f n, 0 < l → l < 4 → translation mem f l x n = translation mem f l y n := by
    intro l f n pos below
    simp only [translation, page l below, Translation.mk.injEq, and_true]
    obtain rfl | rfl | rfl : l = 1 ∨ l = 2 ∨ l = 3 := by omega
    all_goals
      simp only [levelShift]
      omega
  simp only [queryInPgtbl, next 0 _ (by omega), next 1 _ (by omega), next 2 _ (by omega),
    next 3 _ (by omega), offset 1 _ _ (by omega) (by omega), offset 2 _ _ (by omega) (by omega),
    offset 3 _ _ (by omega) (by omega)]

theorem query_none_of_missing (wf : WfTable mem pgtbl) (flat : NoBlocks mem pgtbl)
    (missing : tbl mem pgtbl 3 x = none) : queryInPgtbl mem pgtbl x = none := by
  unfold queryInPgtbl
  have root : tbl mem pgtbl 0 x = some pgtbl := rfl
  rcases next_cases wf flat (by omega) root with ⟨next, _⟩ | ⟨l1, next, table1⟩
  · simp only [next]
  rcases next_cases wf flat (by omega) table1 with ⟨next1, _⟩ | ⟨l2, next1, table2⟩
  · simp only [next, next1]
  · rcases next_cases wf flat (by omega) table2 with ⟨next2, _⟩ | ⟨l3, next2, table3⟩
    · simp only [next, next1, next2]
    · rw [missing] at table3
      cases table3

theorem Running.aligned {w : Nat} (run : Running mem pgtbl va w) (start : va % pageSize = 0) :
    w % pageSize = 0 := by
  induction run with
  | start => exact start
  | next v _ ih =>
    have whole : stride mem pgtbl v % pageSize = 0 := by
      unfold stride
      split
      · decide
      · split
        · decide
        · split
          · decide
          · exact Nat.mul_mod_left _ _
    rw [Nat.add_mod, ih, whole]
    rfl

theorem Reached.behind {stop : Nat} (start : va % pageSize = 0) (whole : stop % pageSize = 0)
    (reached : Reached mem pgtbl va stop (pageNo x)) : Behind mem pgtbl va stop x := by
  obtain ⟨w, y, run, behind, before, region, _, page⟩ := reached
  have aligned := run.aligned start
  refine ⟨w, y / pageSize * pageSize + x % pageSize, run, ?_, ?_, ?_, ?_⟩
  all_goals
    simp only [pageNo, pageSize] at *
    omega

theorem reached_of_behind (wf : WfTable mem pgtbl) (flat : NoBlocks mem pgtbl) {stop : Nat}
    (mapped : queryInPgtbl mem pgtbl x ≠ none) (behind : Behind mem pgtbl va stop x) :
    Reached mem pgtbl va stop (pageNo x) := by
  obtain ⟨w, y, run, after, before, same, region⟩ := behind
  refine ⟨w, y, run, after, before, region, ?_, by rw [pageNo, pageNo, same]⟩
  -- `w` and the mapped page lie under the same last table
  have path : SamePath ptIndex 3 y w := by
    intro j below
    obtain rfl | rfl | rfl : j = 0 ∨ j = 1 ∨ j = 2 := by omega
    all_goals
      simp only [ptIndex, levelShift, ptpEntries]
      omega
  rw [tbl, ← tableAt_congr 3 path]
  intro missing
  rw [← query_mod mem pgtbl same] at mapped
  exact mapped (query_none_of_missing wf flat missing)

theorem reached_of_noneJumped (wf : WfTable mem pgtbl) (flat : NoBlocks mem pgtbl)
    (jumped : NoneJumped mem pgtbl va len) (inside : InRange va len x)
    (mapped : queryInPgtbl mem pgtbl x ≠ none) : Reached mem pgtbl va (va + len) (pageNo x) := by
  obtain ⟨y, after, before, same⟩ := inside
  rw [← query_mod mem pgtbl same] at mapped
  have page : pageNo x = pageNo y := by rw [pageNo, pageNo, same]
  rw [page]
  exact reached_of_behind wf flat mapped (jumped y after before mapped)

variable {P : Nat → Prop} {change : Pte → Pte}

theorem Changed.query_miss (wf : WfTable mem pgtbl) (changed : Changed change pgtbl mem mem' P)
    (x : Nat) (outside : ¬ P (pageNo x)) :
    queryInPgtbl mem' pgtbl x = queryInPgtbl mem pgtbl x := by
  apply wf.query_congr
  intro l f le here
  by_cases upper : l ≤ 2
  · exact changed.upper l x f upper here
  · obtain rfl : l = 3 := by omega
    exact changed.miss x f here outside

theorem Changed.query_hit (changed : Changed change pgtbl mem mem' P) {f : Nat}
    (table : tbl mem pgtbl 3 x = some f) (inside : P (pageNo x)) : queryInPgtbl mem' pgtbl x =
      if (change (mem f (ptIndex 3 x))).isValid then
        some { pa := (change (mem f (ptIndex 3 x))).pfn.toNat * pageSize + x % 2 ^ levelShift 3
               frame := f, index := ptIndex 3 x, entry := change (mem f (ptIndex 3 x)) }
      else none := by
  have table' : tbl mem' pgtbl 3 x = some f := by
    rw [changed.tables 3 x (le_refl 3)]
    exact table
  rw [changed.wf.query_leaf table', translation, changed.hit x f table inside]

theorem clearPte_idem (e : Pte) : clearPte (clearPte e) = clearPte e := rfl

theorem protectPte_idem (flags : Nat) (e : Pte) :
    protectPte flags (protectPte flags e) = protectPte flags e := by
  cases valid : e.isValid <;> simp [protectPte, valid, setPteFlags]

theorem protectPte_isValid (flags : Nat) (e : Pte) : (protectPte flags e).isValid = e.isValid := by
  unfold protectPte
  split <;> rfl

theorem Changed.query_cleared (flat : NoBlocks mem pgtbl)
    (changed : Changed clearPte pgtbl mem mem' P) (inside : P (pageNo x)) :
    queryInPgtbl mem' pgtbl x = none := by
  cases table : tbl mem pgtbl 3 x with
  | none =>
    rw [← changed.tables 3 x (le_refl 3)] at table
    exact query_none_of_missing changed.wf (changed.noBlocks flat) table
  | some f =>
    rw [changed.query_hit table inside]
    rfl

section
variable (wf : WfTable mem pgtbl) (flat : NoBlocks mem pgtbl) (vaBound : va < 2 ^ 64)
  (vaAligned : va % pageSize = 0) (lenAligned : len % pageSize = 0)
include wf flat vaBound vaAligned lenAligned

theorem unmapExact_iff : UnmapExact mem pgtbl va len ↔ NoneJumped mem pgtbl va len := by
  have changed : Changed clearPte pgtbl mem (unmapRangeInPgtbl mem pgtbl va len)
      (Reached mem pgtbl va (va + len)) :=
    changeRange_spec clearPte_idem wf flat vaBound vaAligned lenAligned
  have whole : (va + len) % pageSize = 0 := by rw [Nat.add_mod, vaAligned, lenAligned]; rfl
  constructor
  · intro exact y after before mapped
    have gone := (exact y).1 ⟨y, after, before, rfl⟩
    have reached : Reached mem pgtbl va (va + len) (pageNo y) := by
      by_contra missed
      rw [changed.query_miss wf y missed] at gone
      exact mapped gone
    exact reached.behind vaAligned whole
  intro jumped x
  refine ⟨?_, ?_⟩
  · intro inside
    by_cases reached : Reached mem pgtbl va (va + len) (pageNo x)
    · exact changed.query_cleared flat reached
    · rw [changed.query_miss wf x reached]
      by_contra mapped
      exact reached (reached_of_noneJumped wf flat jumped inside mapped)
  · intro outside
    apply changed.query_miss wf x
    intro reached
    obtain ⟨w, y, run, behind, stop, same, _⟩ := reached.behind vaAligned whole
    exact outside ⟨y, le_trans run.ge behind, stop, same⟩

theorem mprotectExact_of_noneJumped (jumped : NoneJumped mem pgtbl va len) (flags : Nat) :
    MprotectExact mem pgtbl va len flags := by
  have changed : Changed (protectPte flags) pgtbl mem (mprotectInPgtbl mem pgtbl va len flags)
      (Reached mem pgtbl va (va + len)) :=
    changeRange_spec (protectPte_idem flags) wf flat vaBound vaAligned lenAligned
  intro x
  refine ⟨?_, ?_⟩
  · intro inside t found
    have reached := reached_of_noneJumped wf flat jumped inside (by rw [found]; simp)
    rcases table : tbl mem pgtbl 3 x with _ | f
    · rw [query_none_of_missing wf flat table] at found
      cases found
    rw [wf.query_leaf table] at found
    obtain ⟨valid, found⟩ := Option.ite_none_right_eq_some.mp found
    cases found
    have same : protectPte flags (mem f (ptIndex 3 x)) = setPteFlags (mem f (ptIndex 3 x)) flags :=
      if_pos valid
    refine ⟨_, by rw [changed.query_hit table reached, protectPte_isValid, if_pos valid], ?_, ?_⟩
    · simp only [same]
      rfl
    · simp only [same]
      exact setPteFlags_hasFlags _ flags
  · intro outside
    by_cases reached : Reached mem pgtbl va (va + len) (pageNo x)
    · rcases outside with out | unmapped
      · have whole : (va + len) % pageSize = 0 := by rw [Nat.add_mod, vaAligned, lenAligned]; rfl
        obtain ⟨w, y, run, behind, stop, same, _⟩ := reached.behind vaAligned whole
        exact absurd ⟨y, le_trans run.ge behind, stop, same⟩ out
      cases table : tbl mem pgtbl 3 x with
      | none =>
        have table' : tbl (mprotectInPgtbl mem pgtbl va len flags) pgtbl 3 x = none := by
          rw [changed.tables 3 x (le_refl 3)]
          exact table
        rw [unmapped, query_none_of_missing changed.wf (changed.noBlocks flat) table']
      | some f =>
        rw [changed.query_hit table reached, unmapped]
        rw [wf.query_leaf table] at unmapped
        split at unmapped
        · cases unmapped
        · rename_i invalid
          rw [protectPte_isValid, if_neg invalid]
    · exact changed.query_miss wf x reached

end

/-- Unmapping and protecting are exact if and only if no mapped page is jumped over. -/
theorem unmap_mprotect_exact_iff (wf : WfTable mem pgtbl) (flat : NoBlocks mem pgtbl)
    (vaBound : va < 2 ^ 64) (vaAligned : va % pageSize = 0) (lenAligned : len % pageSize = 0) :
    (UnmapExact mem pgtbl va len ∧ ∀ flags, MprotectExact mem pgtbl va len flags) ↔
      NoneJumped mem pgtbl va len := by
  rw [unmapExact_iff wf flat vaBound vaAligned lenAligned]
  constructor
  · exact And.left
  · intro jumped
    exact ⟨jumped, mprotectExact_of_noneJumped wf flat vaBound vaAligned lenAligned jumped⟩

end Exact

def onePage : PtState :=
  (mapRangeInPgtbl emptyTables 1 0x200000 0x40000000 0x1000 2).get (by decide +kernel)

def acrossTables : PtState :=
  (mapRangeInPgtbl emptyTables 1 0x1ff000 0x40000000 (2 * pageSize) 2).get (by decide +kernel)

theorem wf_of_map_empty {va len : Nat} {s' : PtState} (vaAligned : va % pageSize = 0)
    (lenAligned : len % pageSize = 0) (bound : va + len ≤ 2 ^ 48)
    (returns : mapRangeInPgtbl emptyTables 1 va 0x40000000 len 2 = some s') :
    WfState s' 1 ∧ NoBlocks s'.mem 1 := by
  obtain ⟨wf, flat, _⟩ := mapRangeInPgtbl_spec emptyTables s' 1 va 0x40000000 len 2
    emptyTables_wf vaAligned (by decide) lenAligned bound returns
  exact ⟨wf, flat emptyTables_noBlocks⟩

theorem onePage_wf : WfState onePage 1 ∧ NoBlocks onePage.mem 1 :=
  wf_of_map_empty (by decide) (by decide) (by decide) (Option.some_get _).symm

theorem acrossTables_wf : WfState acrossTables 1 ∧ NoBlocks acrossTables.mem 1 :=
  wf_of_map_empty (by decide) (by decide) (by decide) (Option.some_get _).symm

theorem unmap_mprotect_exact_across_tables : UnmapExact acrossTables.mem 1 0x1ff000 0x2000 ∧
      ∀ flags, MprotectExact acrossTables.mem 1 0x1ff000 0x2000 flags := by
  refine (unmap_mprotect_exact_iff acrossTables_wf.1.toWfTable acrossTables_wf.2 (by decide)
    (by decide) (by decide)).mpr ?_
  intro y after before _
  by_cases first : y < 0x200000
  · exact ⟨0x1ff000, y, start, after, before, rfl, by omega⟩
  · have step : stride acrossTables.mem 1 0x1ff000 = 0x1000 := by decide +kernel
    refine ⟨_, y, .next _ start, ?_⟩
    rw [step]
    exact ⟨by omega, before, rfl, by omega⟩

/-- The unmapping starts in the first 2 MB region, whose table is missing, and moves on to
the second page of the second region. -/
theorem unmap_jumps_over_page :
    WfTable onePage.mem 1 ∧ NoBlocks onePage.mem 1 ∧ ¬ UnmapExact onePage.mem 1 0x1000 0x200000 := by
  refine ⟨onePage_wf.1.toWfTable, onePage_wf.2, ?_⟩
  intro exact
  have gone := (exact 0x200000).1 ⟨0x200000, by decide, by decide, rfl⟩
  revert gone
  decide +kernel

/-! ## Mapping and unmapping a range -/

section Mapped
variable {pgtbl va len : Nat} (vaAligned : va % pageSize = 0)
include vaAligned

theorem noneJumped_of_mapped {mem : PtMem} (wf : WfTable mem pgtbl) (flat : NoBlocks mem pgtbl)
    (mapped : ∀ y, va ≤ y → y < va + len → queryInPgtbl mem pgtbl y ≠ none) :
    NoneJumped mem pgtbl va len := by
  intro y after before _
  -- the running address goes from one 2 MB region to the next, up to that of `y`
  have reach : ∀ d w, Running mem pgtbl va w → w ≤ y → y < w + d →
      ∃ w', Running mem pgtbl va w' ∧ w' ≤ y ∧ y / 2 ^ 21 = w' / 2 ^ 21 := by
    intro d
    induction d with
    | zero => intro w _ behind near; omega
    | succ d ih =>
      intro w run behind near
      by_cases region : y / 2 ^ 21 = w / 2 ^ 21
      · exact ⟨w, run, behind, region⟩
      have present : ∀ l, l ≤ 3 → tbl mem pgtbl l w ≠ none := fun l le missing =>
        mapped w run.ge (by omega) (query_none_of_missing wf flat (tableAt_none_mono le missing))
      have step : stride mem pgtbl w = (ptpEntries - ptIndex 3 w) * pageSize := by
        simp [stride, present]
      have aligned := run.aligned vaAligned
      simp only [ptIndex, levelShift, ptpEntries, pageSize] at step aligned
      exact ih _ (.next w run) (by omega) (by omega)
  obtain ⟨w, run, behind, region⟩ := reach (len + 1) va start after (by omega)
  exact ⟨w, y, run, behind, before, rfl, region⟩

/-- Unmapping a range that was mapped undoes the mapping: nothing of the range is left, and every
other address translates as before. -/
theorem unmap_after_map (s s' : PtState) (pa flags : Nat) (wf : WfState s pgtbl)
    (flat : NoBlocks s.mem pgtbl) (paAligned : pa % pageSize = 0) (lenAligned : len % pageSize = 0)
    (bound : va + len ≤ 2 ^ 48) (returns : mapRangeInPgtbl s pgtbl va pa len flags = some s')
    (x : Nat) : queryInPgtbl (unmapRangeInPgtbl s'.mem pgtbl va len) pgtbl x =
      if va ≤ x % 2 ^ 48 ∧ x % 2 ^ 48 < va + len then none else queryInPgtbl s.mem pgtbl x := by
  obtain ⟨wf', flat', mapped⟩ := mapRangeInPgtbl_spec s s' pgtbl va pa len flags wf vaAligned
    paAligned lenAligned bound returns
  have count := pageCount_mul lenAligned
  have jumped : NoneJumped s'.mem pgtbl va len := by
    refine noneJumped_of_mapped vaAligned wf'.toWfTable (flat' flat) fun y after before => ?_
    simp only [pageSize] at vaAligned count
    obtain ⟨t, found, _⟩ := mapped.inside ((y - va) / pageSize) y
      (by simp only [pageSize]; omega) (by simp only [pageNo, pageSize]; omega)
    simp [found]
  obtain ⟨inside, outside⟩ := (unmapExact_iff wf'.toWfTable (flat' flat) (by omega) vaAligned
    lenAligned).mpr jumped x
  split
  · next here => exact inside ⟨x % 2 ^ 48, here.1, here.2, Nat.mod_mod _ _⟩
  · next elsewhere =>
    simp only [pageSize] at vaAligned count
    rw [outside (by rintro ⟨y, after, before, same⟩; omega), mapped.outside x]
    simp only [pageNo, pageSize]
    omega

end Mapped

theorem unmap_after_map_across_tables :
    queryInPgtbl (unmapRangeInPgtbl acrossTables.mem 1 0x1ff000 0x2000) 1 0x200010 = none :=
  unmap_after_map (by decide) emptyTables acrossTables 0x40000000 2 emptyTables_wf emptyTables_noBlocks
    (by decide) (by decide) (by decide) (Option.some_get _).symm 0x200010

end KernelLabs.ChCore
