import KernelLabs.Lib.Runs
import KernelLabs.Xv6.Kalloc

/-!
# When `kalloc` finds no page

Calls of `kalloc` and `kfree` executed one after the other, each on any CPU.  `stealmem` takes half
of a list, so it takes nothing from a list with one page: `kalloc` can return 0 while other CPUs
still have a free page each.
-/

set_option autoImplicit false

namespace KernelLabs.Xv6

open Lib Function

structure Pool where
  mem : Mem
  allocated : Nat → Bool

inductive Call where
  | kalloc (mcpu : Cpu)
  | kfree (pa : Nat) (mcpu : Cpu)
  deriving DecidableEq, Repr

def callStep (image : Nat) (s : Pool) : Call → Pool
  | .kalloc mcpu =>
    let result := kalloc s.mem mcpu
    ⟨result.2,
      if result.1 ≠ 0 then update s.allocated result.1 true else s.allocated⟩
  | .kfree pa mcpu =>
    match kfree image s.mem pa mcpu with
    | some mem => ⟨mem, update s.allocated pa false⟩
    | none => s

def bootPool (image : Nat) (next : Nat → Nat) : Pool := ⟨bootMem image next, fun _ => false⟩

def FreesAllocated (s : Pool) : Call → Prop
  | .kalloc _ => True
  | .kfree pa _ => s.allocated pa = true

def Complete (s : Pool) : Call → Prop
  | .kalloc mcpu => (kalloc s.mem mcpu).1 = 0 → ∀ i, (s.mem.kmems i).freelist = 0
  | .kfree _ _ => True

def Servable (s : Pool) : Call → Prop
  | .kalloc mcpu =>
    (s.mem.kmems mcpu).pgsize ≠ 0 ∨ (∃ i, i ≠ mcpu ∧ 2 ≤ (s.mem.kmems i).pgsize) ∨
      ∀ i, (s.mem.kmems i).pgsize = 0
  | .kfree _ _ => True

instance (s : Pool) : ∀ call, Decidable (FreesAllocated s call) := by
  rintro ⟨⟩ <;> dsimp only [FreesAllocated] <;> infer_instance

instance (s : Pool) : ∀ call, Decidable (Complete s call) := by
  rintro ⟨⟩ <;> dsimp only [Complete] <;> infer_instance

def PoolInv (image : Nat) (s : Pool) : Prop :=
  ∃ lists, Lists s.mem lists ∧ ∀ p, onLists lists p + (s.allocated p).toNat =
    if IsPage image p then 1 else 0

section Runs
variable {image : Nat} {s : Pool} {call : Call}

theorem bootPool_inv (image : Nat) (next : Nat → Nat) : PoolInv image (bootPool image next) := by
  obtain ⟨lists, ok, counts, _⟩ := bootMem_lists image next
  exact ⟨lists, ok, by simpa [bootPool] using counts⟩

section
variable (inv : PoolInv image s)
include inv

theorem PoolInv.kalloc (c : Cpu) : PoolInv image (callStep image s (.kalloc c)) := by
  obtain ⟨lists, ok, counts⟩ := inv
  obtain ⟨lists', ok', moved, _⟩ := kalloc_lists ok c
  refine ⟨lists', ok', fun p => ?_⟩
  have before := counts p
  have after := moved p
  simp only [callStep]
  by_cases zero : (Xv6.kalloc s.mem c).1 = 0
  · simp only [zero, ne_eq, not_true, false_and, if_false] at after ⊢
    omega
  simp only [ne_eq, zero, not_false_eq_true, true_and, if_true] at after ⊢
  by_cases same : (Xv6.kalloc s.mem c).1 = p
  · -- A page that is on a list is not allocated.
    have once : (if IsPage image p then 1 else 0) ≤ 1 := by split <;> decide
    rw [if_pos same] at after
    have free : s.allocated p = false := by
      rw [← Bool.not_eq_true]
      intro taken
      rw [taken, Bool.toNat_true] at before
      omega
    rw [free, Bool.toNat_false] at before
    rw [same, update_self, Bool.toNat_true]
    omega
  · rw [update_of_ne (Ne.symm same)]
    rw [if_neg same] at after
    omega

theorem PoolInv.isPage {pa : Nat} (taken : s.allocated pa = true) : IsPage image pa := by
  obtain ⟨lists, _, counts⟩ := inv
  have here := counts pa
  by_contra never
  rw [taken, Bool.toNat_true, if_neg never] at here
  omega

theorem PoolInv.kfree {pa : Nat} (taken : s.allocated pa = true) (c : Cpu) :
    PoolInv image (callStep image s (.kfree pa c)) := by
  have page := inv.isPage taken
  obtain ⟨lists, ok, counts⟩ := inv
  have here := counts pa
  rw [taken, Bool.toNat_true, if_pos page] at here
  have absent : onLists lists pa = 0 := by omega
  have freed : Xv6.kfree image s.mem pa c = some (pushPage (fillPage s.mem pa 1) c pa) :=
    if_neg ((not_notAPage_iff pa).mpr page)
  simp only [callStep, freed]
  refine ⟨_, (ok.fill absent 1).push absent page.nonnull c, fun p => ?_⟩
  have before := counts p
  simp only [onLists_push]
  by_cases same : pa = p
  · subst same
    rw [taken, Bool.toNat_true] at before
    rw [update_self, Bool.toNat_false, if_pos rfl]
    omega
  · rw [update_of_ne (Ne.symm same), if_neg same]
    omega

theorem PoolInv.step (owned : FreesAllocated s call) : PoolInv image (callStep image s call) := by
  cases call with
  | kalloc c => exact inv.kalloc c
  | kfree pa c => exact inv.kfree owned c

theorem complete_iff_servable (call : Call) : Complete s call ↔ Servable s call := by
  obtain ⟨lists, ok, _⟩ := inv
  cases call with
  | kfree pa c => exact Iff.rfl
  | kalloc c =>
    obtain ⟨_, _, _, fails⟩ := kalloc_lists ok c
    have null : ∀ i, (s.mem.kmems i).freelist = 0 ↔ (s.mem.kmems i).pgsize = 0 := by
      intro i
      have linked := ok.linked i
      rw [ok.size i]
      cases content : lists i with
      | nil =>
        rw [content] at linked
        exact iff_of_true linked rfl
      | cons p rest =>
        rw [content] at linked
        obtain ⟨start, nonnull, _⟩ := linked
        simp only [start, nonnull, List.length_cons, false_iff]
        omega
    have own : lists c = [] ↔ (s.mem.kmems c).pgsize = 0 := by
      rw [ok.size c, ← List.length_eq_zero_iff]
      omega
    have others : (∀ i, i ≠ c → (lists i).length < 2) ↔
        ¬ ∃ i, i ≠ c ∧ 2 ≤ (s.mem.kmems i).pgsize := by
      rw [not_exists]
      refine forall_congr' fun i => ?_
      rw [not_and, ok.size i]
      refine imp_congr_right fun _ => ?_
      omega
    simp only [Complete, Servable, fails, own, others, null, ne_eq]
    generalize (∃ i, ¬ i = c ∧ 2 ≤ (s.mem.kmems i).pgsize) = rich
    tauto

end

/-- In every run that frees only allocated pages, the calls of `kalloc` return 0 only if there is
no free page exactly if each of them finds a page of its own, two on another list or none at all. -/
theorem kalloc_complete_iff (image : Nat) (next : Nat → Nat) (calls : List Call)
    (owned : RunMeets (callStep image) FreesAllocated (bootPool image next) calls) :
    RunMeets (callStep image) Complete (bootPool image next) calls ↔
      RunMeets (callStep image) Servable (bootPool image next) calls := by
  have keep : ∀ s call, PoolInv image s → FreesAllocated s call →
      PoolInv image (callStep image s call) := fun s call inv owned => inv.step owned
  constructor
  · intro complete
    exact (complete.and owned).of_invariant
      (fun s call (inv : PoolInv image s) both => keep s call inv both.2)
      (fun s call inv both => (complete_iff_servable inv call).mp both.1)
      (bootPool_inv image next)
  · intro servable
    exact (servable.and owned).of_invariant
      (fun s call (inv : PoolInv image s) both => keep s call inv both.2)
      (fun s call inv both => (complete_iff_servable inv call).mpr both.1)
      (bootPool_inv image next)

end Runs

/-- CPU 1 takes one of the two pages of CPU 0, gives it back to CPU 0 and takes it again. -/
theorem kalloc_complete_two_pages :
    RunMeets (callStep imageForTwo) Complete (bootPool imageForTwo fun _ => 0)
        [.kalloc 1, .kfree (physTop - pgSize) 0, .kalloc 1] ↔
      RunMeets (callStep imageForTwo) Servable (bootPool imageForTwo fun _ => 0)
        [.kalloc 1, .kfree (physTop - pgSize) 0, .kalloc 1] :=
  kalloc_complete_iff imageForTwo (fun _ => 0) _ (by decide +kernel)

/-- CPU 1 takes one of the two pages; then its next `kalloc` returns 0 while CPU 0 has the other
page on its list. -/
theorem kalloc_misses_last_page :
    let s := callStep imageForTwo (bootPool imageForTwo fun _ => 0) (.kalloc 1)
    (kalloc s.mem 1).1 = 0 ∧ (s.mem.kmems 0).freelist = physTop - 2 * pgSize ∧
      ¬ Complete s (.kalloc 1) := by
  decide +kernel

end KernelLabs.Xv6
