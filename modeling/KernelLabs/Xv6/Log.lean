import KernelLabs.Lib.Weights
import KernelLabs.Xv6.FsWrite

/-!
# The log

`begin_op`, `log_write` and `end_op` of `kernel/log.c`, called by any number of processes.  Each of
them runs under `log.lock`, so that calls are atomic; a process that would have to sleep in
`begin_op` changes nothing and tries again.
-/

set_option autoImplicit false

namespace KernelLabs.Xv6

open Lib Function List Option

def logsize : Nat := maxopblocks * 3

/-- `struct log`, with `block` for `lh.block[0]` to `lh.block[lh.n - 1]`.  For each process that is
in a transaction, `ops` are the blocks that it has passed to `log_write`. -/
structure Log (T : Type) where
  block : List Nat
  outstanding : Nat
  committing : Bool
  panicked : Bool
  ops : T → Option (Finset Nat)

inductive LogAct (T : Type) where
  | beginOp (t : T)
  | logWrite (t : T) (b : Nat)
  | endOp (t : T)
  | commit
  deriving DecidableEq, Repr

namespace Log

section Model
variable {T : Type} [DecidableEq T]

def beginOp (s : Log T) (t : T) : Log T :=
  if s.committing then s
  else if logsize < s.block.length + (s.outstanding + 1) * maxopblocks then s
  else { s with
    outstanding := s.outstanding + 1
    ops := update s.ops t (some ∅) }

/-- `size` is `log.size`. -/
def logWrite (size : Nat) (s : Log T) (t : T) (bs : Finset Nat) (b : Nat) : Log T :=
  if logsize ≤ s.block.length ∨ size - 1 ≤ s.block.length ∨ s.outstanding < 1 then
    { s with panicked := true }
  else { s with
    block := if b ∈ s.block then s.block else s.block ++ [b]
    ops := update s.ops t (some (insert b bs)) }

def endOp (s : Log T) (t : T) : Log T :=
  if s.committing then { s with panicked := true }
  else { s with
    outstanding := s.outstanding - 1
    committing := decide (s.outstanding - 1 = 0)
    ops := update s.ops t none }

/-- The last part of `end_op`, in the process that found `outstanding` to be 0. -/
def commit (s : Log T) : Log T :=
  if s.committing then { s with block := [], committing := false } else s

/-- A process calls `log_write` and `end_op` only in a transaction, and `begin_op` only outside. -/
def step (size : Nat) (s : Log T) (a : LogAct T) : Log T :=
  if s.panicked then s
  else
    match a with
    | .beginOp t => if (s.ops t).isSome then s else s.beginOp t
    | .logWrite t b => (s.ops t).elim s fun bs => s.logWrite size t bs b
    | .endOp t => if (s.ops t).isSome then s.endOp t else s
    | .commit => s.commit

def start : Log T := ⟨[], 0, false, false, fun _ => none⟩

/-- What a transaction that has logged the blocks `bs` may still log. -/
def left : Option (Finset Nat) → Nat
  | none => 0
  | some bs => maxopblocks - bs.card

/-- The blocks in the log together with all that the running transactions may still log. -/
def demand [Fintype T] (s : Log T) : Nat := s.block.length + total left s.ops

def Within (s : Log T) : LogAct T → Prop
  | .logWrite t b => ∀ bs ∈ s.ops t, (insert b bs).card ≤ maxopblocks
  | _ => True

instance (s : Log T) : ∀ a, Decidable (s.Within a) := by
  rintro ⟨⟩ <;> dsimp only [Within] <;> infer_instance

end Model

section Reservation
variable {T : Type} [DecidableEq T] [Fintype T] {s : Log T} {t : T}

def running : Option (Finset Nat) → Nat
  | none => 0
  | some _ => 1

structure Inv (s : Log T) : Prop where
  room : s.demand ≤ logsize
  count : s.outstanding = total running s.ops
  logged : ∀ t, ∀ bs ∈ s.ops t, ∀ b ∈ bs, b ∈ s.block
  quiet : s.committing = true → s.outstanding = 0

omit [DecidableEq T] in
theorem start_inv : Inv (start : Log T) where
  room := by
    have none : total left (start : Log T).ops = 0 := total_eq_zero fun _ => rfl
    rw [demand, none]
    exact Nat.zero_le _
  count := (total_eq_zero fun _ => rfl).symm
  logged t bs none := by cases none
  quiet never := by cases never

omit [Fintype T] in
theorem logged_update {ops : T → Option (Finset Nat)} {op : Option (Finset Nat)}
    {block block' : List Nat} (logged : ∀ t, ∀ bs ∈ ops t, ∀ b ∈ bs, b ∈ block)
    (stays : ∀ b ∈ block, b ∈ block') (here : ∀ bs ∈ op, ∀ b ∈ bs, b ∈ block') :
    ∀ u, ∀ bs ∈ update ops t op u, ∀ b ∈ bs, b ∈ block' :=
  (forall_update_iff ops fun _ op => ∀ bs ∈ op, ∀ b ∈ bs, b ∈ block').mpr
    ⟨here, fun u _ bs member b within => stays b (logged u bs member b within)⟩

omit [DecidableEq T] in
theorem total_left_le (s : Log T) : total left s.ops ≤ total running s.ops * maxopblocks := by
  rw [total, total, Finset.sum_mul]
  refine Finset.sum_le_sum fun t _ => ?_
  cases s.ops t with
  | none => exact Nat.zero_le _
  | some bs => exact (Nat.sub_le _ _).trans (Nat.one_mul _).ge

theorem Inv.beginOp (inv : Inv s) (outside : s.ops t = none) : Inv (s.beginOp t) := by
  unfold Log.beginOp
  by_cases committing : s.committing = true
  · rwa [if_pos committing]
  rw [if_neg committing]
  by_cases full : logsize < s.block.length + (s.outstanding + 1) * maxopblocks
  · rwa [if_pos full]
  rw [if_neg full]
  have reserve := total_update left s.ops t (some ∅)
  have runs := total_update running s.ops t (some ∅)
  have bound := total_left_le s
  have count := inv.count
  rw [outside] at reserve runs
  simp only [left, running, Finset.card_empty] at reserve runs
  refine ⟨?_, ?_, logged_update inv.logged (fun _ old => old) (by simp),
    fun now => absurd now committing⟩
  · show s.block.length + total left (update s.ops t (some ∅)) ≤ logsize
    rw [← count] at bound
    rw [Nat.add_mul] at full
    omega
  · show s.outstanding + 1 = total running (update s.ops t (some ∅))
    omega

theorem Inv.logWrite {bs : Finset Nat} (inv : Inv s) (inside : s.ops t = some bs) (size b : Nat)
    (within : (insert b bs).card ≤ maxopblocks) : Inv (s.logWrite size t bs b) := by
  unfold Log.logWrite
  by_cases full : logsize ≤ s.block.length ∨ size - 1 ≤ s.block.length ∨ s.outstanding < 1
  · rw [if_pos full]
    exact ⟨inv.room, inv.count, inv.logged, inv.quiet⟩
  rw [if_neg full]
  have reserve := total_update left s.ops t (some (insert b bs))
  have runs := total_update running s.ops t (some (insert b bs))
  have room := inv.room
  have count := inv.count
  rw [inside] at reserve runs
  simp only [left, running] at reserve runs
  rw [demand] at room
  refine ⟨?_, ?_, ?_, inv.quiet⟩
  · show (if b ∈ s.block then s.block else s.block ++ [b]).length +
      total left (update s.ops t (some (insert b bs))) ≤ logsize
    by_cases absorbed : b ∈ s.block
    · rw [if_pos absorbed]
      have more := Finset.card_le_card (Finset.subset_insert b bs)
      omega
    · have new : b ∉ bs := fun member => absorbed (inv.logged t bs inside b member)
      rw [if_neg absorbed, length_append, length_singleton]
      rw [Finset.card_insert_of_notMem new] at within reserve
      omega
  · show s.outstanding = total running (update s.ops t (some (insert b bs)))
    omega
  · have stays : ∀ x ∈ s.block, x ∈ if b ∈ s.block then s.block else s.block ++ [b] := by
      intro x old
      split
      · exact old
      · exact mem_append_left _ old
    have here : b ∈ if b ∈ s.block then s.block else s.block ++ [b] := by
      split
      · assumption
      · exact mem_append_right _ (mem_singleton_self b)
    refine logged_update inv.logged stays fun bs' same x member => ?_
    rw [← mem_some_iff.mp same, Finset.mem_insert] at member
    rcases member with rfl | old
    · exact here
    · exact stays x (inv.logged t bs inside x old)

theorem Inv.endOp (inv : Inv s) (inside : (s.ops t).isSome) : Inv (s.endOp t) := by
  unfold Log.endOp
  by_cases committing : s.committing = true
  · rw [if_pos committing]
    exact ⟨inv.room, inv.count, inv.logged, inv.quiet⟩
  rw [if_neg committing]
  obtain ⟨bs, here⟩ := isSome_iff_exists.mp inside
  have reserve := total_update left s.ops t none
  have runs := total_update running s.ops t none
  have room := inv.room
  have count := inv.count
  rw [here] at reserve runs
  simp only [left, running] at reserve runs
  rw [demand] at room
  refine ⟨?_, ?_, logged_update inv.logged (fun _ old => old) (by simp),
    fun now => of_decide_eq_true now⟩
  · show s.block.length + total left (update s.ops t none) ≤ logsize
    omega
  · show s.outstanding - 1 = total running (update s.ops t none)
    omega

theorem Inv.commit (inv : Inv s) : Inv s.commit := by
  unfold Log.commit
  by_cases committing : s.committing = true
  · rw [if_pos committing]
    have room := inv.room
    rw [demand] at room
    refine ⟨?_, inv.count, fun u bs here => ?_, fun never => by cases never⟩
    · show 0 + total left s.ops ≤ logsize
      omega
    · have count := inv.count
      have one := le_total running s.ops u
      rw [inv.quiet committing] at count
      rw [mem_def.mp here, ← count] at one
      exact absurd one (by simp [running])
  · rwa [if_neg committing]

theorem Inv.step {a : LogAct T} (inv : Inv s) (size : Nat) (within : s.Within a) :
    Inv (s.step size a) := by
  unfold Log.step
  by_cases panicked : s.panicked = true
  · rwa [if_pos panicked]
  rw [if_neg panicked]
  cases a with
  | beginOp t =>
    by_cases inside : (s.ops t).isSome
    · simpa only [if_pos inside] using inv
    · simp only [if_neg inside]
      exact inv.beginOp (not_isSome_iff_eq_none.mp inside)
  | logWrite t b =>
    cases inside : s.ops t with
    | none => simpa only [inside, elim_none] using inv
    | some bs =>
      simp only [inside, elim_some]
      exact inv.logWrite inside size b (within bs inside)
  | endOp t =>
    by_cases inside : (s.ops t).isSome
    · simp only [if_pos inside]
      exact inv.endOp inside
    · simpa only [if_neg inside] using inv
  | commit => exact inv.commit

/-- As long as each transaction logs at most `MAXOPBLOCKS` different blocks, there is room in the
log for all that the transactions admitted by `begin_op` may log. -/
theorem demand_le (size : Nat) (acts : List (LogAct T))
    (within : RunMeets (step size) Within start acts) :
    (acts.foldl (step size) start).demand ≤ logsize :=
  (run_invariant (step size) Within Inv (fun _ _ inv within => inv.step size within) acts start
    start_inv within).room

end Reservation

end Log

end KernelLabs.Xv6
