import KernelLabs.Lib.Runs
import Mathlib.Tactic.Linarith

/-!
# Timer descriptors

Model of `chcore_timerfd_read` for the descriptor of a timer.  Sums and differences of `long` are
those of integers, which is what the code computes unless one overflows.
-/

set_option autoImplicit false

namespace KernelLabs.ChCore.Timerfd

open Lib List

def nsInS : Int := 1000000000

structure Timespec where
  tvSec : Int
  tvNsec : Int

structure Itimerspec where
  itInterval : Timespec
  itValue : Timespec

/-- `NS_IN_S` is unsigned, and the result is a `long` again. -/
def timespecToNs (time : Timespec) : Int := (nsInS * time.tvSec + time.tvNsec).bmod (2 ^ 64)

def nsToTimespec (ns : Int) : Timespec := ⟨ns % 2 ^ 64 / nsInS, ns % 2 ^ 64 % nsInS⟩

def Itimerspec.valNs (it : Itimerspec) : Int := timespecToNs it.itValue

def Itimerspec.intervalNs (it : Itimerspec) : Int := timespecToNs it.itInterval

def eAGAIN : Int := 11

def eINVAL : Int := 22

/-- A read into a buffer of `count` bytes.  The clock shows `now` and, after a sleep, `woken`. -/
structure Read where
  nonblock : Bool
  count : Nat
  now : Int
  woken : Int

def Read.time (r : Read) (it : Itimerspec) : Int := if r.now < it.valNs then r.woken else r.now

/-- `chcore_timerfd_read`: the number that it stores or its error, and the timer. -/
def timerfdRead (it : Itimerspec) (r : Read) : Except Int Int × Itimerspec :=
  if r.count < 8 then (.error (-eINVAL), it)
  else if it.intervalNs = 0 ∧ it.valNs = 0 then (.ok 0, it)
  else if r.now < it.valNs ∧ r.nonblock then (.error (-eAGAIN), it)
  else if 0 < it.intervalNs then
    let tick := (r.time it - it.valNs).tdiv it.intervalNs + 1
    let next := r.time it + it.intervalNs - (r.time it - it.valNs).tmod it.intervalNs
    (.ok tick, { it with itValue := nsToTimespec next })
  else (.ok 1, { it with itValue := nsToTimespec 0 })

def readStep (s : Itimerspec × Int) (r : Read) : Itimerspec × Int :=
  let (result, it) := timerfdRead s.1 r
  (it, s.2 + match result with | .ok tick => tick | .error _ => 0)

def Computes (s : Itimerspec × Int) (r : Read) : Prop :=
  8 ≤ r.count ∧ (r.nonblock → s.1.valNs ≤ r.now) ∧ s.1.valNs ≤ r.time s.1 ∧ r.time s.1 < 2 ^ 62

theorem timespecToNs_nsToTimespec {ns : Int} (low : -2 ^ 63 ≤ ns) (high : ns < 2 ^ 63) :
    timespecToNs (nsToTimespec ns) = ns := by
  rw [timespecToNs, nsToTimespec, Int.mul_ediv_add_emod, Int.bmod_def]
  omega

section Periods
variable {start t : Int} (interval : Int) (due : start ≤ t)
include due

/-- The expiry after `t` as the code computes it. -/
theorem next_eq : t + interval - (t - start).tmod interval =
    start + ((t - start) / interval + 1) * interval := by
  have split := Int.mul_ediv_add_emod (t - start) interval
  rw [Int.tmod_eq_emod_of_nonneg (Int.sub_nonneg.mpr due)]
  linarith

theorem isLeast_next (periodic : 0 < interval) :
    IsLeast {x | t < x ∧ ∃ k : Nat, x = start + k * interval}
      (start + ((t - start) / interval + 1) * interval) := by
  have split := Int.mul_ediv_add_emod (t - start) interval
  have rest := Int.emod_lt_of_pos (t - start) periodic
  have whole := Int.ediv_nonneg (Int.sub_nonneg.mpr due) periodic.le
  refine ⟨⟨by linarith, ((t - start) / interval + 1).toNat, ?_⟩, ?_⟩
  · rw [Int.toNat_of_nonneg (by omega)]
  · rintro x ⟨later, k, rfl⟩
    have more : (t - start) / interval < k := Int.ediv_lt_of_lt_mul periodic (by linarith)
    have scaled := Int.mul_le_mul_of_nonneg_right (Int.add_one_le_of_lt more) periodic.le
    linarith

end Periods

structure Counted (start interval : Int) (s : Itimerspec × Int) : Prop where
  period : s.1.intervalNs = interval
  value : s.1.valNs = start + s.2 * interval
  sum : 0 ≤ s.2

theorem Counted.step {start interval : Int} (armed : 0 < start) (periodic : 0 < interval)
    (small : interval < 2 ^ 62) {s : Itimerspec × Int} (counted : Counted start interval s)
    {r : Read} (computes : Computes s r) : Counted start interval (readStep s r) ∧
      start ≤ r.time s.1 ∧ (readStep s r).2 = (r.time s.1 - start) / interval + 1 := by
  obtain ⟨period, value, sum⟩ := counted
  obtain ⟨count, ready, due, early⟩ := computes
  have ahead := Int.mul_nonneg sum periodic.le
  have whole := Int.ediv_nonneg (Int.sub_nonneg.mpr due) periodic.le
  have total : (r.time s.1 - start) / interval = s.2 + (r.time s.1 - s.1.valNs) / interval := by
    have shift : r.time s.1 - start = r.time s.1 - s.1.valNs + s.2 * interval := by omega
    rw [shift, Int.add_mul_ediv_right _ _ periodic.ne', Int.add_comm]
  have next := next_eq interval due
  have rest := Int.tmod_nonneg interval (Int.sub_nonneg.mpr due)
  have later := (isLeast_next _ due periodic).1.1
  have waits : ¬ (r.now < s.1.valNs ∧ r.nonblock) :=
    fun both => absurd (ready both.2) (not_le.mpr both.1)
  have stepped : readStep s r = ({ s.1 with itValue := nsToTimespec (s.1.valNs +
      ((r.time s.1 - s.1.valNs) / interval + 1) * interval) },
      s.2 + ((r.time s.1 - s.1.valNs) / interval + 1)) := by
    rw [readStep, timerfdRead, if_neg (Nat.not_lt.mpr count), if_neg (by omega), if_neg waits,
      if_pos (period ▸ periodic), period, next,
      Int.tdiv_eq_ediv_of_nonneg (Int.sub_nonneg.mpr due)]
  rw [stepped]
  refine ⟨⟨period, ?_, by omega⟩, by omega, by omega⟩
  refine (timespecToNs_nsToTimespec (by omega) (by omega)).trans ?_
  rw [value]
  linarith

/-- Reads that compute their results at arbitrary times lose no expiration and count none twice. -/
theorem timerfd_counts (it : Itimerspec) (armed : 0 < it.valNs) (periodic : 0 < it.intervalNs)
    (small : it.intervalNs < 2 ^ 62) (reads : List Read) (r : Read)
    (computes : RunMeets readStep Computes (it, 0) (reads ++ [r])) :
    let s := reads.foldl readStep (it, 0)
    (readStep s r).2 = (r.time s.1 - it.valNs) / it.intervalNs + 1 ∧
      IsLeast {x | r.time s.1 < x ∧ ∃ k : Nat, x = it.valNs + k * it.intervalNs}
        (readStep s r).1.valNs := by
  intro s
  obtain ⟨before, last, _⟩ := computes.append
  have counted : Counted it.valNs it.intervalNs s := by
    refine run_invariant _ Computes _ (fun s r counted computes => ?_) reads _ ⟨rfl, by simp, le_rfl⟩
      before
    exact (counted.step armed periodic small computes).1
  obtain ⟨after, due, sum⟩ := counted.step armed periodic small last
  refine ⟨sum, ?_⟩
  rw [after.value, sum]
  exact isLeast_next _ due periodic

def shortTimer : Itimerspec := ⟨⟨0, 3⟩, ⟨0, 5⟩⟩

def onTime : Read := ⟨true, 8, 6, 6⟩

def tooLate : Read := ⟨false, 8, 7, 10⟩

theorem timerfd_counts_two : RunMeets readStep Computes (shortTimer, 0) [onTime, tooLate] ∧
    (readStep (readStep (shortTimer, 0) onTime) tooLate).2 = 2 := by
  have computes : RunMeets readStep Computes (shortTimer, 0) [onTime, tooLate] := by
    simp only [RunMeets, Computes]
    decide
  exact ⟨computes, (timerfd_counts shortTimer (by decide) (by decide) (by decide) [onTime] tooLate
    computes).1.trans (by decide)⟩

end KernelLabs.ChCore.Timerfd
