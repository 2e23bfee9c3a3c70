import KernelLabs.Lib.Runs
import KernelLabs.Lib.Contents

/-!
# Pipes

Model of `chcore_pipe_read_local` and `chcore_pipe_write_local` (libc `pipe.c`).  Each call
holds `pipe_lock` from the first use of the pipe to the last, so concurrent calls are a
sequence of calls.  The buffer of a caller is the list of its bytes and its length is
`count`, which is not negative.

No copy of the source uses `read_idx` or `write_idx`: bytes are always stored at the start
of the buffer and always taken from there.  The indices alone are those of a ring buffer
with one slot in reserve, except that a write behind `read_idx` may take that slot.  So a
byte that is accepted while others are unread is not delivered in its turn.
-/

set_option autoImplicit false

namespace KernelLabs.ChCore

open Lib List

/-! ## The calls -/

def pipeBufSize : Nat := 1024

def maxFd : Nat := 40960

def einval : Int := 22

inductive FdType where
  | file | pipe | sock | stdin | stdout | stderr | event | timer | epoll
  deriving DecidableEq

structure PipeFile where
  buf : List UInt8
  readIdx : Nat
  writeIdx : Nat
  readFd : Int
  writeFd : Int

/-- The test both calls start with; `fdDic` gives the types of the descriptors. -/
def isPipeFd (fdDic : Nat → FdType) (fd : Int) : Bool :=
  0 ≤ fd ∧ fd < maxFd ∧ fdDic fd.toNat = .pipe

structure PipeResult where
  pf : PipeFile
  user : List UInt8
  ret : Int

/-- `chcore_pipe_read_local`; `pf` is the private data of `fd`. -/
def chcorePipeReadLocal (fdDic : Nat → FdType) (pf : PipeFile) (fd : Int) (user : List UInt8) :
    PipeResult :=
  if isPipeFd fdDic fd = false then ⟨pf, user, -einval⟩
  else if pf.readFd ≠ fd then ⟨pf, user, -einval⟩
  else if pf.readIdx ≤ pf.writeIdx then
    let len := min (pf.writeIdx - pf.readIdx) user.length
    ⟨{ pf with readIdx := pf.readIdx + len }, overwrite user 0 (pf.buf.take len), len⟩
  else
    let len := min (pipeBufSize - pf.readIdx + pf.writeIdx) user.length
    let lenTmp := min (pipeBufSize - pf.readIdx) len
    -- both copies go to the start of the caller's buffer
    let user := overwrite user 0 (pf.buf.take lenTmp)
    ⟨{ pf with readIdx := (pf.readIdx + len) % pipeBufSize },
      overwrite user 0 ((pf.buf.drop lenTmp).take (len - lenTmp)), len⟩

def chcorePipeWriteLocal (fdDic : Nat → FdType) (pf : PipeFile) (fd : Int) (user : List UInt8) :
    PipeResult :=
  if isPipeFd fdDic fd = false then ⟨pf, user, -einval⟩
  else if pf.writeFd ≠ fd then ⟨pf, user, -einval⟩
  else if pf.readIdx ≤ pf.writeIdx then
    let len := min (pipeBufSize + pf.readIdx - pf.writeIdx - 1) user.length
    let lenTmp := min (pipeBufSize - pf.writeIdx) len
    -- both copies start with the first byte of the caller
    let buf := overwrite pf.buf 0 (user.take lenTmp)
    ⟨{ pf with
        buf := overwrite buf lenTmp (user.take (len - lenTmp))
        writeIdx := (pf.writeIdx + len) % pipeBufSize }, user, len⟩
  else
    -- no slot in reserve here
    let len := min (pf.readIdx - pf.writeIdx) user.length
    ⟨{ pf with buf := overwrite pf.buf 0 (user.take len), writeIdx := pf.writeIdx + len },
      user, len⟩

structure PipeFds where
  fdDic : Nat → FdType
  readFd : Nat
  writeFd : Nat
  readFd_lt : readFd < maxFd
  writeFd_lt : writeFd < maxFd
  readFd_pipe : fdDic readFd = .pipe
  writeFd_pipe : fdDic writeFd = .pipe

def newPipe (fds : PipeFds) : PipeFile where
  buf := replicate pipeBufSize 0
  readIdx := 0
  writeIdx := 0
  readFd := fds.readFd
  writeFd := fds.writeFd

theorem isPipeFd_of_lt (fdDic : Nat → FdType) {fd : Nat} (bound : fd < maxFd)
    (pipe : fdDic fd = .pipe) : isPipeFd fdDic fd = true := by
  simp only [isPipeFd, Int.toNat_natCast, pipe, and_true, decide_eq_true_eq]
  omega

/-! ## Runs of calls -/

inductive PipeCall where
  | write (user : List UInt8)
  | read (user : List UInt8)

structure PipeState where
  pf : PipeFile
  /-- The bytes accepted by writes. -/
  accepted : List UInt8
  /-- The bytes returned by reads. -/
  delivered : List UInt8
  /-- The last write that accepted a byte found the pipe empty, and no byte was returned
  since. -/
  fresh : Bool

def pipeStart (fds : PipeFds) : PipeState :=
  { pf := newPipe fds, accepted := [], delivered := [], fresh := false }

def pipeStep (fds : PipeFds) (s : PipeState) : PipeCall → PipeState
  | .write user =>
    let r := chcorePipeWriteLocal fds.fdDic s.pf fds.writeFd user
    { s with
      pf := r.pf
      accepted := s.accepted ++ user.take r.ret.toNat
      fresh := if r.ret = 0 then s.fresh else decide (s.pf.readIdx = s.pf.writeIdx) }
  | .read user =>
    let r := chcorePipeReadLocal fds.fdDic s.pf fds.readFd user
    { s with
      pf := r.pf
      delivered := s.delivered ++ r.user.take r.ret.toNat
      fresh := if r.ret = 0 then s.fresh else false }

/-- Reads have returned the front of what was accepted, a read returns nothing exactly if nothing is
left, and there is a bound on what is left. -/
structure PipeExact (fds : PipeFds) (s : PipeState) : Prop where
  front : s.delivered <+: s.accepted
  empty_iff : ∀ user, user ≠ [] →
    ((chcorePipeReadLocal fds.fdDic s.pf fds.readFd user).ret = 0 ↔ s.delivered = s.accepted)
  bounded : s.accepted.length - s.delivered.length ≤ pipeBufSize - 1

/-- A write behind `read_idx` does not reach it.  A read that returns a byte is the first
one after a write to the empty pipe, with no write in between, and stops where the ring
wraps. -/
def InTurn (s : PipeState) : PipeCall → Prop
  | .write user =>
    s.pf.writeIdx < s.pf.readIdx → user.length < s.pf.readIdx - s.pf.writeIdx
  | .read user => user ≠ [] → s.pf.readIdx ≠ s.pf.writeIdx → s.fresh = true ∧
      (s.pf.writeIdx < s.pf.readIdx →
        s.pf.writeIdx = 0 ∨ user.length ≤ pipeBufSize - s.pf.readIdx)

instance (s : PipeState) : ∀ call, Decidable (InTurn s call) := by
  rintro ⟨⟩ <;> dsimp only [InTurn] <;> infer_instance

/-! ## The queue behind the indices -/

def PipeFile.unread (pf : PipeFile) : Nat :=
  (pf.writeIdx + pipeBufSize - pf.readIdx) % pipeBufSize

structure PipeHolds (fds : PipeFds) (s : PipeState) (queue : List UInt8) : Prop where
  readFd : s.pf.readFd = fds.readFd
  writeFd : s.pf.writeFd = fds.writeFd
  buf_length : s.pf.buf.length = pipeBufSize
  readIdx_lt : s.pf.readIdx < pipeBufSize
  writeIdx_lt : s.pf.writeIdx < pipeBufSize
  queue_length : queue.length = s.pf.unread
  accepted : s.accepted = s.delivered ++ queue
  /-- A queue that no read has shortened stands at the start of the buffer, as far as the
  ring does not wrap. -/
  stored : s.fresh = true → ∀ n, n ≤ queue.length → n ≤ pipeBufSize - s.pf.readIdx →
    s.pf.buf.take n = queue.take n

open PipeFile

theorem pipeStart_holds (fds : PipeFds) : PipeHolds fds (pipeStart fds) [] where
  readFd := rfl
  writeFd := rfl
  buf_length := by rw [pipeStart, newPipe, length_replicate]
  readIdx_lt := Nat.zero_lt_succ _
  writeIdx_lt := Nat.zero_lt_succ _
  queue_length := by simp [pipeStart, newPipe, unread]
  accepted := rfl
  stored := fun fresh => absurd fresh Bool.false_ne_true

/-- The two copies of a write: the first `m` bytes come to stand at the start, and nothing
is stored beyond `n`. -/
theorem stored_in_two (buf : List UInt8) {user : List UInt8} {m n : Nat}
    (short : n ≤ user.length) (room : n ≤ buf.length) (first : m ≤ n) :
    (overwrite (overwrite buf 0 (user.take m)) m (user.take (n - m))).length = buf.length ∧
      ∀ k, k ≤ m → (overwrite (overwrite buf 0 (user.take m)) m (user.take (n - m))).take k =
        user.take k := by
  have width : (user.take m).length = m := by
    rw [length_take]
    omega
  have copied : (overwrite buf 0 (user.take m)).length = buf.length := by
    rw [length_overwrite _ _ _ (Nat.zero_le _), width]
    omega
  constructor
  · rw [length_overwrite _ _ _ (by omega), copied, length_take]
    omega
  intro k inside
  have front := take_overwrite_zero buf (user.take m)
  rw [width] at front
  have both : (overwrite (overwrite buf 0 (user.take m)) m (user.take (n - m))).take m =
      user.take m := by
    rw [take_overwrite _ (by omega), front]
  rw [← Nat.min_eq_left inside, ← take_take, both, take_take]

section Calls
variable {fds : PipeFds} {s : PipeState} {queue : List UInt8} (holds : PipeHolds fds s queue)

include holds

theorem PipeHolds.length_of_le (order : s.pf.readIdx ≤ s.pf.writeIdx) :
    queue.length = s.pf.writeIdx - s.pf.readIdx := by
  have bound := holds.writeIdx_lt
  rw [holds.queue_length, unread]
  simp only [pipeBufSize] at *
  omega

theorem PipeHolds.length_of_lt (order : s.pf.writeIdx < s.pf.readIdx) :
    queue.length = pipeBufSize - s.pf.readIdx + s.pf.writeIdx := by
  have bound := holds.readIdx_lt
  rw [holds.queue_length, unread]
  simp only [pipeBufSize] at *
  omega

theorem pipeRead_result (user : List UInt8) :
    (chcorePipeReadLocal fds.fdDic s.pf fds.readFd user).ret =
      (min queue.length user.length : Nat) ∧
    (chcorePipeReadLocal fds.fdDic s.pf fds.readFd user).pf =
      { s.pf with readIdx := (s.pf.readIdx + min queue.length user.length) % pipeBufSize } := by
  have writeIdx := holds.writeIdx_lt
  simp only [chcorePipeReadLocal, isPipeFd_of_lt fds.fdDic fds.readFd_lt fds.readFd_pipe,
    holds.readFd, ne_eq, not_true_eq_false, Bool.true_eq_false, if_false]
  split
  · rename_i order
    have length := holds.length_of_le order
    rw [← length, Nat.mod_eq_of_lt (by omega)]
    exact ⟨rfl, rfl⟩
  · rename_i order
    rw [holds.length_of_lt (by omega)]
    exact ⟨rfl, rfl⟩

theorem PipeHolds.exact : PipeExact fds s where
  front := by
    rw [holds.accepted]
    exact prefix_append _ _
  empty_iff := by
    intro user some_space
    have space : 0 < user.length := length_pos_iff.mpr some_space
    have nothing : s.delivered = s.accepted ↔ queue.length = 0 := by
      rw [holds.accepted, self_eq_append_right, length_eq_zero_iff]
    rw [(pipeRead_result holds user).1, nothing]
    omega
  bounded := by
    have length := holds.queue_length
    rw [holds.accepted, length_append]
    simp only [unread, pipeBufSize] at *
    omega

section
variable (user : List UInt8)
include user

theorem pipeRead_bytes (inTurn : InTurn s (.read user)) :
    (chcorePipeReadLocal fds.fdDic s.pf fds.readFd user).user.take
      (min queue.length user.length) = queue.take (min queue.length user.length) := by
  have readIdx := holds.readIdx_lt
  have buf_length := holds.buf_length
  generalize count : min queue.length user.length = n
  rcases Nat.eq_zero_or_pos n with rfl | some_bytes
  · rw [take_zero, take_zero]
  have user_some : user ≠ [] := length_pos_iff.mp (by omega)
  have pipe_some : s.pf.readIdx ≠ s.pf.writeIdx := by
    intro same
    have length := holds.length_of_le (Nat.le_of_eq same)
    omega
  obtain ⟨fresh, wraps⟩ := inTurn user_some pipe_some
  -- no more than what stands at the start of the buffer is copied
  have straight : n ≤ pipeBufSize - s.pf.readIdx := by
    have writeIdx := holds.writeIdx_lt
    rcases Nat.lt_or_ge s.pf.writeIdx s.pf.readIdx with order | order
    · have length := holds.length_of_lt order
      rcases wraps order with atStart | short <;> omega
    · have length := holds.length_of_le order
      omega
  have width : (s.pf.buf.take n).length = n := by
    rw [length_take]
    omega
  have copied : (overwrite user 0 (s.pf.buf.take n)).take n = queue.take n := by
    have front := take_overwrite_zero user (s.pf.buf.take n)
    rw [width] at front
    rw [front, holds.stored fresh n (by omega) straight]
  simp only [chcorePipeReadLocal, isPipeFd_of_lt fds.fdDic fds.readFd_lt fds.readFd_pipe,
    holds.readFd, ne_eq, not_true_eq_false, Bool.true_eq_false, if_false]
  split
  · rename_i order
    rw [← holds.length_of_le order, count]
    exact copied
  · rename_i order
    simp only [← holds.length_of_lt (Nat.lt_of_not_le order), count, Nat.min_eq_right straight,
      Nat.sub_self, take_zero, overwrite_nil]
    exact copied

theorem pipeRead_holds (inTurn : InTurn s (.read user)) :
    PipeHolds fds (pipeStep fds s (.read user)) (queue.drop (min queue.length user.length)) := by
  have length := holds.queue_length
  have readIdx := holds.readIdx_lt
  have writeIdx := holds.writeIdx_lt
  have bytes := pipeRead_bytes holds user inTurn
  simp only [pipeStep, pipeRead_result holds, Int.toNat_natCast, bytes]
  generalize count : min queue.length user.length = n
  constructor
  · exact holds.readFd
  · exact holds.writeFd
  · exact holds.buf_length
  · exact Nat.mod_lt _ (by decide)
  · exact writeIdx
  · rw [length_drop]
    simp only [unread, pipeBufSize] at *
    omega
  · rw [append_assoc, take_append_drop]
    exact holds.accepted
  · -- only a read that returns nothing leaves the queue as it was
    intro fresh
    rcases Nat.eq_zero_or_pos n with rfl | some_bytes
    · rw [drop_zero, Nat.add_zero, Nat.mod_eq_of_lt readIdx]
      exact holds.stored fresh
    · rw [if_neg (by omega)] at fresh
      exact absurd fresh Bool.false_ne_true

/-- A write in turn accepts what fits.  To the empty pipe it stores the bytes at the start
of the buffer, as far as the ring does not wrap. -/
theorem pipeWrite_spec (inTurn : InTurn s (.write user)) {n : Nat}
    (count : n = min (pipeBufSize - 1 - queue.length) user.length) :
    (chcorePipeWriteLocal fds.fdDic s.pf fds.writeFd user).ret = n ∧
    ∃ buf, (chcorePipeWriteLocal fds.fdDic s.pf fds.writeFd user).pf =
        { s.pf with buf := buf, writeIdx := (s.pf.writeIdx + n) % pipeBufSize } ∧
      buf.length = pipeBufSize ∧ (n = 0 → buf = s.pf.buf) ∧
      (s.pf.readIdx = s.pf.writeIdx → ∀ k, k ≤ n → k ≤ pipeBufSize - s.pf.readIdx →
        buf.take k = user.take k) := by
  have readIdx := holds.readIdx_lt
  have writeIdx := holds.writeIdx_lt
  have buf_length := holds.buf_length
  have short : n ≤ user.length := by omega
  simp only [chcorePipeWriteLocal, isPipeFd_of_lt fds.fdDic fds.writeFd_lt fds.writeFd_pipe,
    holds.writeFd, ne_eq, not_true_eq_false, Bool.true_eq_false, if_false]
  by_cases order : s.pf.readIdx ≤ s.pf.writeIdx
  · have length := holds.length_of_le order
    have len : min (pipeBufSize + s.pf.readIdx - s.pf.writeIdx - 1) user.length = n := by omega
    simp only [if_pos order, len]
    generalize width : min (pipeBufSize - s.pf.writeIdx) n = lenTmp
    obtain ⟨copied, front⟩ := stored_in_two s.pf.buf short (by omega) (show lenTmp ≤ n by omega)
    apply And.intro trivial
    refine ⟨_, rfl, ?_, ?_, ?_⟩
    · rw [copied, buf_length]
    · intro nothing
      obtain rfl : lenTmp = 0 := by omega
      simp only [nothing, Nat.sub_self, take_zero, overwrite_nil]
    · intro empty k stored straight
      exact front k (by omega)
  · have length := holds.length_of_lt (Nat.lt_of_not_le order)
    have len : min (s.pf.readIdx - s.pf.writeIdx) user.length = n := by
      have fits := inTurn (Nat.lt_of_not_le order)
      omega
    have below : s.pf.writeIdx + n < pipeBufSize := by omega
    simp only [if_neg order, len]
    apply And.intro trivial
    refine ⟨overwrite s.pf.buf 0 (user.take n), ?_, ?_, ?_, ?_⟩
    · rw [Nat.mod_eq_of_lt below]
    · rw [length_overwrite _ _ _ (Nat.zero_le _), length_take]
      omega
    · intro nothing
      rw [nothing, take_zero, overwrite_nil]
    · intro empty
      exact absurd (Nat.le_of_eq empty) order

theorem pipeWrite_holds (inTurn : InTurn s (.write user)) :
    ∃ queue', PipeHolds fds (pipeStep fds s (.write user)) queue' := by
  have length := holds.queue_length
  have readIdx := holds.readIdx_lt
  have writeIdx := holds.writeIdx_lt
  obtain ⟨ret, buf, pf, buf_length, kept, stored⟩ := pipeWrite_spec holds user inTurn rfl
  generalize count : min (pipeBufSize - 1 - queue.length) user.length = n at *
  have width : (user.take n).length = n := by
    rw [length_take]
    omega
  refine ⟨queue ++ user.take n, ?_⟩
  simp only [pipeStep, ret, pf, Int.toNat_natCast]
  constructor
  · exact holds.readFd
  · exact holds.writeFd
  · exact buf_length
  · exact readIdx
  · exact Nat.mod_lt _ (by decide)
  · rw [length_append, width]
    simp only [unread, pipeBufSize] at *
    omega
  · rw [holds.accepted, append_assoc]
  · intro fresh
    rcases Nat.eq_zero_or_pos n with rfl | some_bytes
    · rw [take_zero, append_nil, kept rfl]
      exact holds.stored fresh
    rw [if_neg (by omega), decide_eq_true_eq] at fresh
    obtain rfl : queue = [] := by
      apply length_eq_zero_iff.mp
      rw [length, unread, fresh, Nat.add_sub_cancel_left, Nat.mod_self]
    intro k short straight
    have below : k ≤ n := by rwa [nil_append, width] at short
    rw [nil_append, take_take, Nat.min_eq_left below]
    exact stored fresh k below straight

end

end Calls

/-- In every interleaving of calls that come in turn the pipe is a bounded queue of
bytes. -/
theorem pipe_exact_of_inTurn (fds : PipeFds) (calls : List PipeCall)
    (inTurn : RunMeets (pipeStep fds) InTurn (pipeStart fds) calls) :
    PipeExact fds (calls.foldl (pipeStep fds) (pipeStart fds)) := by
  have kept : ∀ s call, (∃ queue, PipeHolds fds s queue) → InTurn s call →
      ∃ queue, PipeHolds fds (pipeStep fds s call) queue := by
    intro s call start ok
    obtain ⟨queue, holds⟩ := start
    cases call with
    | write user => exact pipeWrite_holds holds user ok
    | read user => exact ⟨_, pipeRead_holds holds user ok⟩
  obtain ⟨queue, holds⟩ := run_invariant (pipeStep fds) InTurn
    (fun s => ∃ queue, PipeHolds fds s queue) kept calls (pipeStart fds)
    ⟨[], pipeStart_holds fds⟩ inTurn
  exact holds.exact

def twoFds : PipeFds where
  fdDic := fun _ => .pipe
  readFd := 3
  writeFd := 4
  readFd_lt := by decide
  writeFd_lt := by decide
  readFd_pipe := rfl
  writeFd_pipe := rfl

theorem pipe_exact_two_rounds : PipeExact twoFds
    ([.write [1, 2], .read [0, 0, 0], .read [0], .write [3, 4, 5], .read [0, 0]].foldl
      (pipeStep twoFds) (pipeStart twoFds)) :=
  pipe_exact_of_inTurn twoFds _ (by decide)

/-- Two bytes are written and read one by one: the second read returns the first byte
again. -/
theorem pipe_returns_byte_twice : ¬ PipeExact twoFds
    ([.write [1, 2], .read [0], .read [0]].foldl (pipeStep twoFds) (pipeStart twoFds)) := by
  intro queue
  have front := queue.front
  revert front
  decide

end KernelLabs.ChCore
