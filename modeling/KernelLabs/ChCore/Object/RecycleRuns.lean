import KernelLabs.Lib.Runs
import KernelLabs.ChCore.Object.Recycle

/-!
# Delivery over whole runs

The producer goes back to the first slot after the last one; the recycle thread never does.  So the
channel delivers as long as no post wraps the producer: as long as no post finds the last slot taken
and some message consumed.  After a post that does, the recycle thread alone either reads behind
the page for ever, or takes a buffer with unread messages for an empty one.
-/

set_option autoImplicit false

namespace KernelLabs.ChCore

open Lib Function List Option RecycleSys

def slotRun (slot : Nat → RecycleMsg) (off count : Nat) : List RecycleMsg :=
  (range count).map fun i => slot (off + msgSize * i)

def ringContent (s : RecycleBuffer) : List RecycleMsg :=
  if s.consumer ≤ s.producer then
    slotRun s.slot s.consumer ((s.producer - s.consumer) / msgSize)
  else
    slotRun s.slot s.consumer ((endOffset - s.consumer) / msgSize) ++
      slotRun s.slot startOffset ((s.producer - startOffset) / msgSize)

def RecycleSys.consumed (S : RecycleSys) : List RecycleMsg :=
  if S.held = none then S.retrieved else S.retrieved.dropLast

/-- What was retrieved was posted, once each and in order; the rest stands in the buffer, in order,
or is saved; and the recycle thread alone retrieves what was posted before the buffer was drained
and a further post made. -/
structure Delivered (S : RecycleSys) : Prop where
  consumerOffset : startOffset ≤ S.buffer.consumer ∧ S.buffer.consumer ≤ endOffset
  producerOffset : startOffset ≤ S.buffer.producer ∧ S.buffer.producer ≤ endOffset
  inOrder : S.retrieved <+: S.posted
  stands : S.posted = S.consumed ++ ringContent S.buffer ++ S.buffer.saved.reverse
  retrievable : ∃ k T, alone k (some S) = some T ∧ S.posted.take S.due <+: T.retrieved

def ChannelKept (S : Option RecycleSys) : Prop := ∃ T, S = some T ∧ Delivered T

def RecycleSafe (S : Option RecycleSys) : RecycleOp → Prop
  | .notify _ _ =>
    ∀ T ∈ S, ¬ (T.buffer.producer = endOffset ∧ T.buffer.consumer > startOffset)
  | .consume => True

instance (S : Option RecycleSys) : ∀ op, Decidable (RecycleSafe S op) := by
  rintro ⟨⟩ <;> dsimp only [RecycleSafe] <;> infer_instance

/-- `stored` are the messages that went into the slots, from the first on; the recycle thread is
done with the first `n` of them. -/
structure ChannelInv (S : RecycleSys) (stored : List RecycleMsg) (n : Nat) : Prop where
  posted : S.posted = stored ++ S.buffer.saved.reverse
  producer : S.buffer.producer = startOffset + msgSize * stored.length
  consumer : S.buffer.consumer = startOffset + msgSize * n
  le : n ≤ stored.length
  room : stored.length ≤ 255
  slots : ∀ i msg, stored[i]? = some msg → S.buffer.slot (startOffset + msgSize * i) = msg
  full : S.buffer.saved ≠ [] → stored.length = 255
  held : (S.held = none ∧ S.retrieved = stored.take n) ∨
    (S.held = some S.buffer.consumer ∧ n < stored.length ∧ S.retrieved = stored.take (n + 1))
  drainedAt : S.drainedAt ≤ S.posted.length
  fresh : n = 0 → S.drainedAt = 0
  due : S.due ≤ stored.length

section Delivery
variable {S T : RecycleSys} {stored : List RecycleMsg} {n : Nat}

@[simp] theorem seeDrained_buffer (S : RecycleSys) : S.seeDrained.buffer = S.buffer := by
  unfold seeDrained
  split <;> rfl

@[simp] theorem seeDrained_held (S : RecycleSys) : S.seeDrained.held = S.held := by
  unfold seeDrained
  split <;> rfl

@[simp] theorem seeDrained_posted (S : RecycleSys) : S.seeDrained.posted = S.posted := by
  unfold seeDrained
  split <;> rfl

@[simp] theorem seeDrained_retrieved (S : RecycleSys) : S.seeDrained.retrieved = S.retrieved := by
  unfold seeDrained
  split <;> rfl

@[simp] theorem seeDrained_due (S : RecycleSys) : S.seeDrained.due = S.due := by
  unfold seeDrained
  split <;> rfl

theorem alone_succ (k : Nat) (S : Option RecycleSys) :
    alone (k + 1) S = alone k (recycleStep S .consume) := by
  rw [alone, replicate_succ, foldl_cons, alone]

/-! ## The invariant -/

variable (inv : ChannelInv S stored n)
include inv

theorem ChannelInv.seeDrained : ChannelInv S.seeDrained stored n := by
  unfold RecycleSys.seeDrained
  by_cases drained : S.buffer.producer = S.buffer.consumer
  · rw [if_pos drained]
    have all : stored.length = n := by
      have producer := inv.producer
      have consumer := inv.consumer
      simp only [msgSize] at producer consumer
      omega
    refine ⟨inv.posted, inv.producer, inv.consumer, inv.le, inv.room, inv.slots, inv.full, inv.held,
      Nat.le_refl _, fun first => ?_, inv.due⟩
    have nothing : S.buffer.saved = [] := by
      by_contra some
      have := inv.full some
      omega
    change S.posted.length = 0
    rw [inv.posted, nothing, reverse_nil, append_nil, all, first]
  · rw [if_neg drained]
    exact inv

theorem ChannelInv.finds_none (free : S.held = none) (drained : n = stored.length) :
    S.consume = some S.seeDrained := by
  have empty : S.buffer.producer = S.buffer.consumer := by
    rw [inv.producer, inv.consumer, drained]
  simp [consume, free, retrieveOneMsg, empty]

theorem ChannelInv.retrieves (free : S.held = none) (left : n < stored.length) :
    ∃ T, S.consume = some T ∧ ChannelInv T stored n ∧
      T.held ≠ none ∧ T.posted = S.posted ∧ T.due = S.due := by
  have unread : S.buffer.producer ≠ S.buffer.consumer := by
    rw [inv.producer, inv.consumer]
    simp only [msgSize]
    omega
  have before : S.retrieved = stored.take n := by
    rcases inv.held with ⟨_, same⟩ | ⟨some, _⟩
    · exact same
    · rw [free] at some
      cases some
  have next : S.buffer.slot S.buffer.consumer = stored[n] := by
    rw [inv.consumer]
    exact inv.slots n _ (getElem?_eq_getElem left)
  refine ⟨{ S with
      held := some S.buffer.consumer
      retrieved := S.retrieved ++ [S.buffer.slot S.buffer.consumer] }, ?_, ?_, by simp, rfl, rfl⟩
  · simp [consume, free, retrieveOneMsg, unread]
  · refine ⟨inv.posted, inv.producer, inv.consumer, inv.le, inv.room, inv.slots, inv.full,
      .inr ⟨rfl, left, ?_⟩, inv.drainedAt, inv.fresh, inv.due⟩
    change S.retrieved ++ [S.buffer.slot S.buffer.consumer] = stored.take (n + 1)
    rw [before, next, take_append_getElem]

theorem ChannelInv.increases (holds : S.held ≠ none) :
    ∃ T, S.consume = some T ∧ ChannelInv T stored (n + 1) ∧ T.held = none ∧
      T.posted = S.posted ∧ T.due = S.due := by
  rcases inv.held with ⟨none, _⟩ | ⟨held, left, retrieved⟩
  · exact absurd none holds
  have inside : S.buffer.consumer < endOffset := by
    have room := inv.room
    rw [inv.consumer]
    simp only [startOffset, msgSize, endOffset]
    omega
  have moved : ChannelInv { S with
      buffer := { S.buffer with consumer := S.buffer.consumer + msgSize }
      held := none } stored (n + 1) := by
    refine ⟨inv.posted, inv.producer, ?_, left, inv.room, inv.slots, inv.full, .inl ⟨rfl, retrieved⟩,
      inv.drainedAt, fun first => ?_, inv.due⟩
    · change S.buffer.consumer + msgSize = _
      rw [inv.consumer, Nat.mul_succ, Nat.add_assoc]
    · cases first
  refine ⟨_, ?_, moved.seeDrained, ?_, ?_, ?_⟩
  · simp [consume, held, increaseConsumerOffset, inside]
  · simp
  · simp
  · simp

/-- Alone, the recycle thread retrieves everything that is stored. -/
theorem ChannelInv.drains : ∃ k T, alone k (some S) = some T ∧ T.retrieved = stored := by
  -- by induction on what is left; a message it holds is finished first
  obtain ⟨left, remains⟩ : ∃ left, stored.length = n + left := ⟨_, (Nat.add_sub_of_le inv.le).symm⟩
  induction left generalizing S n with
  | zero =>
    rcases inv.held with ⟨_, retrieved⟩ | ⟨_, more, _⟩
    · refine ⟨0, S, rfl, ?_⟩
      rw [retrieved, ← Nat.add_zero n, ← remains, take_length]
    · omega
  | succ left ih =>
    have finish : ∀ {U : RecycleSys}, ChannelInv U stored n → U.held ≠ none →
        ∃ k T, alone k (some U) = some T ∧ T.retrieved = stored := by
      intro U inv holds
      obtain ⟨V, stepped, next, _⟩ := inv.increases holds
      obtain ⟨k, T, run, result⟩ := ih next (by omega)
      refine ⟨k + 1, T, ?_, result⟩
      rw [alone_succ, recycleStep, bind_some, stepped, run]
    by_cases free : S.held = none
    · obtain ⟨U, stepped, next, holds, _⟩ := inv.retrieves free (by omega)
      obtain ⟨k, T, run, result⟩ := finish next holds
      refine ⟨k + 1, T, ?_, result⟩
      rw [alone_succ, recycleStep, bind_some, stepped, run]
    · exact finish inv free

theorem ChannelInv.content : ringContent S.buffer = stored.drop n := by
  have ordered : S.buffer.consumer ≤ S.buffer.producer := by
    rw [inv.producer, inv.consumer]
    exact Nat.add_le_add_left (Nat.mul_le_mul_left _ inv.le) _
  have count : (S.buffer.producer - S.buffer.consumer) / msgSize = stored.length - n := by
    rw [inv.producer, inv.consumer]
    simp only [msgSize]
    omega
  rw [ringContent, if_pos ordered, count]
  apply ext_getElem
  · simp [slotRun]
  intro i short _
  simp only [slotRun, length_map, length_range] at short
  simp only [slotRun, getElem_map, getElem_range, getElem_drop]
  have place : S.buffer.consumer + msgSize * i = startOffset + msgSize * (n + i) := by
    rw [inv.consumer, Nat.mul_add, Nat.add_assoc]
  rw [place]
  exact inv.slots (n + i) _ (getElem?_eq_getElem (by omega))

theorem ChannelInv.consumed_eq : S.consumed = stored.take n := by
  unfold consumed
  rcases inv.held with ⟨none, retrieved⟩ | ⟨some, left, retrieved⟩
  · rw [if_pos none, retrieved]
  · rw [if_neg (by simp [some]), retrieved, ← take_append_getElem left, dropLast_concat]

theorem ChannelInv.delivered : Delivered S := by
  have producer := inv.producer
  have consumer := inv.consumer
  have le := inv.le
  have room := inv.room
  simp only [startOffset, msgSize] at producer consumer
  refine ⟨?_, ?_, ?_, ?_, ?_⟩
  · simp only [startOffset, endOffset]
    omega
  · simp only [startOffset, endOffset]
    omega
  · rw [inv.posted]
    apply IsPrefix.trans _ (prefix_append _ _)
    rcases inv.held with ⟨_, retrieved⟩ | ⟨_, _, retrieved⟩
    · rw [retrieved]
      exact take_prefix _ _
    · rw [retrieved]
      exact take_prefix _ _
  · rw [inv.consumed_eq, inv.content, take_append_drop]
    exact inv.posted
  · obtain ⟨k, T, run, all⟩ := inv.drains
    refine ⟨k, T, run, ?_⟩
    rw [all, inv.posted, take_append_of_le_length inv.due]
    exact take_prefix _ _

theorem ChannelInv.consume : ∃ T m, S.consume = some T ∧ ChannelInv T stored m := by
  by_cases free : S.held = none
  · by_cases left : n < stored.length
    · obtain ⟨T, stepped, next, _⟩ := inv.retrieves free left
      exact ⟨T, n, stepped, next⟩
    · have drained : n = stored.length := Nat.le_antisymm inv.le (Nat.le_of_not_lt left)
      exact ⟨_, n, inv.finds_none free drained, inv.seeDrained⟩
  · obtain ⟨T, stepped, next, _⟩ := inv.increases free
    exact ⟨T, n + 1, stepped, next⟩

variable (msg : RecycleMsg)

theorem ChannelInv.slots_stored (i : Nat) (m : RecycleMsg)
    (found : (stored ++ [msg])[i]? = some m) :
    update S.buffer.slot S.buffer.producer msg (startOffset + msgSize * i) = m := by
  by_cases last : i = stored.length
  · rw [last, getElem?_concat_length] at found
    rw [last, ← inv.producer, update_self]
    exact Option.some.inj found
  have short : i < stored.length := by
    have bound := (List.getElem?_eq_some_iff.mp found).1
    rw [length_append, length_singleton] at bound
    omega
  rw [getElem?_append_left short] at found
  have other : startOffset + msgSize * i ≠ S.buffer.producer := by
    rw [inv.producer]
    simp only [msgSize]
    omega
  rw [update_of_ne other]
  exact inv.slots i m found

theorem ChannelInv.stores (room : stored.length < 255) :
    ChannelInv (S.post msg) (stored ++ [msg]) n := by
  have producer := inv.producer
  have le := inv.le
  have drainedAt := inv.drainedAt
  have nothing : S.buffer.saved = [] := by
    by_contra some
    have := inv.full some
    omega
  have free : S.buffer.producer ≥ S.buffer.consumer ∧ S.buffer.producer < endOffset := by
    rw [producer, inv.consumer]
    simp only [startOffset, msgSize, endOffset]
    omega
  have posts : (notifyUserRecycler S.buffer msg).1 = { S.buffer with
        producer := S.buffer.producer + msgSize
        slot := update S.buffer.slot S.buffer.producer msg } := by
    simp only [notifyUserRecycler, getFreeSlot, free, and_self, if_true, nothing,
      RecycleBuffer.setMsg, moveSaved]
  unfold post
  rw [posts]
  refine ⟨?_, ?_, inv.consumer, ?_, ?_, inv.slots_stored msg, fun some => absurd nothing some, ?_,
    ?_, inv.fresh, ?_⟩
  · simp [inv.posted, nothing]
  · simp only [producer, length_append, length_singleton, Nat.mul_succ, Nat.add_assoc]
  · rw [length_append]
    omega
  · rw [length_append, length_singleton]
    omega
  · rcases inv.held with ⟨none, retrieved⟩ | ⟨some, left, retrieved⟩
    · refine .inl ⟨none, ?_⟩
      rw [take_append_of_le_length le]
      exact retrieved
    · refine .inr ⟨some, ?_, ?_⟩
      · rw [length_append]
        omega
      · rw [take_append_of_le_length left]
        exact retrieved
  · simp only [length_append]
    omega
  · rw [inv.posted, nothing, reverse_nil, append_nil] at drainedAt
    simp only [length_append]
    omega

omit inv in
/-- A post that finds the buffer full of messages none of which was consumed. -/
theorem ChannelInv.saves (inv : ChannelInv S stored 0) (msg : RecycleMsg)
    (last : stored.length = 255) : ChannelInv (S.post msg) stored 0 := by
  have producer := inv.producer
  have consumer := inv.consumer
  have drainedAt := inv.drainedAt
  rw [last] at producer
  have saves : (notifyUserRecycler S.buffer msg).1 =
      { S.buffer with saved := msg :: S.buffer.saved } := by
    simp [notifyUserRecycler, getFreeSlot, producer, consumer, startOffset, msgSize, endOffset]
  unfold post
  rw [saves]
  refine ⟨?_, inv.producer, consumer, inv.le, inv.room, inv.slots, fun _ => last, inv.held, ?_,
    inv.fresh, ?_⟩
  · simp [inv.posted]
  · simp only [length_append]
    omega
  · change S.drainedAt ≤ _
    rw [inv.fresh rfl]
    exact Nat.zero_le _

theorem ChannelInv.post
    (safe : ¬ (S.buffer.producer = endOffset ∧ S.buffer.consumer > startOffset)) :
    ∃ stored', ChannelInv (S.post msg) stored' n := by
  by_cases room : stored.length < 255
  · exact ⟨_, inv.stores msg room⟩
  have last : stored.length = 255 := Nat.le_antisymm inv.room (Nat.le_of_not_lt room)
  have nothing : n = 0 := by
    by_contra some
    apply safe
    rw [inv.producer, inv.consumer, last]
    refine ⟨rfl, ?_⟩
    simp only [msgSize]
    omega
  subst nothing
  exact ⟨stored, inv.saves msg last⟩

omit inv

/-! ## A post that wraps the producer -/

/-- What the loop over the saved messages can do to the offsets and the list. -/
theorem moveSaved_spec (list : List RecycleMsg) :
    ∀ (s : RecycleBuffer) (j : Nat), s.producer = startOffset + msgSize * j → j ≤ 255 →
      s.consumer ≤ endOffset →
      ∃ i ≤ 255, (moveSaved list s).producer = startOffset + msgSize * i ∧
        (moveSaved list s).consumer = s.consumer ∧
        (moveSaved list s).saved.length ≤ list.length := by
  induction list with
  | nil => exact fun s j producer bound _ => ⟨j, bound, producer, rfl, Nat.le_refl _⟩
  | cons msg rest ih =>
    intro s j producer bound inside
    have moved : ∀ off s', getFreeSlot s = some (off, s') →
        s'.consumer = s.consumer ∧ ∃ i ≤ 255, s'.producer = startOffset + msgSize * i := by
      intro off s' slot
      unfold getFreeSlot at slot
      split at slot
      · cases slot
        refine ⟨rfl, j + 1, ?_, ?_⟩
        · simp only [startOffset, msgSize, endOffset] at *
          omega
        · simp only [producer, msgSize]
          omega
      split at slot
      · cases slot
        exact ⟨rfl, 1, by omega, rfl⟩
      split at slot
      · cases slot
        refine ⟨rfl, j + 1, ?_, ?_⟩
        · simp only [startOffset, msgSize, endOffset] at *
          omega
        · simp only [producer, msgSize]
          omega
      · cases slot
    unfold moveSaved
    cases slot : getFreeSlot s with
    | none => exact ⟨j, bound, producer, rfl, Nat.le_refl _⟩
    | some found =>
      obtain ⟨off, s'⟩ := found
      obtain ⟨consumer, i, small, producer'⟩ := moved off s' slot
      obtain ⟨i', small', final, same, fewer⟩ :=
        ih (s'.setMsg off msg) i producer' small (consumer.symm ▸ inside)
      exact ⟨i', small', final, same.trans consumer, Nat.le_trans fewer (Nat.le_succ _)⟩

def Stuck (S : RecycleSys) : Prop :=
  ∃ i m, S.buffer.producer = startOffset + msgSize * i ∧
    S.buffer.consumer = startOffset + msgSize * m ∧ i < m ∧ m ≤ 255 ∧
    (S.held = none ∨ S.held = some S.buffer.consumer)

theorem Stuck.retrieves (stuck : Stuck S) (free : S.held = none) :
    ∃ T, S.consume = some T ∧ Stuck T ∧ T.held ≠ none ∧ T.posted = S.posted ∧
      T.retrieved.length = S.retrieved.length + 1 := by
  obtain ⟨i, m, producer, consumer, before, bound, _⟩ := stuck
  have unread : S.buffer.producer ≠ S.buffer.consumer := by
    rw [producer, consumer]
    simp only [msgSize]
    omega
  refine ⟨{ S with
      held := some S.buffer.consumer
      retrieved := S.retrieved ++ [S.buffer.slot S.buffer.consumer] }, ?_,
    ⟨i, m, producer, consumer, before, bound, .inr rfl⟩, by simp, rfl, by simp⟩
  simp [consume, free, retrieveOneMsg, unread]

theorem Stuck.increases (stuck : Stuck S) (holds : S.held ≠ none) :
    ∃ T, S.consume = some T ∧ Stuck T ∧ T.held = none ∧ T.posted = S.posted ∧
      T.retrieved = S.retrieved := by
  obtain ⟨i, m, producer, consumer, before, bound, none | held⟩ := stuck
  · exact absurd none holds
  by_cases last : m = 255
  · have atEnd : S.buffer.consumer = endOffset := by
      rw [consumer, last]
      rfl
    refine ⟨{ S with held := none }.seeDrained, ?_, ?_, by simp, by simp, by simp⟩
    · simp [consume, held, increaseConsumerOffset, atEnd]
    · exact ⟨i, m, by simpa using producer, by simpa using consumer, before, bound,
        .inl (by simp)⟩
  have inside : S.buffer.consumer < endOffset := by
    rw [consumer]
    simp only [startOffset, msgSize, endOffset]
    omega
  refine ⟨{ S with
      buffer := { S.buffer with consumer := S.buffer.consumer + msgSize }
      held := none }.seeDrained, ?_, ?_, by simp, by simp, by simp⟩
  · simp [consume, held, increaseConsumerOffset, inside]
  · refine ⟨i, m + 1, by simpa using producer, ?_, by omega, by omega, .inl (by simp)⟩
    simp only [seeDrained_buffer, consumer, Nat.mul_succ, Nat.add_assoc]

/-- Two steps of the recycle thread retrieve one more message, for ever. -/
theorem Stuck.endless (stuck : Stuck S) (k : Nat) :
    ∃ T, alone (2 * k) (some S) = some T ∧ T.posted = S.posted ∧
      T.retrieved.length = S.retrieved.length + k := by
  induction k generalizing S with
  | zero => exact ⟨S, rfl, rfl, rfl⟩
  | succ k ih =>
    have steps : ∃ T U, S.consume = some T ∧ T.consume = some U ∧ Stuck U ∧
        U.posted = S.posted ∧ U.retrieved.length = S.retrieved.length + 1 := by
      by_cases free : S.held = none
      · obtain ⟨T, first, stuck', holds, posted, more⟩ := stuck.retrieves free
        obtain ⟨U, second, stuck'', _, posted', same⟩ := stuck'.increases holds
        exact ⟨T, U, first, second, stuck'', posted'.trans posted, by rw [same, more]⟩
      · obtain ⟨T, first, stuck', holds, posted, same⟩ := stuck.increases free
        obtain ⟨U, second, stuck'', _, posted', more⟩ := stuck'.retrieves holds
        exact ⟨T, U, first, second, stuck'', posted'.trans posted, by rw [more, same]⟩
    obtain ⟨T, U, first, second, stuck', posted, more⟩ := steps
    obtain ⟨V, run, posted', count⟩ := ih stuck'
    refine ⟨V, ?_, posted'.trans posted, by omega⟩
    rw [Nat.mul_succ, alone_succ, recycleStep, bind_some, first, alone_succ, recycleStep,
      bind_some, second, run]

/-- After a post that wraps the producer the recycle thread alone comes to a state without
delivery. -/
theorem ChannelInv.wraps (inv : ChannelInv S stored n) (msg : RecycleMsg)
    (atEnd : S.buffer.producer = endOffset) (some_ : S.buffer.consumer > startOffset) :
    ∃ k, ¬ ChannelKept (alone k (some (S.post msg))) := by
  have consumer := inv.consumer
  have le := inv.le
  have all : stored.length = 255 := by
    have producer := inv.producer
    rw [atEnd] at producer
    simp only [startOffset, msgSize, endOffset] at producer
    omega
  -- the post takes the first slot, and perhaps more for saved messages
  obtain ⟨i, small, producer', consumer', fewer⟩ : ∃ i ≤ 255,
      (S.post msg).buffer.producer = startOffset + msgSize * i ∧
      (S.post msg).buffer.consumer = S.buffer.consumer ∧
      (S.post msg).buffer.saved.length ≤ S.buffer.saved.length := by
    have slot : getFreeSlot S.buffer =
        some (startOffset, { S.buffer with producer := startOffset + msgSize }) := by
      simp [getFreeSlot, atEnd, some_]
    unfold RecycleSys.post notifyUserRecycler
    rw [slot]
    apply moveSaved_spec S.buffer.saved _ 1
    · rfl
    · omega
    · change S.buffer.consumer ≤ endOffset
      rw [consumer]
      simp only [startOffset, msgSize, endOffset]
      omega
  by_cases behind : i < n
  · have stuck : Stuck (S.post msg) := by
      refine ⟨i, n, producer', consumer'.trans consumer, behind, by omega, ?_⟩
      rw [consumer']
      rcases inv.held with ⟨none, _⟩ | ⟨held, _⟩
      · exact .inl none
      · exact .inr held
    obtain ⟨T, run, posted, endless⟩ := stuck.endless ((S.post msg).posted.length + 1)
    refine ⟨2 * ((S.post msg).posted.length + 1), fun kept => ?_⟩
    obtain ⟨U, reached, delivered⟩ := kept
    rw [run] at reached
    cases reached
    have short := delivered.inOrder.length_le
    rw [posted] at short
    omega
  · refine ⟨0, fun kept => ?_⟩
    obtain ⟨U, reached, delivered⟩ := kept
    cases reached
    -- the messages that stand in the buffer and in the list are too few
    have count := congrArg length delivered.stands
    have before := congrArg length inv.posted
    have ordered : (S.post msg).buffer.consumer ≤ (S.post msg).buffer.producer := by
      rw [producer', consumer', consumer]
      simp only [msgSize]
      omega
    have consumed : (S.post msg).consumed = S.consumed := rfl
    have posted : (S.post msg).posted = S.posted ++ [msg] := rfl
    rw [posted, consumed, inv.consumed_eq, ringContent, if_pos ordered, producer', consumer',
      consumer] at count
    simp only [slotRun, length_append, length_singleton, length_map,
      length_range, length_take, length_reverse, msgSize] at count before
    omega

end Delivery

/-- From both offsets at `START_OFFSET`: the runs in which no post wraps the producer are exactly
the runs such that every state reached, and every state the recycle thread alone goes on to, has the
messages delivered. -/
theorem recycle_channel_delivers (slot : Nat → RecycleMsg) (ops : List RecycleOp) :
    RunMeets recycleStep RecycleSafe (some (recycleInit slot)) ops ↔
      ∀ pre, pre <+: ops → ∀ k,
        ChannelKept (alone k (pre.foldl recycleStep (some (recycleInit slot)))) := by
  apply run_exact recycleStep RecycleSafe
    (fun S => ∃ T stored n, S = some T ∧ ChannelInv T stored n) (fun S => ∀ k, ChannelKept (alone k S))
  · rintro S ⟨T, stored, n, rfl, inv⟩ k
    induction k generalizing T n with
    | zero => exact ⟨T, rfl, inv.delivered⟩
    | succ k ih =>
      obtain ⟨U, m, stepped, next⟩ := inv.consume
      rw [alone_succ, recycleStep, bind_some, stepped]
      exact ih U m next
  · rintro S op ⟨T, stored, n, rfl, inv⟩ safe
    cases op with
    | notify badge exitcode =>
      obtain ⟨stored', next⟩ := inv.post ⟨badge, exitcode⟩ (safe T rfl)
      exact ⟨_, stored', n, rfl, next⟩
    | consume =>
      obtain ⟨U, m, stepped, next⟩ := inv.consume
      exact ⟨U, stored, m, stepped, next⟩
  · rintro S op ⟨T, stored, n, rfl, inv⟩ kept
    cases op with
    | notify badge exitcode =>
      intro U same wraps
      cases same
      obtain ⟨k, broken⟩ := inv.wraps ⟨badge, exitcode⟩ wraps.1 wraps.2
      exact broken (kept k)
    | consume => trivial
  · refine ⟨_, [], 0, rfl, rfl, rfl, rfl, Nat.le_refl _, Nat.zero_le _, ?_, ?_, .inl ⟨rfl, rfl⟩,
      Nat.le_refl _, fun _ => rfl, Nat.le_refl _⟩
    · intro i msg found
      cases found
    · intro some
      exact absurd rfl some

def exampleWrap : List RecycleOp :=
  replicate 255 (.notify 1 0) ++ replicate 510 .consume ++ [.notify 2 0] ++
    replicate 4 .consume

/-- The recycle thread stays at the end of the page: it has retrieved 257 messages of 256, the last
two from behind the page, and never the last one posted. -/
theorem consumer_never_wraps :
    (exampleWrap.foldl recycleStep (some (recycleInit fun _ => ⟨0, 0⟩))).map
        (fun T => (T.buffer.producer, T.buffer.consumer, T.posted.length, T.retrieved.length)) =
      some (32, 4096, 256, 257) ∧
    ¬ ChannelKept (exampleWrap.foldl recycleStep (some (recycleInit fun _ => ⟨0, 0⟩))) := by
  have reached : (exampleWrap.foldl recycleStep (some (recycleInit fun _ => ⟨0, 0⟩))).map
      (fun T => (T.buffer.producer, T.buffer.consumer, T.posted.length, T.retrieved.length)) =
        some (32, 4096, 256, 257) := by decide +kernel
  refine ⟨reached, fun kept => ?_⟩
  obtain ⟨T, run, delivered⟩ := kept
  rw [run, map_some] at reached
  have values := Option.some.inj reached
  simp only [Prod.mk.injEq] at values
  have short := delivered.inOrder.length_le
  omega

end KernelLabs.ChCore
