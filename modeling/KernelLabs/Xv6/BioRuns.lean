import KernelLabs.Xv6.Bio

/-!
# Coherence of the buffer cache over all interleavings

What a step does to the copies of the blocks is one of five effects (`Moves.effect`), and what it
does to the reference counts is a transfer between holders, waiters and pins.  The reference counts
keep a buffer in place while a process waits for it or has it, and so the sleep-lock protects the
copy that the process asked for.
-/

set_option autoImplicit false

namespace KernelLabs.Xv6.Bio

open Lib Function List Option Pc Cache UInt32

/-! ## Copies -/

variable {ticks blockno : UInt32}

section Copies
variable {P D : Type} {bufs : BufId → Buf D} {b : BufId} {s s' : Cache P D}

def SameCopy (buf buf' : Buf D) : Prop :=
  buf'.block = buf.block ∧ buf'.valid = buf.valid ∧ buf'.data = buf.data

theorem SameCopy.refl (buf : Buf D) : SameCopy buf buf := ⟨rfl, rfl, rfl⟩

theorem Buf.put_copy (buf : Buf D) (ticks : UInt32) : SameCopy buf (buf.put ticks) := by
  rw [Buf.put]
  split <;> exact ⟨rfl, rfl, rfl⟩

theorem Buf.put_refcnt (buf : Buf D) (ticks : UInt32) :
    (buf.put ticks).refcnt = buf.refcnt - 1 := by
  rw [Buf.put]
  split <;> rfl

variable {buf : Buf D}

theorem sameCopy_update (same : SameCopy (bufs b) buf) (c : BufId) :
    SameCopy (bufs c) (update bufs b buf c) := by
  by_cases here : c = b
  · subst here
    rwa [update_self]
  · rw [update_of_ne here]
    exact .refl _

theorem update_kept {c : BufId}
    (keeps : buf.block = (bufs b).block ∧ ((bufs b).valid = true → buf.valid = true)) :
    (update bufs b buf c).block = (bufs c).block ∧
      ((bufs c).valid = true → (update bufs b buf c).valid = true) := by
  by_cases here : c = b
  · subst here
    rwa [update_self]
  · rw [update_of_ne here]
    exact ⟨rfl, id⟩

inductive Effect (s s' : Cache P D) : Prop where
  | same (bufs : ∀ b, SameCopy (s.bufs b) (s'.bufs b)) (disk : s'.disk = s.disk)
      (events : s'.events = s.events)
  | recycled (b : BufId) (dev blockno : UInt32) (place : b.1 = bucketOf blockno) (device : dev ≠ 0)
      (miss : ∀ j, (s.bufs (b.1, j)).block ≠ (dev, blockno)) (free : (s.bufs b).refcnt = 0)
      (bufs : s'.bufs = update s.bufs b ((s.bufs b).recycle dev blockno))
      (disk : s'.disk = s.disk) (events : s'.events = .evicted (s.bufs b).block :: s.events)
  | filled (p : P) (b : BufId) (block : Block) (here : s.pc p = .reading b block)
      (invalid : (s.bufs b).valid = false)
      (bufs : s'.bufs = update s.bufs b ((s.bufs b).read s.disk))
      (disk : s'.disk = s.disk) (events : s'.events = s.events)
  | stored (p : P) (b : BufId) (data : D) (idle : s.pc p = .idle) (held : s.lock b = some p)
      (bufs : s'.bufs = update s.bufs b { s.bufs b with data := data })
      (disk : s'.disk = s.disk) (events : s'.events = .stored (s.bufs b).block data :: s.events)
  | written (p : P) (b : BufId) (idle : s.pc p = .idle) (held : s.lock b = some p)
      (bufs : s'.bufs = s.bufs)
      (disk : s'.disk = update s.disk (s.bufs b).block (s.bufs b).data)
      (events : s'.events = .written (s.bufs b).block (s.bufs b).data :: s.events)

theorem Moves.effect [DecidableEq P] {a : Act P D} (moved : Moves s a s') : Effect s s' := by
  cases moved with
  | stays | ticks | panics | acquires | returns | releases => exact .same (fun _ => .refl _) rfl rfl
  | hits | pins | unpins => exact .same (sameCopy_update ⟨rfl, rfl, rfl⟩) rfl rfl
  | recycles idle device miss free => exact .recycled _ _ _ rfl device miss free rfl rfl rfl
  | reads here invalid => exact .filled _ _ _ here invalid rfl rfl rfl
  | stores idle held => exact .stored _ _ _ idle held rfl rfl rfl
  | writes idle held => exact .written _ _ idle held rfl rfl rfl
  | puts here => exact .same (sameCopy_update (Buf.put_copy _ _)) rfl rfl

theorem Effect.kept (effect : Effect s s') : Kept s s' := by
  intro c used
  cases effect with
  | same bufs _ _ =>
    obtain ⟨block, valid, _⟩ := bufs c
    exact ⟨block, fun read => valid.trans read⟩
  | recycled b dev blockno _ _ _ free bufs _ _ =>
    have other : c ≠ b := by
      rintro rfl
      exact used free
    rw [bufs, update_of_ne other]
    exact ⟨rfl, id⟩
  | filled p b block _ _ bufs _ _ =>
    rw [bufs]
    exact update_kept ⟨rfl, fun _ => rfl⟩
  | stored p b data _ _ bufs _ _ =>
    rw [bufs]
    exact update_kept ⟨rfl, id⟩
  | written p b _ _ bufs _ _ =>
    rw [bufs]
    exact ⟨rfl, id⟩

/-! ## One buffer for a block -/

structure Identity (s : Cache P D) : Prop where
  unique : ∀ b b', (s.bufs b).dev ≠ 0 → (s.bufs b).block = (s.bufs b').block → b = b'
  bucket : ∀ b, (s.bufs b).dev ≠ 0 → b.1 = bucketOf (s.bufs b).blockno

theorem Identity.of_blocks (inv : Identity s)
    (same : ∀ b, (s'.bufs b).block = (s.bufs b).block) : Identity s' where
  unique b b' device equal := by
    have dev : (s'.bufs b).dev = (s.bufs b).dev := congrArg Prod.fst (same b)
    rw [dev] at device
    rw [same b, same b'] at equal
    exact inv.unique b b' device equal
  bucket b device := by
    have dev : (s'.bufs b).dev = (s.bufs b).dev := congrArg Prod.fst (same b)
    have blockno : (s'.bufs b).blockno = (s.bufs b).blockno := congrArg Prod.snd (same b)
    rw [dev] at device
    rw [blockno]
    exact inv.bucket b device

theorem Identity.miss (inv : Identity s) {dev : UInt32} (device : dev ≠ 0)
    (miss : ∀ j, (s.bufs (bucketOf blockno, j)).block ≠ (dev, blockno)) (b : BufId) :
    (s.bufs b).block ≠ (dev, blockno) := by
  intro same
  have dev : (s.bufs b).dev = dev := congrArg Prod.fst same
  have number : (s.bufs b).blockno = blockno := congrArg Prod.snd same
  have place := inv.bucket b (by rwa [dev])
  rw [number] at place
  apply miss b.2
  rw [← place]
  exact same

theorem Identity.effect (inv : Identity s) (effect : Effect s s') : Identity s' := by
  cases effect with
  | same bufs _ _ => exact inv.of_blocks fun b => (bufs b).1
  | filled p b block _ _ bufs _ _ =>
    refine inv.of_blocks fun c => ?_
    rw [bufs]
    apply And.left
    exact update_kept ⟨rfl, fun _ => rfl⟩
  | stored p b data _ _ bufs _ _ =>
    refine inv.of_blocks fun c => ?_
    rw [bufs]
    apply And.left
    exact update_kept ⟨rfl, id⟩
  | written p b _ _ bufs _ _ => exact inv.of_blocks fun b => by rw [bufs]
  | recycled b dev blockno place device miss _ bufs _ _ =>
    have absent : ∀ c, (s.bufs c).block ≠ (dev, blockno) := inv.miss device (place ▸ miss)
    constructor
    · intro c c' used equal
      rw [bufs] at used equal
      by_cases here : c = b
      · subst here
        by_contra other
        rw [update_self, update_of_ne (Ne.symm other)] at equal
        exact absent c' equal.symm
      rw [update_of_ne here] at used equal
      by_cases there : c' = b
      · subst there
        rw [update_self] at equal
        exact absurd equal (absent c)
      · rw [update_of_ne there] at equal
        exact inv.unique c c' used equal
    · intro c used
      rw [bufs] at used ⊢
      by_cases here : c = b
      · subst here
        rw [update_self]
        exact place
      · rw [update_of_ne here] at used ⊢
        exact inv.bucket c used

end Copies

/-! ## Reference counts -/

variable {panicked : Option Panic} {pins : BufId → Nat} {block : Block} {next : Pc}

section Counts
variable {P D : Type} [Fintype P]

def Counted (s : Cache P D) : Prop :=
  ∀ b, (s.bufs b).refcnt.toNat = s.holders b + s.waiters b + s.pins b

theorem update_refcnt (bufs : BufId → Buf D) (b : BufId) (buf : Buf D) (c : BufId) :
    (update bufs b buf c).refcnt.toNat =
      if c = b then buf.refcnt.toNat else (bufs c).refcnt.toNat := by
  rw [update_apply, apply_ite Buf.refcnt, apply_ite toNat]

variable {s : Cache P D} {b : BufId} {p : P}

theorem ne_zero_of_pos {n : UInt32} (pos : 0 < n.toNat) : n ≠ 0 := by
  rintro rfl
  exact absurd pos (by decide)

theorem Counted.used_of_lock (inv : Counted s) (held : s.lock b = some p) : (s.bufs b).refcnt ≠ 0 := by
  have count := inv b
  rw [holders, held] at count
  exact ne_zero_of_pos (by simp only [isSome_some, Bool.toNat_true] at count; omega)

theorem Counted.used_of_pins (inv : Counted s) (pinned : 0 < s.pins b) : (s.bufs b).refcnt ≠ 0 := by
  have count := inv b
  exact ne_zero_of_pos (by omega)

variable [DecidableEq P]

theorem Counted.used_of_waiting (inv : Counted s) (here : s.pc p = .waiting b block) :
    (s.bufs b).refcnt ≠ 0 := by
  have count := inv b
  have one := le_total (waitsFor b) s.pc p
  rw [here, waitsFor, if_pos rfl] at one
  rw [waiters] at count
  exact ne_zero_of_pos (by omega)

theorem Counted.used_of_releasing (inv : Counted s) (here : s.pc p = .releasing b) :
    (s.bufs b).refcnt ≠ 0 := by
  have count := inv b
  have one := le_total (givesBack b) s.pc p
  rw [here, givesBack, if_pos rfl] at one
  rw [holders] at count
  exact ne_zero_of_pos (by omega)

variable {bufs : BufId → Buf D} {disk : Block → D} {events : List (Event D)}

theorem Counted.goto {lock : BufId → Option P} (inv : Counted s)
    (change : ∀ b, (bufs b).refcnt.toNat + ((s.lock b).isSome.toNat + (s.pc p).givesBack b +
        (s.pc p).waitsFor b + s.pins b) =
      (s.bufs b).refcnt.toNat + ((lock b).isSome.toNat + next.givesBack b + next.waitsFor b +
        pins b)) :
    Counted (goto ⟨bufs, lock, s.pc, disk, ticks, panicked, pins, events⟩ p next) := by
  intro b
  have count := inv b
  have changed := change b
  have given := total_update (givesBack b) s.pc p next
  have waited := total_update (waitsFor b) s.pc p next
  simp only [Cache.holders, Cache.waiters, Cache.goto] at count ⊢
  omega

omit [DecidableEq P] in
theorem Counted.keep (inv : Counted s)
    (change : ∀ b, (bufs b).refcnt.toNat + s.pins b = (s.bufs b).refcnt.toNat + pins b) :
    Counted ⟨bufs, s.lock, s.pc, disk, ticks, panicked, pins, events⟩ := by
  intro b
  have count := inv b
  have changed := change b
  simp only [holders, waiters] at count ⊢
  omega

theorem Counted.moves {s' : Cache P D} {a : Act P D} (inv : Counted s) (moved : Moves s a s')
    (roomy : Roomy s a) (running : s.panicked = none) : Counted s' := by
  cases moved with
  | stays | ticks | panics | writes => exact inv
  | @stores p b data idle held =>
    refine inv.keep fun c => ?_
    rw [update_refcnt]
    split
    · next here =>
      subst here
      rfl
    · rfl
  | @hits p dev blockno i idle device same =>
    have room := succ_toNat ((roomy running idle).1 i same)
    refine inv.goto fun c => ?_
    simp only [update_refcnt, idle, givesBack, waitsFor, Buf.ref, room, eq_comm (a := (_, i))]
    split
    · next here =>
      subst here
      omega
    · rfl
  | @recycles p dev blockno i idle device miss free =>
    refine inv.goto fun c => ?_
    simp only [record, update_refcnt, idle, givesBack, waitsFor, Buf.recycle, eq_comm (a := (_, i))]
    split
    · next here =>
      subst here
      have zero : (s.bufs (bucketOf blockno, i)).refcnt.toNat = 0 := by rw [free]; rfl
      have one : (1 : UInt32).toNat = 1 := rfl
      rw [zero, one]
      omega
    · rfl
  | @acquires p b block here free =>
    refine inv.goto fun c => ?_
    simp only [here, givesBack, waitsFor, update_apply, eq_comm (a := b)]
    split
    · next same =>
      subst same
      rw [free]
      simp only [isSome_none, isSome_some, Bool.toNat_false, Bool.toNat_true]
    · rfl
  | returns here valid =>
    refine inv.goto fun c => ?_
    simp only [here, givesBack, waitsFor]
  | @reads p b block here invalid =>
    refine inv.goto fun c => ?_
    simp only [update_refcnt, here, givesBack, waitsFor, Buf.read]
    split
    · next same => rw [same]
    · rfl
  | @releases p b idle held =>
    refine inv.goto fun c => ?_
    simp only [idle, givesBack, waitsFor, update_apply, eq_comm (a := b)]
    split
    · next same =>
      subst same
      rw [held]
      simp only [isSome_none, isSome_some, Bool.toNat_false, Bool.toNat_true]
    · rfl
  | @puts p b here =>
    have less := pred_toNat (inv.used_of_releasing here)
    refine inv.goto fun c => ?_
    simp only [update_refcnt, here, givesBack, waitsFor, Buf.put_refcnt, eq_comm (a := b)]
    split
    · next same =>
      subst same
      omega
    · rfl
  | @pins p b running idle =>
    have room := succ_toNat (roomy running idle)
    refine inv.keep fun c => ?_
    rw [setBuf, update_refcnt, update_apply]
    split
    · next same =>
      subst same
      rw [Buf.ref, room]
      omega
    · rfl
  | @unpins p b pinned =>
    have less := pred_toNat (inv.used_of_pins pinned)
    refine inv.keep fun c => ?_
    rw [setBuf, update_refcnt, update_apply]
    split
    · next same =>
      subst same
      simp only [Buf.unref]
      omega
    · rfl

end Counts

/-! ## Who has which buffer -/

section Handing
variable {P D : Type}

def PcOk (s : Cache P D) (p : P) : Pc → Prop
  | .idle | .releasing _ => True
  | .waiting b block => (s.bufs b).block = block ∧ block.1 ≠ 0
  | .reading b block => (s.bufs b).block = block ∧ block.1 ≠ 0 ∧ s.lock b = some p

structure Handed (s : Cache P D) : Prop where
  placed : ∀ p, PcOk s p (s.pc p)
  held : ∀ b p, s.lock b = some p →
    (s.bufs b).dev ≠ 0 ∧ ((s.bufs b).valid = true ∨ ∃ block, s.pc p = .reading b block)

variable {s s' : Cache P D} {p : P}

theorem Handed.of_idle (inv : Handed s) {b : BufId} (lock : s.lock b = some p)
    (idle : s.pc p = .idle) : (s.bufs b).dev ≠ 0 ∧ (s.bufs b).valid = true := by
  obtain ⟨device, read⟩ := inv.held b p lock
  refine ⟨device, ?_⟩
  rcases read with valid | ⟨block, reading⟩
  · exact valid
  · rw [idle] at reading
    cases reading

theorem Kept.dev (kept : Kept s s') {b : BufId} (used : (s.bufs b).refcnt ≠ 0) :
    (s'.bufs b).dev = (s.bufs b).dev :=
  congrArg Prod.fst (kept b used).1

variable [Fintype P] [DecidableEq P]

theorem PcOk.keep (ok : PcOk s p (s.pc p)) (counted : Counted s) (kept : Kept s s')
    (locks : ∀ b, s.lock b = some p → s'.lock b = some p) : PcOk s' p (s.pc p) := by
  cases here : s.pc p with
  | idle | releasing => trivial
  | waiting b block =>
    rw [here] at ok
    exact ⟨(kept b (counted.used_of_waiting here)).1.trans ok.1, ok.2⟩
  | reading b block =>
    rw [here] at ok
    obtain ⟨same, device, lock⟩ := ok
    exact ⟨(kept b (counted.used_of_lock lock)).1.trans same, device, locks b lock⟩

variable {lock : BufId → Option P}

omit [Fintype P] [DecidableEq P] in
theorem update_lock_iff {b : BufId} {holder : Option P} {u : P} (before : lock b ≠ some u)
    (after : holder ≠ some u) (c : BufId) : update lock b holder c = some u ↔ lock c = some u := by
  by_cases same : c = b
  · subst same
    rw [update_self]
    exact iff_of_false after before
  · rw [update_of_ne same]

omit [DecidableEq P] in
theorem Handed.contents {b : BufId} (inv : Handed s) (counted : Counted s) (kept : Kept s s')
    (lock : s.lock b = some p) (elsewhere : ∀ block, s.pc p ≠ .reading b block) {other : Prop} :
    (s'.bufs b).dev ≠ 0 ∧ ((s'.bufs b).valid = true ∨ other) := by
  have used := counted.used_of_lock lock
  obtain ⟨device, read⟩ := inv.held b p lock
  refine ⟨by rwa [kept.dev used], .inl ((kept b used).2 ?_)⟩
  rcases read with valid | ⟨block, reading⟩
  · exact valid
  · exact absurd reading (elsewhere block)

variable {bufs : BufId → Buf D} {disk : Block → D}

theorem Handed.move {events : List (Event D)} (inv : Handed s) (counted : Counted s)
    (kept : Kept s (goto ⟨bufs, lock, s.pc, disk, ticks, panicked, pins, events⟩ p next))
    (others : ∀ u, u ≠ p → ∀ b, lock b = some u ↔ s.lock b = some u)
    (mine : PcOk (goto ⟨bufs, lock, s.pc, disk, ticks, panicked, pins, events⟩ p next) p next)
    (own : ∀ b, lock b = some p →
      (bufs b).dev ≠ 0 ∧ ((bufs b).valid = true ∨ ∃ block, next = .reading b block)) :
    Handed (goto ⟨bufs, lock, s.pc, disk, ticks, panicked, pins, events⟩ p next) where
  placed := (forall_update_iff s.pc _).mpr
    ⟨mine, fun u same => (inv.placed u).keep counted kept fun b => (others u same b).mpr⟩
  held b u has := by
    by_cases same : u = p
    · subst same
      simpa only [goto, update_self] using own b has
    have had := (others u same b).mp has
    have used := counted.used_of_lock had
    obtain ⟨device, read⟩ := inv.held b u had
    refine ⟨by rwa [kept.dev used], ?_⟩
    simp only [goto, update_of_ne same]
    exact read.imp_left (kept b used).2

theorem Handed.keep {events : List (Event D)} (inv : Handed s) (counted : Counted s)
    (kept : Kept s ⟨bufs, s.lock, s.pc, disk, ticks, panicked, pins, events⟩) :
    Handed ⟨bufs, s.lock, s.pc, disk, ticks, panicked, pins, events⟩ where
  placed u := (inv.placed u).keep counted kept fun _ => id
  held b u has := by
    have used := counted.used_of_lock has
    obtain ⟨device, read⟩ := inv.held b u has
    exact ⟨by rwa [kept.dev used], read.imp_left (kept b used).2⟩

theorem Handed.moves {a : Act P D} (inv : Handed s) (counted : Counted s) (moved : Moves s a s') :
    Handed s' := by
  have kept := moved.effect.kept
  cases moved with
  | stays a => exact inv
  | ticks | panics | stores | writes | pins | unpins => exact inv.keep counted kept
  | hits idle device same =>
    refine inv.move counted kept (fun _ _ _ => Iff.rfl) ⟨?_, device⟩ fun c lock => ?_
    · simp only [goto, update_self]
      exact same
    · exact inv.contents counted kept lock (by simp [idle])
  | recycles idle device miss free =>
    refine inv.move counted kept (fun _ _ _ => Iff.rfl) ⟨?_, device⟩ fun c lock => ?_
    · simp only [goto, update_self]
      rfl
    · exact inv.contents counted kept lock (by simp [idle])
  | @acquires p b block here free =>
    have asked : PcOk s p (.waiting b block) := here ▸ inv.placed p
    refine inv.move counted kept (fun u other => ?_)
      ⟨asked.1, asked.2, update_self ..⟩ fun c lock => ?_
    · exact update_lock_iff (by simp [free]) (by simp [other.symm])
    by_cases same : c = b
    · subst same
      refine ⟨?_, .inr ⟨block, rfl⟩⟩
      have device := asked.2
      rw [← asked.1] at device
      exact device
    · rw [update_of_ne same] at lock
      exact inv.contents counted kept lock (by simp [here])
  | @returns p b block here valid =>
    refine inv.move counted kept (fun _ _ _ => Iff.rfl) trivial fun c lock => ?_
    have read := (inv.held c p lock)
    refine ⟨read.1, .inl ?_⟩
    rcases read.2 with valid' | ⟨block', reading⟩
    · exact valid'
    · rw [here] at reading
      cases reading
      exact valid
  | @reads p b block here invalid =>
    refine inv.move counted kept (fun _ _ _ => Iff.rfl) trivial fun c lock => ?_
    by_cases same : c = b
    · subst same
      have used := counted.used_of_lock lock
      refine ⟨?_, .inl ?_⟩
      · intro zero
        exact (inv.held c p lock).1 ((kept.dev used).symm.trans zero)
      · simp only [update_self, Buf.read]
    · exact inv.contents counted kept lock (by simp [here, Ne.symm same])
  | @releases p b idle held =>
    refine inv.move counted kept (fun u other => ?_) trivial fun c lock => ?_
    · exact update_lock_iff (by simp [held, other.symm]) (by simp)
    by_cases same : c = b
    · subst same
      rw [update_self] at lock
      cases lock
    · rw [update_of_ne same] at lock
      exact inv.contents counted kept lock (by simp [idle])
  | puts here =>
    exact inv.move counted kept (fun _ _ _ => Iff.rfl) trivial fun c lock =>
      inv.contents counted kept lock (by simp [here])

end Handing

/-! ## Contents -/

section Contents
variable {P D : Type}

/-- The disk holds what was written last, a copy holds what was stored last or what is on the disk,
and what was stored is in a copy. -/
structure Current (disk : Block → D) (s : Cache P D) : Prop where
  onDisk : ∀ block, s.disk block = lastWritten disk block s.events
  copies : ∀ b, (s.bufs b).dev ≠ 0 → (s.bufs b).valid = true →
    (s.bufs b).data = (lastStored (s.bufs b).block s.events).getD (s.disk (s.bufs b).block)
  absent : ∀ block : Block, block.1 ≠ 0 →
    (∀ b, (s.bufs b).block = block → (s.bufs b).valid = false) → lastStored block s.events = none

variable {disk : Block → D} {s s' : Cache P D} (inv : Current disk s)
include inv

variable {b : BufId}

theorem Current.expected (device : (s.bufs b).dev ≠ 0) (valid : (s.bufs b).valid = true) :
    (s.bufs b).data = expected disk (s.bufs b).block s.events := by
  rw [Bio.expected, ← inv.onDisk]
  exact inv.copies b device valid

theorem Current.same (bufs : ∀ b, SameCopy (s.bufs b) (s'.bufs b)) (disk' : s'.disk = s.disk)
    (events : s'.events = s.events) : Current disk s' where
  onDisk block := by
    rw [disk', events]
    exact inv.onDisk block
  copies b device valid := by
    obtain ⟨block, valid', data⟩ := bufs b
    have dev : (s'.bufs b).dev = (s.bufs b).dev := congrArg Prod.fst block
    rw [dev] at device
    rw [valid'] at valid
    rw [data, block, disk', events]
    exact inv.copies b device valid
  absent block device none := by
    rw [events]
    refine inv.absent block device fun b same => ?_
    rw [← (bufs b).2.1]
    exact none b ((bufs b).1.trans same)

theorem Current.recycled {dev : UInt32} (identity : Identity s)
    (bufs : s'.bufs = update s.bufs b ((s.bufs b).recycle dev blockno)) (disk' : s'.disk = s.disk)
    (events : s'.events = .evicted (s.bufs b).block :: s.events) : Current disk s' where
  onDisk block := by
    rw [disk', events]
    exact inv.onDisk block
  copies c device valid := by
    rw [bufs] at device valid ⊢
    have other : c ≠ b := by
      rintro rfl
      rw [update_self] at valid
      cases valid
    rw [update_of_ne other] at device valid ⊢
    have apart : (s.bufs b).block ≠ (s.bufs c).block :=
      fun same => other (identity.unique c b device same.symm)
    rw [events, disk', lastStored, if_neg apart]
    exact inv.copies c device valid
  absent block device none := by
    rw [events, lastStored]
    split
    · rfl
    next other =>
    refine inv.absent block device fun c same => ?_
    have apart : c ≠ b := by
      rintro rfl
      exact other same
    have stays := none c
    rw [bufs, update_of_ne apart] at stays
    exact stays same

theorem Current.filled (identity : Identity s) (device : (s.bufs b).dev ≠ 0)
    (invalid : (s.bufs b).valid = false) (bufs : s'.bufs = update s.bufs b ((s.bufs b).read s.disk))
    (disk' : s'.disk = s.disk) (events : s'.events = s.events) : Current disk s' where
  onDisk block := by
    rw [disk', events]
    exact inv.onDisk block
  copies c device' valid := by
    rw [bufs] at device' valid ⊢
    rw [events, disk']
    by_cases same : c = b
    · subst same
      -- nothing is stored in a block without a valid copy
      have none : lastStored (s.bufs c).block s.events = none := by
        refine inv.absent _ device fun c' equal => ?_
        rw [← identity.unique c c' device equal.symm]
        exact invalid
      rw [update_self]
      show s.disk (s.bufs c).block = (lastStored (s.bufs c).block s.events).getD _
      rw [none]
      rfl
    · rw [update_of_ne same] at device' valid ⊢
      exact inv.copies c device' valid
  absent block device' none := by
    rw [events]
    refine inv.absent block device' fun c equal => ?_
    by_cases same : c = b
    · subst same
      exact invalid
    · have stays := none c
      rw [bufs, update_of_ne same] at stays
      exact stays equal

theorem Current.stored {data : D} (identity : Identity s) (device : (s.bufs b).dev ≠ 0)
    (valid : (s.bufs b).valid = true)
    (bufs : s'.bufs = update s.bufs b { s.bufs b with data := data }) (disk' : s'.disk = s.disk)
    (events : s'.events = .stored (s.bufs b).block data :: s.events) : Current disk s' where
  onDisk block := by
    rw [disk', events]
    exact inv.onDisk block
  copies c device' valid' := by
    rw [bufs] at device' valid' ⊢
    rw [events, disk', lastStored]
    by_cases same : c = b
    · subst same
      rw [update_self]
      show data = (if (s.bufs c).block = (s.bufs c).block then some data else _).getD _
      rw [if_pos rfl]
      rfl
    · rw [update_of_ne same] at device' valid' ⊢
      rw [if_neg fun equal => same (identity.unique c b device' equal.symm)]
      exact inv.copies c device' valid'
  absent block device' none := by
    have stored := none b
    rw [bufs, update_self] at stored
    have other : (s.bufs b).block ≠ block := by
      intro same
      exact absurd (stored same) (by simp [valid])
    rw [events, lastStored, if_neg other]
    refine inv.absent block device' fun c equal => ?_
    have apart : c ≠ b := by
      rintro rfl
      exact other equal
    have stays := none c
    rw [bufs, update_of_ne apart] at stays
    exact stays equal

theorem Current.written (identity : Identity s) (device : (s.bufs b).dev ≠ 0)
    (valid : (s.bufs b).valid = true) (bufs : s'.bufs = s.bufs)
    (disk' : s'.disk = update s.disk (s.bufs b).block (s.bufs b).data)
    (events : s'.events = .written (s.bufs b).block (s.bufs b).data :: s.events) :
    Current disk s' where
  onDisk block := by
    rw [disk', events, lastWritten, update_apply]
    by_cases same : block = (s.bufs b).block
    · rw [if_pos same, if_pos same.symm]
    · rw [if_neg same, if_neg (Ne.symm same)]
      exact inv.onDisk block
  copies c device' valid' := by
    rw [bufs] at device' valid' ⊢
    have copy := inv.copies c device' valid'
    rw [events, disk', lastStored]
    by_cases same : c = b
    · subst same
      rw [update_self]
      -- the copy is what was stored last, or else what has just been written
      cases last : lastStored (s.bufs c).block s.events with
      | none => rfl
      | some data =>
        rw [last] at copy
        exact copy
    · rw [update_of_ne fun equal => same (identity.unique c b device' equal)]
      exact copy
  absent block device' none := by
    rw [events, lastStored]
    rw [bufs] at none
    exact inv.absent block device' none

theorem Current.effect (identity : Identity s) (handed : Handed s) (effect : Effect s s') :
    Current disk s' := by
  cases effect with
  | same bufs disk' events => exact inv.same bufs disk' events
  | recycled b dev blockno _ _ _ _ bufs disk' events =>
    exact inv.recycled identity bufs disk' events
  | filled p b block here invalid bufs disk' events =>
    have asked := handed.placed p
    rw [here] at asked
    exact inv.filled identity (handed.held b p asked.2.2).1 invalid bufs disk' events
  | stored p b data idle held bufs disk' events =>
    obtain ⟨device, valid⟩ := handed.of_idle held idle
    exact inv.stored identity device valid bufs disk' events
  | written p b idle held bufs disk' events =>
    obtain ⟨device, valid⟩ := handed.of_idle held idle
    exact inv.written identity device valid bufs disk' events

end Contents

/-! ## Whole runs -/

section Runs
variable {P D : Type} [Fintype P] [DecidableEq P] {disk : Block → D} {s : Cache P D} {a : Act P D}

structure Inv (disk : Block → D) (s : Cache P D) : Prop where
  identity : Identity s
  counted : Counted s
  handed : Handed s
  current : Current disk s
  exhausted : ∀ id, s.panicked = some (.noBuffers id) → ∀ i, (s.bufs (id, i)).refcnt ≠ 0

omit [DecidableEq P] in
theorem Inv.coherent (inv : Inv disk s) : Coherent s :=
  ⟨inv.identity.unique, inv.identity.bucket, inv.counted, inv.exhausted⟩

omit [DecidableEq P] in
theorem Inv.binit (disk : Block → D) (blank : D) : Inv disk (binit disk blank : Cache P D) where
  identity := ⟨fun _ _ device => absurd rfl device, fun _ device => absurd rfl device⟩
  counted b := by
    have given : total (givesBack b) (fun _ : P => Pc.idle) = 0 := total_eq_zero fun _ => rfl
    have waited : total (waitsFor b) (fun _ : P => Pc.idle) = 0 := total_eq_zero fun _ => rfl
    simp only [holders, waiters, Bio.binit, given, waited]
    rfl
  handed := by
    refine ⟨fun _ => trivial, fun b p lock => ?_⟩
    cases lock
  current := ⟨fun _ => rfl, fun _ device => absurd rfl device, fun _ _ _ => rfl⟩
  exhausted id stopped := by cases stopped

omit [Fintype P] in
theorem step_of_panicked (stopped : s.panicked ≠ none) (a : Act P D) : step s a = s :=
  if_pos (isSome_iff_ne_none.mpr stopped)

variable {p : P}

omit [Fintype P] in
theorem step_of_running (running : s.panicked = none) (dev blockno : UInt32)
    (idle : s.pc p = .idle) : step s (.bget p dev blockno) = s.bget p dev blockno := by
  simp only [step, running, isSome_none, Bool.false_eq_true, if_false, idle, if_true]

theorem Inv.step (inv : Inv disk s) (follows : Follows s a) (roomy : Roomy s a) :
    Inv disk (step s a) := by
  by_cases running : s.panicked = none
  · have moved := step_moves s a follows
    refine ⟨inv.identity.effect moved.effect, inv.counted.moves moved roomy running,
      inv.handed.moves inv.counted moved,
      inv.current.effect inv.identity inv.handed moved.effect, ?_⟩
    generalize Bio.step s a = s' at moved
    intro id stopped
    cases moved with
    | panics idle _ miss none =>
      obtain rfl : bucketOf _ = id := Panic.noBuffers.inj (Option.some.inj stopped)
      intro i free
      obtain ⟨j, free', early⟩ := (roomy running idle).2 miss ⟨i, free⟩
      exact early (none j free')
    | _ =>
      have before : s.panicked = some (.noBuffers id) := stopped
      rw [running] at before
      cases before
  · rwa [step_of_panicked running]

theorem Inv.bread (inv : Inv disk s) {b : BufId} (running : s.panicked = none)
    (here : s.pc p = .reading b block) :
    ((Bio.step s (.fill p)).bufs b).block = block ∧
      ((Bio.step s (.fill p)).bufs b).data = expected disk block (Bio.step s (.fill p)).events := by
  have next : Inv disk (Bio.step s (.fill p)) := inv.step trivial trivial
  have asked := inv.handed.placed p
  rw [here] at asked
  obtain ⟨same, device, lock⟩ := asked
  have kept := (step_moves s (.fill p) trivial).effect.kept
  have used := inv.counted.used_of_lock lock
  have block' := (kept b used).1.trans same
  have valid : ((Bio.step s (.fill p)).bufs b).valid = true := by
    cases read : (s.bufs b).valid with
    | true => exact (kept b used).2 read
    | false =>
      simp [Bio.step, running, fill, here, read, goto, setBuf, Buf.read]
  refine ⟨block', ?_⟩
  rw [← block']
  refine next.current.expected ?_ valid
  rw [kept.dev used]
  exact (inv.handed.held b p lock).1

theorem Inv.stepCoherent (inv : Inv disk s) (follows : Follows s a) : StepCoherent disk s a where
  kept := (step_moves s a follows).effect.kept
  current p b block act running here := by
    subst act
    exact inv.bread running here

/-- A count that has wrapped around misses a reference, and a panic with a free buffer in the bucket
is not excused. -/
theorem Inv.roomy (inv : Inv disk s) (follows : Follows s a) (good : Coherent (Bio.step s a)) :
    Roomy s a := by
  cases a with
  | bget p dev blockno =>
    intro running idle
    have device : dev ≠ 0 := follows
    rw [step_of_running running dev blockno idle] at good
    rcases bget_cases s p dev blockno with
      ⟨i, same, result⟩ | ⟨miss, ⟨i, free, result⟩ | ⟨none, result⟩⟩
    · refine ⟨fun j equal full => ?_, fun miss => absurd same (miss i)⟩
      have this : j = i := by
        have dev' : (s.bufs (bucketOf blockno, j)).dev = dev := congrArg Prod.fst equal
        have one := inv.identity.unique (bucketOf blockno, j) (bucketOf blockno, i)
          (by rwa [dev']) (equal.trans same.symm)
        exact congrArg Prod.snd one
      subst this
      rw [result] at good
      apply Counted.used_of_waiting good.counted (update_self ..)
      simp only [goto, setBuf, update_self, Buf.ref, full]
      rfl
    · exact ⟨fun j equal => absurd equal (miss j), fun _ _ => ⟨i, free⟩⟩
    · refine ⟨fun j equal => absurd equal (miss j), fun _ ⟨i, free⟩ => ?_⟩
      rw [result] at good
      exact absurd free (good.exhausted _ rfl i)
  | bpin p b =>
    intro running idle full
    have result : Bio.step s (.bpin p b) = s.bpin b := by
      simp only [Bio.step, running, isSome_none, Bool.false_eq_true, if_false, idle, if_true]
    rw [result] at good
    have pinned : 0 < (s.bpin b).pins b := by simp [bpin, setPins]
    apply Counted.used_of_pins good.counted pinned
    simp only [bpin, setPins, setBuf, update_self, Buf.ref, full]
    rfl
  | _ => trivial

/-- A run that follows the protocol is coherent in every state and every step exactly if `bget` and
`bpin` never find a full count and `bget` never passes over a free buffer for its time stamp. -/
theorem bcache_coherent_iff (disk : Block → D) (blank : D) (acts : List (Act P D))
    (protocol : RunMeets Bio.step Follows (Bio.binit disk blank) acts) :
    RunMeets Bio.step Roomy (Bio.binit disk blank) acts ↔
      (∀ pre, pre <+: acts → Coherent (pre.foldl Bio.step (Bio.binit disk blank))) ∧
        RunMeets Bio.step (StepCoherent disk) (Bio.binit disk blank) acts := by
  have exact := run_exact_within Bio.step Follows Roomy (Inv disk) Coherent
    (fun _ inv => inv.coherent) (fun _ _ inv follows roomy => inv.step follows roomy)
    (fun _ _ inv follows good => inv.roomy follows good) acts (Bio.binit disk blank)
    (Inv.binit disk blank) protocol
  refine ⟨fun roomy => ⟨exact.mp roomy, ?_⟩, fun good => exact.mpr good.1⟩
  exact (protocol.and roomy).of_invariant (fun s a inv both => inv.step both.1 both.2)
    (fun s a inv both => inv.stepCoherent both.1) (Inv.binit disk blank)

end Runs

def sharedBlock : List (Act Bool UInt8) :=
  [.bget false 1 7, .bget true 1 7, .acquire false, .fill false, .acquire true,
    .store false (0, 0) 5, .bpin false (0, 0), .brelse false (0, 0), .acquire true, .put false,
    .fill true, .bwrite true (0, 0), .bunpin true (0, 0), .brelse true (0, 0), .tick, .put true]

theorem bcache_coherent_sharedBlock : RunMeets step Follows (binit (fun _ => 0) 0) sharedBlock ∧
      Coherent (sharedBlock.foldl step (binit (fun _ => 0) 0)) ∧
        RunMeets step (StepCoherent fun _ => 0) (binit (fun _ => 0) 0) sharedBlock := by
  have protocol : RunMeets step Follows (binit (fun _ => 0) 0) sharedBlock := by decide +kernel
  have roomy : RunMeets step Roomy (binit (fun _ => 0) 0) sharedBlock := by decide +kernel
  obtain ⟨states, steps⟩ := (bcache_coherent_iff (fun _ => 0) 0 sharedBlock protocol).mp roomy
  exact ⟨protocol, states sharedBlock prefix_rfl, steps⟩

/-! ## A bucket that is used at the last tick -/

section LastTick

def blockAt (k : Nat) : UInt32 := UInt32.ofNat (7 * k)

def visit (k : Nat) : List (Act Unit Unit) :=
  [.bget () 1 (blockAt k), .acquire (), .fill (), .brelse () (0, Fin.ofNat nbuf k), .put ()]

def visits : Nat → List (Act Unit Unit)
  | 0 => []
  | k + 1 => visits k ++ visit k

/-- The time is about to wrap around, the first `k` buffers of bucket 0 have been used at this time,
the others never. -/
structure Stamped (k : Nat) (s : Cache Unit Unit) : Prop where
  running : s.panicked = none
  idle : s.pc () = .idle
  unlocked : ∀ b, s.lock b = none
  last : s.ticks = -1
  used : ∀ i : Fin nbuf, i.val < k →
    (s.bufs (0, i)).refcnt = 0 ∧ (s.bufs (0, i)).timestamp = -1 ∧
      (s.bufs (0, i)).block = (1, blockAt i.val)
  fresh : ∀ i : Fin nbuf, k ≤ i.val →
    (s.bufs (0, i)).refcnt = 0 ∧ (s.bufs (0, i)).timestamp = 0 ∧ (s.bufs (0, i)).block = (0, 0)

variable {s : Cache Unit Unit} {k : Nat}

theorem ticks_run (n : Nat) (running : s.panicked = none) :
    (replicate n .tick).foldl step s = { s with ticks := s.ticks + ofNat n } ∧
      RunMeets step Follows s (replicate n .tick) := by
  induction n generalizing s with
  | zero => exact ⟨by simp, trivial⟩
  | succ n ih =>
    have one : step s .tick = { s with ticks := s.ticks + 1 } := by simp [step, running]
    rw [replicate_succ, foldl_cons, RunMeets, one]
    obtain ⟨result, meets⟩ := ih (s := { s with ticks := s.ticks + 1 }) running
    refine ⟨?_, trivial, meets⟩
    rw [result]
    simp only [UInt32.ofNat_add, UInt32.add_assoc]
    rw [UInt32.add_comm 1]
    rfl

theorem bgetLoop_skip {D : Type} {bufs : Fin nbuf → Buf D} {dev least : UInt32}
    {evict : Option (Fin nbuf)} {l : List (Fin nbuf)}
    (miss : ∀ i ∈ l, (bufs i).block ≠ (dev, blockno)) (late : ∀ i ∈ l, ¬ (bufs i).timestamp < least)
    (rest : List (Fin nbuf)) :
    bgetLoop bufs dev blockno (l ++ rest) least evict =
      bgetLoop bufs dev blockno rest least evict := by
  induction l with
  | nil => rfl
  | cons i l ih =>
    obtain ⟨other, miss⟩ := forall_mem_cons.mp miss
    obtain ⟨first, late⟩ := forall_mem_cons.mp late
    have apart : ¬ ((bufs i).dev = dev ∧ (bufs i).blockno = blockno) :=
      fun same => other (Prod.ext same.1 same.2)
    rw [cons_append, bgetLoop, if_neg apart, if_neg fun free => first free.2]
    exact ih miss late

theorem finRange_split (i : Fin nbuf) :
    ∃ before after, finRange nbuf = before ++ i :: after ∧ ∀ j ∈ before, j < i := by
  obtain ⟨before, after, split⟩ := append_of_mem (mem_finRange i)
  refine ⟨before, after, split, fun j member => ?_⟩
  have sorted := pairwise_lt_finRange nbuf
  rw [split, pairwise_append] at sorted
  exact sorted.2.2 j member i mem_cons_self

theorem bucketOf_blockAt (below : k ≤ nbuf) : bucketOf (blockAt k) = 0 := by
  have all : ∀ i : Fin (nbuf + 1), bucketOf (blockAt i.val) = 0 := by decide
  exact all ⟨k, Nat.lt_succ_of_le below⟩

theorem blockAt_toNat (below : k ≤ nbuf) : (blockAt k).toNat = 7 * k := by
  have small : k ≤ 30 := below
  have fits : 7 * k < size := Nat.lt_of_le_of_lt (Nat.mul_le_mul_left 7 small) (by decide)
  exact toNat_ofNat_of_lt fits

theorem blockAt_inj {j : Nat} (below : k ≤ nbuf) (below' : j ≤ nbuf)
    (same : blockAt k = blockAt j) : k = j := by
  have equal := congrArg toNat same
  rw [blockAt_toNat below, blockAt_toNat below'] at equal
  omega

theorem Stamped.misses (stamped : Stamped k s) (below : k ≤ nbuf) (i : Fin nbuf) :
    (s.bufs (0, i)).block ≠ (1, blockAt k) := by
  by_cases used : i.val < k
  · rw [(stamped.used i used).2.2]
    intro same
    have equal := blockAt_inj i.isLt.le below (congrArg Prod.snd same)
    omega
  · rw [(stamped.fresh i (by omega)).2.2]
    intro same
    have device : (0 : UInt32) = 1 := congrArg Prod.fst same
    exact absurd device (by decide)

theorem Stamped.loop (stamped : Stamped k s) (below : k < nbuf) :
    bgetLoop (fun i => s.bufs (0, i)) 1 (blockAt k) (finRange nbuf) (-1) none =
      .missing (some ⟨k, below⟩) := by
  obtain ⟨before, after, split, sorted⟩ := finRange_split ⟨k, below⟩
  have miss := stamped.misses below.le
  obtain ⟨free, zero, _⟩ := stamped.fresh ⟨k, below⟩ (Nat.le_refl k)
  have early : (0 : UInt32) < -1 := by decide
  rw [split, bgetLoop_skip (fun i _ => miss i) fun i member late => ?_]
  · have apart : ¬ ((s.bufs (0, ⟨k, below⟩)).dev = 1 ∧
        (s.bufs (0, ⟨k, below⟩)).blockno = blockAt k) :=
      fun same => miss ⟨k, below⟩ (Prod.ext same.1 same.2)
    rw [bgetLoop, if_neg apart, if_pos ⟨free, by rwa [zero]⟩, zero]
    rw [← append_nil after, bgetLoop_skip (fun i _ => miss i) fun i _ => ?_]
    · rfl
    · exact UInt32.not_lt_zero
  · rw [(stamped.used i (sorted i member)).2.1] at late
    exact absurd late (by decide)

/-- `bread` and `brelse` of a block that is not cached, by the only process. -/
theorem visit_run {dev : UInt32} {i : Fin nbuf} (running : s.panicked = none)
    (idle : s.pc () = .idle) (unlocked : s.lock (bucketOf blockno, i) = none) (device : dev ≠ 0)
    (miss : bgetLoop (fun j => s.bufs (bucketOf blockno, j)) dev blockno (finRange nbuf) (-1)
      none = .missing (some i)) : let acts : List (Act Unit Unit) :=
      [.bget () dev blockno, .acquire (), .fill (), .brelse () (bucketOf blockno, i), .put ()]
    let s' := acts.foldl step s
    RunMeets step Follows s acts ∧ s'.panicked = none ∧ s'.pc () = .idle ∧ s'.lock = s.lock ∧
      s'.ticks = s.ticks ∧ s'.bufs = update s.bufs (bucketOf blockno, i)
        ⟨true, s.ticks, dev, blockno, 0, s.disk (dev, blockno)⟩ := by
  simp [RunMeets, step, Follows, bget, miss, acquire, fill, brelse,
    put, goto, setBuf, setLock, record, Buf.recycle, Buf.read,
    Buf.put, Buf.unref, Buf.block, running, idle, unlocked, device]

theorem Stamped.visit (stamped : Stamped k s) (below : k < nbuf) :
    RunMeets step Follows s (visit k) ∧ Stamped (k + 1) ((visit k).foldl step s) := by
  have place := bucketOf_blockAt below.le
  have index : Fin.ofNat nbuf k = ⟨k, below⟩ := Fin.ext (Nat.mod_eq_of_lt below)
  obtain ⟨meets, running, idle, lock, ticks, bufs⟩ :=
    visit_run stamped.running stamped.idle (stamped.unlocked _) (show (1 : UInt32) ≠ 0 by decide)
      (by rw [place]; exact stamped.loop below)
  rw [place] at meets running idle lock ticks bufs
  rw [Bio.visit, index]
  refine ⟨meets, running, idle, fun b => ?_, ticks.trans stamped.last, fun i early => ?_,
    fun i late => ?_⟩
  · rw [lock]
    exact stamped.unlocked b
  · rw [bufs]
    by_cases here : i = ⟨k, below⟩
    · subst here
      rw [update_self]
      exact ⟨rfl, stamped.last, rfl⟩
    · have earlier : i.val < k := by
        have other : i.val ≠ k := fun same => here (Fin.ext same)
        omega
      rw [update_of_ne fun same => here (congrArg Prod.snd same)]
      exact stamped.used i earlier
  · have other : ((0, i) : BufId) ≠ (0, ⟨k, below⟩) := by
      intro same
      have equal : i.val = k := congrArg Fin.val (congrArg Prod.snd same)
      omega
    rw [bufs, update_of_ne other]
    exact stamped.fresh i (by omega)

theorem Stamped.visits (stamped : Stamped 0 s) (k : Nat) (below : k ≤ nbuf) :
    RunMeets step Follows s (visits k) ∧ Stamped k ((visits k).foldl step s) := by
  induction k with
  | zero => exact ⟨trivial, stamped⟩
  | succ k ih =>
    obtain ⟨meets, reached⟩ := ih (Nat.le_of_succ_le below)
    obtain ⟨meets', next⟩ := reached.visit below
    rw [Bio.visits, foldl_append]
    exact ⟨meets.concat meets', next⟩

def lateVisits (n : Nat) : List (Act Unit Unit) :=
  replicate n .tick ++ visits nbuf ++ [.bget () 1 (blockAt nbuf)]

theorem lateVisits_panic {n : Nat} (last : ofNat n = -1) :
    RunMeets step Follows (binit (fun _ => ()) ()) (lateVisits n) ∧
      ((lateVisits n).foldl step (binit (fun _ => ()) ())).panicked = some (.noBuffers 0) ∧
      ∀ i, (((lateVisits n).foldl step (binit (fun _ => ()) ())).bufs (0, i)).refcnt = 0 := by
  obtain ⟨ticked, meets⟩ := ticks_run n (s := binit (fun _ => ()) ()) rfl
  have start : Stamped 0 ((replicate n .tick).foldl step (binit (fun _ => ()) ())) := by
    rw [ticked]
    refine ⟨rfl, rfl, fun _ => rfl, ?_, fun i never => absurd never (Nat.not_lt_zero _),
      fun i _ => ⟨rfl, rfl, rfl⟩⟩
    rw [last]
    rfl
  obtain ⟨meets', stamped⟩ := start.visits nbuf (Nat.le_refl _)
  rw [lateVisits, foldl_append, foldl_append, foldl_cons, foldl_nil]
  refine ⟨(meets.concat meets').concat ⟨show (1 : UInt32) ≠ 0 by decide, trivial⟩, ?_⟩
  generalize (visits nbuf).foldl step _ = s at stamped ⊢
  rw [step_of_running stamped.running 1 (blockAt nbuf) stamped.idle]
  have place := bucketOf_blockAt (Nat.le_refl nbuf)
  have ends := bget_cases s () 1 (blockAt nbuf)
  rw [place] at ends
  rcases ends with ⟨i, same, _⟩ | ⟨_, ⟨i, ⟨_, early⟩, _⟩ | ⟨_, result⟩⟩
  · exact absurd same (stamped.misses (Nat.le_refl nbuf) i)
  · exact absurd (stamped.used i i.isLt).2.1 early
  · rw [result]
    exact ⟨rfl, fun i => (stamped.used i i.isLt).1⟩

/-- After `2 ^ 32 - 1` ticks all buffers of the bucket are free, and `bget` panics. -/
theorem bget_panics_at_last_tick :
    RunMeets step Follows (binit (fun _ => ()) ()) (lateVisits 4294967295) ∧
      ((lateVisits 4294967295).foldl step (binit (fun _ => ()) ())).panicked =
        some (.noBuffers 0) ∧
      ∀ i, (((lateVisits 4294967295).foldl step (binit (fun _ => ()) ())).bufs (0, i)).refcnt = 0 :=
  lateVisits_panic (by decide)

end LastTick

end KernelLabs.Xv6.Bio
