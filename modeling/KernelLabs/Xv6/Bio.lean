import KernelLabs.Lib.Runs
import KernelLabs.Lib.Weights

/-!
# The buffer cache with one lock per bucket

`kernel/bio.c` of the locks lab.  The section under a bucket lock is one step, and so are
`acquiresleep`, `releasesleep` and a transfer by `virtio_disk_rw`; between these steps any other
process may run.  A step that cannot be taken leaves the state as it is: `acquiresleep` on a lock
that is held sleeps.  A process may hold several buffers while it asks for another one.
-/

set_option autoImplicit false

namespace KernelLabs.Xv6.Bio

open Lib Function List

def bucketSize : Nat := 7

instance : NeZero bucketSize := ⟨by decide⟩

def nbuf : Nat := 30

instance : NeZero nbuf := ⟨by decide⟩

/-- `struct buf` without its sleep-lock, which is part of `Cache`. -/
structure Buf (D : Type) where
  valid : Bool
  timestamp : UInt32
  dev : UInt32
  blockno : UInt32
  refcnt : UInt32
  data : D
  deriving DecidableEq, Repr

abbrev Block := UInt32 × UInt32

def Buf.block {D : Type} (b : Buf D) : Block := (b.dev, b.blockno)

abbrev BufId := Fin bucketSize × Fin nbuf

def bucketOf (blockno : UInt32) : Fin bucketSize :=
  ⟨blockno.toNat % bucketSize, Nat.mod_lt _ (by decide)⟩

/-- Where a process is: outside of the functions, in `bread` of a block before or after
`acquiresleep`, or in `brelse` after `releasesleep`. -/
inductive Pc where
  | idle
  | waiting (b : BufId) (block : Block)
  | reading (b : BufId) (block : Block)
  | releasing (b : BufId)
  deriving DecidableEq, Repr

inductive Panic where
  | noBuffers (id : Fin bucketSize)
  | bwrite
  | brelse
  deriving DecidableEq, Repr

inductive Event (D : Type) where
  | stored (block : Block) (data : D)
  | written (block : Block) (data : D)
  | evicted (block : Block)
  deriving DecidableEq, Repr

/-- `lock` are the sleep-locks, `pins` counts the calls of `bpin` that no `bunpin` has answered,
`events` is the history, latest first. -/
structure Cache (P D : Type) where
  bufs : BufId → Buf D
  lock : BufId → Option P
  pc : P → Pc
  disk : Block → D
  ticks : UInt32
  panicked : Option Panic
  pins : BufId → Nat
  events : List (Event D)

inductive Act (P D : Type) where
  | tick
  | bget (p : P) (dev blockno : UInt32)
  | acquire (p : P)
  | fill (p : P)
  | store (p : P) (b : BufId) (data : D)
  | bwrite (p : P) (b : BufId)
  | brelse (p : P) (b : BufId)
  | put (p : P)
  | bpin (p : P) (b : BufId)
  | bunpin (p : P) (b : BufId)
  deriving DecidableEq, Repr

inductive Found where
  | cached (i : Fin nbuf)
  | missing (evict : Option (Fin nbuf))
  deriving DecidableEq, Repr

def bgetLoop {D : Type} (bufs : Fin nbuf → Buf D) (dev blockno : UInt32) :
    List (Fin nbuf) → UInt32 → Option (Fin nbuf) → Found
  | [], _, evict => .missing evict
  | i :: rest, least, evict =>
    if (bufs i).dev = dev ∧ (bufs i).blockno = blockno then .cached i
    else if (bufs i).refcnt = 0 ∧ (bufs i).timestamp < least then
      bgetLoop bufs dev blockno rest (bufs i).timestamp (some i)
    else bgetLoop bufs dev blockno rest least evict

section Model
variable {P D : Type} [DecidableEq P]

def Cache.goto (s : Cache P D) (p : P) (pc : Pc) : Cache P D :=
  { s with pc := update s.pc p pc }

def Cache.setBuf (s : Cache P D) (b : BufId) (buf : Buf D) : Cache P D :=
  { s with bufs := update s.bufs b buf }

def Cache.setLock (s : Cache P D) (b : BufId) (holder : Option P) : Cache P D :=
  { s with lock := update s.lock b holder }

def Cache.setPins (s : Cache P D) (b : BufId) (n : Nat) : Cache P D :=
  { s with pins := update s.pins b n }

def Cache.record (s : Cache P D) (e : Event D) : Cache P D := { s with events := e :: s.events }

def Buf.ref (b : Buf D) : Buf D := { b with refcnt := b.refcnt + 1 }

def Buf.unref (b : Buf D) : Buf D := { b with refcnt := b.refcnt - 1 }

def Buf.recycle (b : Buf D) (dev blockno : UInt32) : Buf D :=
  { b with dev := dev, blockno := blockno, valid := false, refcnt := 1 }

def Cache.bget (s : Cache P D) (p : P) (dev blockno : UInt32) : Cache P D :=
  let id := bucketOf blockno
  match bgetLoop (fun i => s.bufs (id, i)) dev blockno (finRange nbuf) (-1) none with
  | .cached i =>
    (s.setBuf (id, i) (s.bufs (id, i)).ref).goto p (.waiting (id, i) (dev, blockno))
  | .missing (some i) =>
    ((s.record (.evicted (s.bufs (id, i)).block)).setBuf (id, i)
      ((s.bufs (id, i)).recycle dev blockno)).goto p (.waiting (id, i) (dev, blockno))
  | .missing none => { s with panicked := some (.noBuffers id) }

def Cache.acquire (s : Cache P D) (p : P) : Cache P D :=
  match s.pc p with
  | .waiting b block =>
    match s.lock b with
    | none => (s.setLock b (some p)).goto p (.reading b block)
    | some _ => s
  | _ => s

/-- `virtio_disk_rw(b, 0)` and `b->valid = 1`. -/
def Buf.read (b : Buf D) (disk : Block → D) : Buf D :=
  { b with data := disk b.block, valid := true }

def Cache.fill (s : Cache P D) (p : P) : Cache P D :=
  match s.pc p with
  | .reading b _ =>
    if (s.bufs b).valid then s.goto p .idle
    else (s.setBuf b ((s.bufs b).read s.disk)).goto p .idle
  | _ => s

def Cache.bwrite (s : Cache P D) (p : P) (b : BufId) : Cache P D :=
  if s.lock b = some p then
    { s.record (.written (s.bufs b).block (s.bufs b).data) with
      disk := update s.disk (s.bufs b).block (s.bufs b).data }
  else { s with panicked := some .bwrite }

def Cache.brelse (s : Cache P D) (p : P) (b : BufId) : Cache P D :=
  if s.lock b = some p then (s.setLock b none).goto p (.releasing b)
  else { s with panicked := some .brelse }

def Buf.put (b : Buf D) (ticks : UInt32) : Buf D :=
  if b.unref.refcnt = 0 then { b.unref with timestamp := ticks } else b.unref

def Cache.put (s : Cache P D) (p : P) : Cache P D :=
  match s.pc p with
  | .releasing b => (s.setBuf b ((s.bufs b).put s.ticks)).goto p .idle
  | _ => s

def Cache.bpin (s : Cache P D) (b : BufId) : Cache P D :=
  (s.setBuf b (s.bufs b).ref).setPins b (s.pins b + 1)

def Cache.bunpin (s : Cache P D) (b : BufId) : Cache P D :=
  (s.setBuf b (s.bufs b).unref).setPins b (s.pins b - 1)

def Cache.store (s : Cache P D) (b : BufId) (data : D) : Cache P D :=
  (s.record (.stored (s.bufs b).block data)).setBuf b { s.bufs b with data := data }

/-- A call is made by a process that is not in another one, and nothing runs after a panic. -/
def step (s : Cache P D) (a : Act P D) : Cache P D :=
  if s.panicked.isSome then s
  else match a with
    | .tick => { s with ticks := s.ticks + 1 }
    | .bget p dev blockno => if s.pc p = .idle then s.bget p dev blockno else s
    | .acquire p => s.acquire p
    | .fill p => s.fill p
    | .store p b data => if s.pc p = .idle then s.store b data else s
    | .bwrite p b => if s.pc p = .idle then s.bwrite p b else s
    | .brelse p b => if s.pc p = .idle then s.brelse p b else s
    | .put p => s.put p
    | .bpin p b => if s.pc p = .idle then s.bpin b else s
    | .bunpin p b => if s.pc p = .idle then s.bunpin b else s

/-- `binit`, on zeroed memory and before the first tick. -/
def binit (disk : Block → D) (blank : D) : Cache P D where
  bufs _ := ⟨false, 0, 0, 0, 0, blank⟩
  lock _ := none
  pc _ := .idle
  disk := disk
  ticks := 0
  panicked := none
  pins _ := 0
  events := []

/-- Blocks are on a device other than 0, a buffer is changed, written and released by its holder,
and a `bunpin` answers a `bpin`. -/
def Follows (s : Cache P D) : Act P D → Prop
  | .bget _ dev _ => dev ≠ 0
  | .store p b _ | .bwrite p b | .brelse p b => s.lock b = some p
  | .bunpin _ b => 0 < s.pins b
  | _ => True

instance (s : Cache P D) : ∀ a, Decidable (Follows s a) := by
  rintro ⟨⟩ <;> dsimp only [Follows] <;> infer_instance

end Model

/-! ## What the cache should do -/

section Spec
variable {D : Type}

/-- The data last stored in the cached copy of a block, unless the block was evicted since. -/
def lastStored (block : Block) : List (Event D) → Option D
  | [] => none
  | .stored other data :: rest => if other = block then some data else lastStored block rest
  | .written _ _ :: rest => lastStored block rest
  | .evicted other :: rest => if other = block then none else lastStored block rest

def lastWritten (disk : Block → D) (block : Block) : List (Event D) → D
  | [] => disk block
  | .written other data :: rest => if other = block then data else lastWritten disk block rest
  | .stored _ _ :: rest | .evicted _ :: rest => lastWritten disk block rest

def expected (disk : Block → D) (block : Block) (events : List (Event D)) : D :=
  (lastStored block events).getD (lastWritten disk block events)

def Pc.waitsFor (b : BufId) : Pc → Nat
  | .waiting other _ => if other = b then 1 else 0
  | _ => 0

def Pc.givesBack (b : BufId) : Pc → Nat
  | .releasing other => if other = b then 1 else 0
  | _ => 0

variable {P : Type} [Fintype P]

/-- The process that has the sleep-lock, and those that have released it and still have to give
back their reference. -/
def Cache.holders (s : Cache P D) (b : BufId) : Nat :=
  (s.lock b).isSome.toNat + total (Pc.givesBack b) s.pc

def Cache.waiters (s : Cache P D) (b : BufId) : Nat := total (Pc.waitsFor b) s.pc

structure Coherent (s : Cache P D) : Prop where
  unique : ∀ b b', (s.bufs b).dev ≠ 0 → (s.bufs b).block = (s.bufs b').block → b = b'
  bucket : ∀ b, (s.bufs b).dev ≠ 0 → b.1 = bucketOf (s.bufs b).blockno
  counted : ∀ b, (s.bufs b).refcnt.toNat = s.holders b + s.waiters b + s.pins b
  exhausted : ∀ id, s.panicked = some (.noBuffers id) → ∀ i, (s.bufs (id, i)).refcnt ≠ 0

omit [Fintype P] in
def Kept (s s' : Cache P D) : Prop :=
  ∀ b, (s.bufs b).refcnt ≠ 0 →
    (s'.bufs b).block = (s.bufs b).block ∧ ((s.bufs b).valid = true → (s'.bufs b).valid = true)

omit [Fintype P] in
/-- The step does not recycle a buffer that is in use, and if `bread` returns in it, the buffer
holds what a reader of the block is to see. -/
structure StepCoherent [DecidableEq P] (disk : Block → D) (s : Cache P D) (a : Act P D) : Prop where
  kept : Kept s (step s a)
  current : ∀ p b block, a = .fill p → s.panicked = none → s.pc p = .reading b block →
    ((step s a).bufs b).block = block ∧
      ((step s a).bufs b).data = expected disk block (step s a).events

end Spec

/-- A hit finds room in the count.  On a miss, if a buffer of the bucket is free, one is with a time
stamp below the initial `least_timestamp`. -/
def BgetRoom {P D : Type} (s : Cache P D) (dev blockno : UInt32) : Prop :=
  (∀ i, (s.bufs (bucketOf blockno, i)).block = (dev, blockno) →
    (s.bufs (bucketOf blockno, i)).refcnt ≠ -1) ∧
  ((∀ i, (s.bufs (bucketOf blockno, i)).block ≠ (dev, blockno)) →
    (∃ i, (s.bufs (bucketOf blockno, i)).refcnt = 0) →
    ∃ i, (s.bufs (bucketOf blockno, i)).refcnt = 0 ∧ (s.bufs (bucketOf blockno, i)).timestamp ≠ -1)

def Roomy {P D : Type} (s : Cache P D) : Act P D → Prop
  | .bget p dev blockno => s.panicked = none → s.pc p = .idle → BgetRoom s dev blockno
  | .bpin p b => s.panicked = none → s.pc p = .idle → (s.bufs b).refcnt ≠ -1
  | _ => True

instance {P D : Type} (s : Cache P D) (dev blockno : UInt32) : Decidable (BgetRoom s dev blockno) :=
  inferInstanceAs (Decidable (_ ∧ _))

instance {P D : Type} (s : Cache P D) : ∀ a, Decidable (Roomy s a) := by
  rintro ⟨⟩ <;> dsimp only [Roomy] <;> infer_instance

/-! ## The steps -/

theorem succ_toNat {n : UInt32} (below : n ≠ -1) : (n + 1).toNat = n.toNat + 1 := by
  have other : n.toNat ≠ (-1 : UInt32).toNat := fun same => below (UInt32.toNat_inj.mp same)
  have range := n.toNat_lt
  have max : (-1 : UInt32).toNat = 4294967295 := rfl
  have one : (1 : UInt32).toNat = 1 := rfl
  rw [UInt32.toNat_add]
  omega

theorem pred_toNat {n : UInt32} (pos : n ≠ 0) : (n - 1).toNat + 1 = n.toNat := by
  have other : n.toNat ≠ (0 : UInt32).toNat := fun same => pos (UInt32.toNat_inj.mp same)
  have range := n.toNat_lt
  have zero : (0 : UInt32).toNat = 0 := rfl
  have one : (1 : UInt32).toNat = 1 := rfl
  rw [UInt32.toNat_sub]
  omega

theorem lt_max_iff (n : UInt32) : n < -1 ↔ n ≠ -1 := by
  have range := n.toNat_lt
  have max : (-1 : UInt32).toNat = 4294967295 := rfl
  rw [UInt32.lt_iff_toNat_lt, Ne, ← UInt32.toNat_inj]
  omega

section Loop
variable {D : Type} (bufs : Fin nbuf → Buf D) (dev blockno : UInt32)

/-- The rest of the loop finds the block, or ends with a free buffer of the rest that has a lower
time stamp than `least`, or with the buffer it was entered with if the rest has no such buffer. -/
theorem bgetLoop_cases (l : List (Fin nbuf)) (least : UInt32) (evict : Option (Fin nbuf)) :
    (∃ i ∈ l, (bufs i).block = (dev, blockno) ∧
      bgetLoop bufs dev blockno l least evict = .cached i) ∨
    (∀ i ∈ l, (bufs i).block ≠ (dev, blockno)) ∧
      ((∃ i ∈ l, ((bufs i).refcnt = 0 ∧ (bufs i).timestamp < least) ∧
          bgetLoop bufs dev blockno l least evict = .missing (some i)) ∨
        (∀ i ∈ l, (bufs i).refcnt = 0 → ¬ (bufs i).timestamp < least) ∧
          bgetLoop bufs dev blockno l least evict = .missing evict) := by
  induction l generalizing least evict with
  | nil => exact .inr ⟨by simp, .inr ⟨by simp, rfl⟩⟩
  | cons j rest ih =>
    rw [bgetLoop]
    by_cases match_ : (bufs j).dev = dev ∧ (bufs j).blockno = blockno
    · rw [if_pos match_]
      exact .inl ⟨j, mem_cons_self, Prod.ext match_.1 match_.2, rfl⟩
    have other : (bufs j).block ≠ (dev, blockno) := by
      intro same
      exact match_ ⟨congrArg Prod.fst same, congrArg Prod.snd same⟩
    rw [if_neg match_]
    by_cases free : (bufs j).refcnt = 0 ∧ (bufs j).timestamp < least
    · rw [if_pos free]
      rcases ih (bufs j).timestamp (some j) with ⟨i, member, same, found⟩ | ⟨miss, last⟩
      · exact .inl ⟨i, mem_cons_of_mem j member, same, found⟩
      · refine .inr ⟨forall_mem_cons.mpr ⟨other, miss⟩, .inl ?_⟩
        rcases last with ⟨i, member, unused, found⟩ | ⟨_, found⟩
        · have lower := UInt32.lt_trans unused.2 free.2
          exact ⟨i, mem_cons_of_mem j member, ⟨unused.1, lower⟩, found⟩
        · exact ⟨j, mem_cons_self, free, found⟩
    · rw [if_neg free]
      rcases ih least evict with ⟨i, member, same, found⟩ | ⟨miss, last⟩
      · exact .inl ⟨i, mem_cons_of_mem j member, same, found⟩
      · refine .inr ⟨forall_mem_cons.mpr ⟨other, miss⟩, ?_⟩
        rcases last with ⟨i, member, unused, found⟩ | ⟨none, found⟩
        · exact .inl ⟨i, mem_cons_of_mem j member, unused, found⟩
        · refine .inr ⟨forall_mem_cons.mpr ⟨?_, none⟩, found⟩
          exact fun unused lower => free ⟨unused, lower⟩

end Loop

open Cache

section Steps
variable {P D : Type} [DecidableEq P] {s : Cache P D}

theorem bget_cases (s : Cache P D) (p : P) (dev blockno : UInt32) :
    (∃ i, (s.bufs (bucketOf blockno, i)).block = (dev, blockno) ∧ s.bget p dev blockno =
      (s.setBuf (bucketOf blockno, i) (s.bufs (bucketOf blockno, i)).ref).goto p
        (.waiting (bucketOf blockno, i) (dev, blockno))) ∨
    (∀ i, (s.bufs (bucketOf blockno, i)).block ≠ (dev, blockno)) ∧
      ((∃ i, ((s.bufs (bucketOf blockno, i)).refcnt = 0 ∧
          (s.bufs (bucketOf blockno, i)).timestamp ≠ -1) ∧ s.bget p dev blockno =
        ((s.record (.evicted (s.bufs (bucketOf blockno, i)).block)).setBuf (bucketOf blockno, i)
          ((s.bufs (bucketOf blockno, i)).recycle dev blockno)).goto p
            (.waiting (bucketOf blockno, i) (dev, blockno))) ∨
      (∀ i, (s.bufs (bucketOf blockno, i)).refcnt = 0 →
          (s.bufs (bucketOf blockno, i)).timestamp = -1) ∧
        s.bget p dev blockno = { s with panicked := some (.noBuffers (bucketOf blockno)) }) := by
  rcases bgetLoop_cases (fun i => s.bufs (bucketOf blockno, i)) dev blockno (finRange nbuf) (-1)
    none with
    ⟨i, _, same, found⟩ | ⟨miss, ⟨i, _, free, found⟩ | ⟨none, found⟩⟩
  · exact .inl ⟨i, same, by simp only [bget, found]⟩
  · exact .inr ⟨fun j => miss j (mem_finRange j),
      .inl ⟨i, ⟨free.1, (lt_max_iff _).mp free.2⟩, by simp only [bget, found]⟩⟩
  · refine .inr ⟨fun j => miss j (mem_finRange j),
      .inr ⟨fun j free => ?_, by simp only [bget, found]⟩⟩
    have late := none j (mem_finRange j) free
    rw [lt_max_iff] at late
    exact not_not.mp late

inductive Moves (s : Cache P D) : Act P D → Cache P D → Prop where
  | stays (a : Act P D) : Moves s a s
  | ticks : Moves s .tick { s with ticks := s.ticks + 1 }
  | hits {p : P} {dev blockno : UInt32} {i : Fin nbuf} (idle : s.pc p = .idle)
      (device : dev ≠ 0) (same : (s.bufs (bucketOf blockno, i)).block = (dev, blockno)) :
      Moves s (.bget p dev blockno)
        ((s.setBuf (bucketOf blockno, i) (s.bufs (bucketOf blockno, i)).ref).goto p
          (.waiting (bucketOf blockno, i) (dev, blockno)))
  | recycles {p : P} {dev blockno : UInt32} {i : Fin nbuf} (idle : s.pc p = .idle)
      (device : dev ≠ 0) (miss : ∀ j, (s.bufs (bucketOf blockno, j)).block ≠ (dev, blockno))
      (free : (s.bufs (bucketOf blockno, i)).refcnt = 0) :
      Moves s (.bget p dev blockno)
        (((s.record (.evicted (s.bufs (bucketOf blockno, i)).block)).setBuf (bucketOf blockno, i)
          ((s.bufs (bucketOf blockno, i)).recycle dev blockno)).goto p
            (.waiting (bucketOf blockno, i) (dev, blockno)))
  | panics {p : P} {dev blockno : UInt32} (idle : s.pc p = .idle) (running : s.panicked = none)
      (miss : ∀ j, (s.bufs (bucketOf blockno, j)).block ≠ (dev, blockno))
      (none : ∀ i, (s.bufs (bucketOf blockno, i)).refcnt = 0 →
        (s.bufs (bucketOf blockno, i)).timestamp = -1) :
      Moves s (.bget p dev blockno)
        { s with panicked := some (.noBuffers (bucketOf blockno)) }
  | acquires {p : P} {b : BufId} {block : Block} (here : s.pc p = .waiting b block)
      (free : s.lock b = none) :
      Moves s (.acquire p) ((s.setLock b (some p)).goto p (.reading b block))
  | returns {p : P} {b : BufId} {block : Block} (here : s.pc p = .reading b block)
      (valid : (s.bufs b).valid = true) : Moves s (.fill p) (s.goto p .idle)
  | reads {p : P} {b : BufId} {block : Block} (here : s.pc p = .reading b block)
      (invalid : (s.bufs b).valid = false) :
      Moves s (.fill p) ((s.setBuf b ((s.bufs b).read s.disk)).goto p .idle)
  | stores {p : P} {b : BufId} {data : D} (idle : s.pc p = .idle) (held : s.lock b = some p) :
      Moves s (.store p b data) (s.store b data)
  | writes {p : P} {b : BufId} (idle : s.pc p = .idle) (held : s.lock b = some p) :
      Moves s (.bwrite p b)
        { s.record (.written (s.bufs b).block (s.bufs b).data) with
          disk := update s.disk (s.bufs b).block (s.bufs b).data }
  | releases {p : P} {b : BufId} (idle : s.pc p = .idle) (held : s.lock b = some p) :
      Moves s (.brelse p b) ((s.setLock b none).goto p (.releasing b))
  | puts {p : P} {b : BufId} (here : s.pc p = .releasing b) :
      Moves s (.put p) ((s.setBuf b ((s.bufs b).put s.ticks)).goto p .idle)
  | pins {p : P} {b : BufId} (running : s.panicked = none) (idle : s.pc p = .idle) :
      Moves s (.bpin p b) (s.bpin b)
  | unpins {p : P} {b : BufId} (pinned : 0 < s.pins b) : Moves s (.bunpin p b) (s.bunpin b)

theorem step_moves (s : Cache P D) (a : Act P D) (follows : Follows s a) :
    Moves s a (step s a) := by
  unfold step
  split
  · exact .stays a
  next running =>
  have running : s.panicked = none := by simpa using running
  cases a with
  | tick => exact .ticks
  | bget p dev blockno =>
    dsimp only
    split
    · next idle =>
      rcases bget_cases s p dev blockno with
        ⟨i, same, result⟩ | ⟨miss, ⟨i, free, result⟩ | ⟨none, result⟩⟩
      · rw [result]
        exact .hits idle follows same
      · rw [result]
        exact .recycles idle follows miss free.1
      · rw [result]
        exact .panics idle running miss none
    · exact .stays _
  | acquire p =>
    dsimp only [acquire]
    split
    · next b block here =>
      split
      · next free => exact .acquires here free
      · exact .stays _
    · exact .stays _
  | fill p =>
    dsimp only [fill]
    split
    · next b block here =>
      split
      · next valid => exact .returns here valid
      · next invalid => exact .reads here (by simpa using invalid)
    · exact .stays _
  | store p b data =>
    dsimp only
    split
    · next idle => exact .stores idle follows
    · exact .stays _
  | bwrite p b =>
    have held : s.lock b = some p := follows
    dsimp only
    split
    · next idle =>
      rw [bwrite, if_pos held]
      exact .writes idle held
    · exact .stays _
  | brelse p b =>
    have held : s.lock b = some p := follows
    dsimp only
    split
    · next idle =>
      rw [brelse, if_pos held]
      exact .releases idle held
    · exact .stays _
  | put p =>
    dsimp only [put]
    split
    · next b here => exact .puts here
    · exact .stays _
  | bpin p b =>
    dsimp only
    split
    · next idle => exact .pins running idle
    · exact .stays _
  | bunpin p b =>
    dsimp only
    split
    · exact .unpins follows
    · exact .stays _

end Steps

end KernelLabs.Xv6.Bio
