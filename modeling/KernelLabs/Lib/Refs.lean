import Mathlib.Algebra.Group.Pi.Basic
import Mathlib.Algebra.Ring.Int.Defs

/-!
# Programs that take and give back references

A program is its trace of gets and puts together with the way it ends: it comes back with a
value, it leaves the processor and its thread is resumed elsewhere, or it stops for good.
`Settles known owed m` is the weakest precondition of "all references are given back": `m` is
entered with the pointers `known` already obtained and with `owed` references still to give back.
The rules for it are equivalences, so that they also show that a program keeps a reference.
-/

set_option autoImplicit false

namespace KernelLabs.Lib

open List

inductive RefEvent (K : Type) where
  | got (o : K)
  | put (p : Option K)
  deriving DecidableEq, Repr

section Traces
variable {K : Type} [DecidableEq K]

def oneRef (o : K) : K → Int := fun x => if o = x then 1 else 0

def RefEvent.change : RefEvent K → K → Int
  | .got o => oneRef o
  | .put none => 0
  | .put (some o) => -oneRef o

def netChange : List (RefEvent K) → K → Int
  | [] => 0
  | event :: rest => event.change + netChange rest

def obtained : List (RefEvent K) → List K
  | [] => []
  | .got o :: rest => o :: obtained rest
  | .put _ :: rest => obtained rest

/-- Every put is of a pointer that is in `known` or was got before. -/
def PutsObtained : List K → List (RefEvent K) → Prop
  | _, [] => True
  | known, .got o :: rest => PutsObtained (o :: known) rest
  | known, .put p :: rest => (∃ o ∈ known, p = some o) ∧ PutsObtained known rest

theorem oneRef_ne_zero (o : K) : oneRef o ≠ 0 := by
  intro zero
  have here := congrFun zero o
  simp [oneRef] at here

theorem netChange_append (first second : List (RefEvent K)) :
    netChange (first ++ second) = netChange first + netChange second := by
  induction first with
  | nil => simp [netChange]
  | cons event rest ih => simp [netChange, ih, add_assoc]

omit [DecidableEq K] in
theorem PutsObtained.mono {known more : List K} {trace : List (RefEvent K)}
    (subset : known ⊆ more) (puts : PutsObtained known trace) : PutsObtained more trace := by
  induction trace generalizing known more with
  | nil => trivial
  | cons event rest ih =>
    cases event with
    | got o => exact ih (cons_subset_cons o subset) puts
    | put p =>
      obtain ⟨⟨o, member, pointer⟩, puts⟩ := puts
      exact ⟨⟨o, subset member, pointer⟩, ih subset puts⟩

omit [DecidableEq K] in
theorem putsObtained_append {known : List K} {first second : List (RefEvent K)} :
    PutsObtained known (first ++ second) ↔
      PutsObtained known first ∧ PutsObtained ((obtained first).reverse ++ known) second := by
  induction first generalizing known with
  | nil => simp [PutsObtained, obtained]
  | cons event rest ih =>
    cases event with
    | got o =>
      have shift : (obtained (.got o :: rest)).reverse ++ known =
          (obtained rest).reverse ++ o :: known := by simp [obtained]
      rw [shift]
      exact ih
    | put p =>
      simp only [cons_append, PutsObtained, obtained, and_assoc]
      exact and_congr_right fun _ => ih

end Traces

/-- The two ways not to come back: the thread leaves the processor and is resumed elsewhere, or the
program stops for good. -/
inductive Ending where
  | resumed
  | stopped
  deriving DecidableEq, Repr

structure RefProg (K α : Type) where
  trace : List (RefEvent K)
  result : Except Ending α

namespace RefProg

section Programs
variable {K α β : Type}

@[ext] theorem ext {m n : RefProg K α} (trace : m.trace = n.trace) (result : m.result = n.result) :
    m = n := by
  cases m
  cases n
  cases trace
  cases result
  rfl

instance : Monad (RefProg K) where
  pure a := ⟨[], .ok a⟩
  bind m f :=
    match m.result with
    | .ok a => ⟨m.trace ++ (f a).trace, (f a).result⟩
    | .error e => ⟨m.trace, .error e⟩

def get (found : Option K) : RefProg K (Option K) :=
  ⟨(found.map RefEvent.got).toList, .ok found⟩

def put (p : Option K) : RefProg K Unit := ⟨[.put p], .ok ()⟩

/-- The thread gives up the processor, and does not come back to this point. -/
def leave : RefProg K α := ⟨[], .error .resumed⟩

def stop : RefProg K α := ⟨[], .error .stopped⟩

def stopIf (b : Bool) : RefProg K Unit := if b then stop else pure ()

theorem bind_of_ok {m : RefProg K α} {a : α} (f : α → RefProg K β) (done : m.result = .ok a) :
    m >>= f = ⟨m.trace ++ (f a).trace, (f a).result⟩ := by
  simp only [bind, done]

theorem bind_of_error {m : RefProg K α} {e : Ending} (f : α → RefProg K β)
    (ended : m.result = .error e) : m >>= f = ⟨m.trace, .error e⟩ := by
  simp only [bind, ended]

theorem bind_pure_self (m : RefProg K α) : m >>= (fun a => pure a) = m := by
  cases result : m.result with
  | ok a => exact (bind_of_ok _ result).trans (RefProg.ext (append_nil _) result.symm)
  | error e => exact (bind_of_error _ result).trans (RefProg.ext rfl result.symm)

theorem bind_bind {γ : Type} (m : RefProg K α) (f : α → RefProg K β) (g : β → RefProg K γ) :
    m >>= f >>= g = m >>= fun a => f a >>= g := by
  cases result : m.result with
  | error e =>
    rw [bind_of_error f result, bind_of_error _ result]
    exact bind_of_error g rfl
  | ok a =>
    rw [bind_of_ok f result, bind_of_ok _ result]
    cases next : (f a).result with
    | error e => rw [bind_of_error g rfl, bind_of_error g next]
    | ok b =>
      rw [bind_of_ok g rfl, bind_of_ok g next]
      exact RefProg.ext (append_assoc _ _ _) rfl

instance : LawfulMonad (RefProg K) :=
  LawfulMonad.mk' (RefProg K) bind_pure_self (fun _ _ => rfl) bind_bind

end Programs

section Rules
variable {K α β : Type} [DecidableEq K] {known : List K} {owed : K → Int}

/-- Once the thread is back, all counts are as before; and only pointers that were got are put. -/
structure Balanced (m : RefProg K α) : Prop where
  puts : PutsObtained [] m.trace
  net : m.result = .error .stopped ∨ netChange m.trace = 0

/-- From a point where the pointers `known` are obtained and `owed` references are to be given
back, `m` leaves nothing owed. -/
def Settles (known : List K) (owed : K → Int) (m : RefProg K α) : Prop :=
  PutsObtained known m.trace ∧ (m.result = .error .stopped ∨ owed + netChange m.trace = 0)

theorem balanced_iff (m : RefProg K α) : m.Balanced ↔ m.Settles [] 0 := by
  rw [Settles, zero_add]
  exact ⟨fun balanced => ⟨balanced.puts, balanced.net⟩, fun settles => ⟨settles.1, settles.2⟩⟩

theorem settles_pure (a : α) : (pure a : RefProg K α).Settles known owed ↔ owed = 0 := by
  simp [Settles, pure, PutsObtained, netChange]

theorem settles_leave : (leave : RefProg K α).Settles known owed ↔ owed = 0 := by
  simp [Settles, leave, PutsObtained, netChange]

theorem settles_stop : (stop : RefProg K α).Settles known owed :=
  ⟨trivial, Or.inl rfl⟩

theorem settles_leave_bind (f : α → RefProg K β) : (leave >>= f).Settles known owed ↔ owed = 0 := by
  rw [bind_of_error f rfl]
  exact settles_leave (α := β)

theorem settles_stop_bind (f : α → RefProg K β) : (stop >>= f).Settles known owed := by
  rw [bind_of_error f rfl]
  exact settles_stop (α := β)

theorem settles_get_none (f : Option K → RefProg K α) :
    (get none >>= f).Settles known owed ↔ (f none).Settles known owed := by
  rw [bind_of_ok f rfl]
  rfl

theorem settles_get_some (o : K) (f : Option K → RefProg K α) :
    (get (some o) >>= f).Settles known owed ↔
      (f (some o)).Settles (o :: known) (owed + oneRef o) := by
  rw [bind_of_ok f rfl, Settles, Settles, add_assoc]
  rfl

theorem settles_put_none (f : Unit → RefProg K α) : ¬ (put none >>= f).Settles known owed := by
  rw [bind_of_ok f rfl]
  intro settles
  obtain ⟨⟨⟨o, _, never⟩, _⟩, _⟩ := settles
  cases never

theorem settles_put_some {o : K} (member : o ∈ known) (f : Unit → RefProg K α) :
    (put (some o) >>= f).Settles known owed ↔ (f ()).Settles known (owed - oneRef o) := by
  rw [bind_of_ok f rfl, Settles, Settles, sub_eq_add_neg, add_assoc]
  exact and_congr_left fun _ => ⟨fun puts => puts.2, fun puts => ⟨⟨o, member, rfl⟩, puts⟩⟩

theorem settles_stopIf (b : Bool) (f : Unit → RefProg K α) :
    (stopIf b >>= f).Settles known owed ↔ (b = false → (f ()).Settles known owed) := by
  cases b with
  | false =>
    rw [bind_of_ok f rfl]
    exact ⟨fun settles _ => settles, fun settles => settles rfl⟩
  | true =>
    refine ⟨fun _ never => ?_, fun _ => settles_stop_bind f⟩
    cases never

/-- A balanced part that comes back may be skipped; what it got stays known. -/
theorem settles_bind {m : RefProg K α} {a : α} (balanced : m.Balanced)
    (done : m.result = .ok a) (f : α → RefProg K β) : (m >>= f).Settles known owed ↔
      (f a).Settles ((obtained m.trace).reverse ++ known) owed := by
  have net : netChange m.trace = 0 := by
    rcases balanced.net with stopped | net
    · rw [done] at stopped
      cases stopped
    · exact net
  have puts : PutsObtained known m.trace := balanced.puts.mono (nil_subset known)
  rw [bind_of_ok f done, Settles, Settles, putsObtained_append, netChange_append, net, zero_add]
  exact and_congr_left fun _ => ⟨fun both => both.2, fun second => ⟨puts, second⟩⟩

theorem settles_bind_of_stopped {m : RefProg K α} (balanced : m.Balanced)
    (stopped : m.result = .error .stopped) (f : α → RefProg K β) :
    (m >>= f).Settles known owed := by
  rw [bind_of_error f stopped]
  exact ⟨balanced.puts.mono (nil_subset known), Or.inl rfl⟩

end Rules

end RefProg

end KernelLabs.Lib
