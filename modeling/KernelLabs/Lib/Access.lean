import Mathlib.Data.List.Basic

/-!
# Array accesses that record their bounds

`Acc α` is a computation over C arrays together with one flag: whether every
index it used was below the length of the array it indexed.  An access past the
end does not stop the computation.  A read there returns whatever the memory
behind the array holds (the `junk` argument); a write there leaves the modelled
arrays alone.
-/

set_option autoImplicit false

namespace KernelLabs.Lib

universe u

structure Acc (α : Type u) where
  val : α
  inb : Bool
  deriving Repr, DecidableEq

namespace Acc

variable {α β : Type}

instance : Monad Acc where
  pure a := ⟨a, true⟩
  bind x f := ⟨(f x.val).val, x.inb && (f x.val).inb⟩

@[simp] theorem pure_val (a : α) : (pure a : Acc α).val = a := rfl

@[simp] theorem pure_inb (a : α) : (pure a : Acc α).inb = true := rfl

@[simp] theorem bind_val (x : Acc α) (f : α → Acc β) : (x >>= f).val = (f x.val).val := rfl

@[simp] theorem bind_inb (x : Acc α) (f : α → Acc β) :
    (x >>= f).inb = (x.inb && (f x.val).inb) := rfl

end Acc

section Arrays
variable {α : Type}

def readAt (junk : Nat → α) (p : List α) (i : Nat) : Acc α :=
  ⟨p.getD i (junk i), decide (i < p.length)⟩

def writeAt (p : List α) (i : Nat) (v : α) : Acc (List α) :=
  ⟨p.set i v, decide (i < p.length)⟩

theorem readAt_val_of_lt (junk : Nat → α) (p : List α) (i : Nat) (fallback : α)
    (h : i < p.length) : (readAt junk p i).val = p.getD i fallback := by
  simp [readAt, List.getD_eq_getElem?_getD, h]

@[simp] theorem readAt_inb (junk : Nat → α) (p : List α) (i : Nat) :
    (readAt junk p i).inb = decide (i < p.length) := rfl

@[simp] theorem writeAt_val (p : List α) (i : Nat) (v : α) : (writeAt p i v).val = p.set i v := rfl

@[simp] theorem writeAt_inb (p : List α) (i : Nat) (v : α) :
    (writeAt p i v).inb = decide (i < p.length) := rfl

end Arrays

end KernelLabs.Lib
