import Mathlib.Data.List.Basic

/-!
# Lists of keyed nodes

A linked list of nodes that is searched for a key from the front: the first node with the key is
the one that is read and changed, a new node goes to the end.
-/

set_option autoImplicit false

namespace KernelLabs.Lib

section Keyed
variable {N K : Type} [DecidableEq K] (key : N → K)

def findNode (k : K) : List N → Option N
  | [] => none
  | n :: rest => if key n = k then some n else findNode k rest

def changeNode (k : K) (f : N → N) : List N → List N
  | [] => []
  | n :: rest => if key n = k then f n :: rest else n :: changeNode k f rest

variable {key}

theorem findNode_changeNode {k : K} {f : N → N} (keeps : ∀ n, key (f n) = key n)
    (nodes : List N) : findNode key k (changeNode key k f nodes) = (findNode key k nodes).map f := by
  induction nodes with
  | nil => rfl
  | cons n rest ih =>
    by_cases same : key n = k
    · simp [changeNode, findNode, same, keeps]
    · simp [changeNode, findNode, same, ih]

theorem findNode_changeNode_ne {k k' : K} {f : N → N} (keeps : ∀ n, key (f n) = key n)
    (other : k' ≠ k) (nodes : List N) :
    findNode key k' (changeNode key k f nodes) = findNode key k' nodes := by
  induction nodes with
  | nil => rfl
  | cons n rest ih =>
    by_cases same : key n = k
    · simp [changeNode, findNode, same, keeps, other.symm]
    · simp [changeNode, findNode, same, ih]

theorem findNode_append (k : K) (nodes : List N) (n : N) : findNode key k (nodes ++ [n]) =
      (findNode key k nodes).or (if key n = k then some n else none) := by
  induction nodes with
  | nil => rfl
  | cons m rest ih =>
    by_cases same : key m = k
    · simp [findNode, same]
    · simp [findNode, same, ih]

end Keyed

end KernelLabs.Lib
