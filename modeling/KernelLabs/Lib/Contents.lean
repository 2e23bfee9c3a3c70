import Mathlib.Data.List.GetD

/-!
# Contents that are overwritten and resized

A finite sequence that is overwritten at a position, cut, and extended by a filler, read
at one position with `getD`: beyond its end it reads as the filler.
-/

set_option autoImplicit false

namespace KernelLabs.Lib

open List

section Contents
variable {E : Type} (fill : E)

/-- `new` stands at `off`, whatever stood there before. -/
def overwrite (old : List E) (off : Nat) (new : List E) : List E :=
  old.take off ++ new ++ old.drop (off + new.length)

/-- Cut or extended with `fill` to `n` elements. -/
def resize (old : List E) (n : Nat) : List E :=
  old.take n ++ replicate (n - old.length) fill

theorem length_overwrite (old : List E) (off : Nat) (new : List E) (inside : off ≤ old.length) :
    (overwrite old off new).length = max old.length (off + new.length) := by
  simp only [overwrite, length_append, length_take, length_drop]
  omega

variable {off : Nat} {old : List E}

theorem getD_overwrite (new : List E) (inside : off ≤ old.length) (i : Nat) :
    (overwrite old off new).getD i fill =
      if off ≤ i ∧ i < off + new.length then new.getD (i - off) fill else old.getD i fill := by
  have front : (old.take off).length = off := by rw [length_take]; omega
  unfold overwrite
  rcases Nat.lt_or_ge i off with below | above
  · rw [if_neg (by omega), append_assoc, getD_append _ _ _ _ (by omega)]
    simp only [getD_eq_getElem?_getD, getElem?_take, if_pos below]
  rw [append_assoc, getD_append_right _ _ _ _ (by omega), front]
  rcases Nat.lt_or_ge i (off + new.length) with within | beyond
  · rw [if_pos ⟨above, within⟩, getD_append _ _ _ _ (by omega)]
  · have position : off + new.length + (i - off - new.length) = i := by omega
    rw [if_neg (by omega), getD_append_right _ _ _ _ (by omega)]
    simp only [getD_eq_getElem?_getD, getElem?_drop, position]

@[simp] theorem overwrite_nil (old : List E) (off : Nat) : overwrite old off [] = old := by
  simp [overwrite]

theorem take_overwrite (new : List E) (inside : off ≤ old.length) :
    (overwrite old off new).take off = old.take off := by
  rw [overwrite, append_assoc, take_append_of_le_length, take_take, Nat.min_self]
  rw [length_take]
  omega

theorem take_overwrite_zero (old new : List E) : (overwrite old 0 new).take new.length = new := by
  simp [overwrite]

theorem length_resize (old : List E) (n : Nat) : (resize fill old n).length = n := by
  simp only [resize, length_append, length_take, length_replicate]
  omega

theorem getD_resize (old : List E) (n i : Nat) :
    (resize fill old n).getD i fill = if i < n then old.getD i fill else fill := by
  rcases Nat.lt_or_ge i (old.take n).length with front | back
  · rw [resize, getD_append _ _ _ _ front]
    rw [length_take] at front
    rw [if_pos (by omega)]
    simp only [getD_eq_getElem?_getD, getElem?_take, if_pos (show i < n by omega)]
  rw [resize, getD_append_right _ _ _ _ back, getD_eq_getElem?_getD,
    getElem?_getD_replicate_default_eq]
  rw [length_take] at back
  split
  · rw [getD_eq_default _ _ (by omega)]
  · rfl

theorem take_drop_eq_map_getD {l : List E} {n : Nat} (inside : off + n ≤ l.length) :
    (l.drop off).take n = (range n).map fun j => l.getD (off + j) fill := by
  apply ext_getElem
  · simp only [length_take, length_drop, length_map, length_range]
    omega
  · intro j left right
    simp only [length_map, length_range] at right
    simp only [getElem_take, getElem_drop, getElem_map, getElem_range]
    rw [getD_eq_getElem _ _ (by omega)]

end Contents

end KernelLabs.Lib
