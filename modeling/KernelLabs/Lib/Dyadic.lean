import Mathlib.Data.Nat.Bitwise
import Mathlib.Data.List.Basic
import Mathlib.Tactic.Ring

/-!
# Tilings by aligned blocks

A block `(i, k)` stands for the `2 ^ k` numbers from `i` on.  `Tiles n blocks` says
that the blocks are aligned and cut `[0, n)` into disjoint pieces.  A block may be cut
into its two halves, and two halves joined again; the halves of a block are found from
one another by flipping bit `k` of the start.
-/

set_option autoImplicit false

namespace KernelLabs.Lib

open List

def inBlock (b : Nat × Nat) (x : Nat) : Prop := b.1 ≤ x ∧ x < b.1 + 2 ^ b.2

structure Tiles (n : Nat) (blocks : List (Nat × Nat)) : Prop where
  aligned : ∀ b ∈ blocks, 2 ^ b.2 ∣ b.1
  apart : blocks.Pairwise fun b c => ∀ x, ¬ (inBlock b x ∧ inBlock c x)
  cover : ∀ x, x < n ↔ ∃ b ∈ blocks, inBlock b x

theorem inBlock_start (b : Nat × Nat) : inBlock b b.1 :=
  ⟨le_refl _, Nat.lt_add_of_pos_right (Nat.two_pow_pos b.2)⟩

theorem inBlock_halves (i k x : Nat) :
    inBlock (i, k + 1) x ↔ inBlock (i, k) x ∨ inBlock (i + 2 ^ k, k) x := by
  simp only [inBlock, pow_succ]
  omega

section Tilings
variable {n : Nat} {blocks other : List (Nat × Nat)}

theorem Tiles.perm (tiles : Tiles n blocks) (perm : blocks.Perm other) : Tiles n other := by
  refine ⟨?_, ?_, ?_⟩
  · intro b member
    exact tiles.aligned b (perm.mem_iff.mpr member)
  · refine (perm.pairwise_iff ?_).mp tiles.apart
    intro b c disjoint x both
    exact disjoint x ⟨both.2, both.1⟩
  · intro x
    rw [tiles.cover x]
    constructor
    · rintro ⟨b, member, inside⟩
      exact ⟨b, perm.mem_iff.mp member, inside⟩
    · rintro ⟨b, member, inside⟩
      exact ⟨b, perm.mem_iff.mpr member, inside⟩

theorem Tiles.start_lt (tiles : Tiles n blocks) (b : Nat × Nat) (member : b ∈ blocks) : b.1 < n :=
  (tiles.cover b.1).mpr ⟨b, member, inBlock_start b⟩

theorem Tiles.start_ne {b c : Nat × Nat} (tiles : Tiles n (c :: blocks)) (member : b ∈ blocks) :
    b.1 ≠ c.1 := by
  intro same
  have disjoint := (pairwise_cons.mp tiles.apart).1 b member
  apply disjoint c.1
  exact ⟨inBlock_start c, by rw [← same]; exact inBlock_start b⟩

theorem Tiles.nodup (tiles : Tiles n blocks) : blocks.Nodup := by
  apply tiles.apart.imp
  intro b c disjoint same
  apply disjoint b.1
  exact ⟨inBlock_start b, by rw [← same]; exact inBlock_start b⟩

theorem tiles_nil : Tiles 0 [] :=
  ⟨by simp, List.Pairwise.nil, by simp⟩

theorem Tiles.extend (tiles : Tiles n blocks) : Tiles (n + 1) ((n, 0) :: blocks) := by
  have single : ∀ x, inBlock (n, 0) x ↔ x = n := by
    intro x
    simp only [inBlock, pow_zero]
    omega
  refine ⟨?_, ?_, ?_⟩
  · intro b member
    rcases mem_cons.mp member with rfl | old
    · simp
    · exact tiles.aligned b old
  · refine pairwise_cons.mpr ⟨?_, tiles.apart⟩
    rintro b member x ⟨new, old⟩
    have below := (tiles.cover x).mpr ⟨b, member, old⟩
    rw [(single x).mp new] at below
    exact absurd below (lt_irrefl n)
  · intro x
    simp only [mem_cons, exists_eq_or_imp, single, ← tiles.cover]
    omega

theorem Tiles.split {i k : Nat} (tiles : Tiles n ((i, k + 1) :: blocks)) :
    Tiles n ((i, k) :: (i + 2 ^ k, k) :: blocks) := by
  obtain ⟨disjoint, rest⟩ := pairwise_cons.mp tiles.apart
  have whole : 2 ^ (k + 1) ∣ i := tiles.aligned (i, k + 1) mem_cons_self
  have half : 2 ^ k ∣ i := (pow_dvd_pow 2 (Nat.le_succ k)).trans whole
  refine ⟨?_, ?_, ?_⟩
  · intro b member
    rcases mem_cons.mp member with rfl | member
    · exact half
    · rcases mem_cons.mp member with rfl | member
      · exact Nat.dvd_add half (Nat.dvd_refl _)
      · exact tiles.aligned b (mem_cons_of_mem _ member)
  · refine pairwise_cons.mpr ⟨?_, pairwise_cons.mpr ⟨?_, rest⟩⟩
    · rintro c member x ⟨low, inC⟩
      rcases mem_cons.mp member with rfl | member
      · simp only [inBlock] at low inC
        omega
      · exact disjoint c member x ⟨(inBlock_halves i k x).mpr (Or.inl low), inC⟩
    · rintro c member x ⟨high, inC⟩
      exact disjoint c member x ⟨(inBlock_halves i k x).mpr (Or.inr high), inC⟩
  · intro x
    rw [tiles.cover x]
    simp only [mem_cons, exists_eq_or_imp, inBlock_halves, or_assoc]

theorem Tiles.merge {i k : Nat} (whole : 2 ^ (k + 1) ∣ i)
    (tiles : Tiles n ((i, k) :: (i + 2 ^ k, k) :: blocks)) : Tiles n ((i, k + 1) :: blocks) := by
  obtain ⟨low, rest⟩ := pairwise_cons.mp tiles.apart
  obtain ⟨high, rest⟩ := pairwise_cons.mp rest
  refine ⟨?_, ?_, ?_⟩
  · intro b member
    rcases mem_cons.mp member with rfl | member
    · exact whole
    · exact tiles.aligned b (mem_cons_of_mem _ (mem_cons_of_mem _ member))
  · refine pairwise_cons.mpr ⟨?_, rest⟩
    rintro c member x ⟨inWhole, inC⟩
    rcases (inBlock_halves i k x).mp inWhole with inLow | inHigh
    · exact low c (mem_cons_of_mem _ member) x ⟨inLow, inC⟩
    · exact high c member x ⟨inHigh, inC⟩
  · intro x
    rw [tiles.cover x]
    simp only [mem_cons, exists_eq_or_imp, inBlock_halves, or_assoc]

end Tilings

/-! ## The other half -/

section
variable {i k : Nat} (low : 2 ^ (k + 1) ∣ i)
include low

theorem xor_two_pow_of_low : i ^^^ 2 ^ k = i + 2 ^ k := by
  obtain ⟨m, rfl⟩ := low
  have even : Even (2 * m) := even_two_mul m
  have shift : 2 ^ (k + 1) * m = (2 * m) <<< k := by
    rw [Nat.shiftLeft_eq, pow_succ]
    ring
  have one : 2 ^ k = 1 <<< k := by rw [Nat.shiftLeft_eq, one_mul]
  rw [shift, one, ← Nat.shiftLeft_xor_distrib, Nat.xor_one_of_even even, Nat.shiftLeft_eq,
    Nat.shiftLeft_eq, Nat.shiftLeft_eq]
  ring

theorem testBit_of_low : i.testBit k = false := by
  obtain ⟨m, rfl⟩ := low
  rw [Nat.testBit_two_pow_mul]
  simp

theorem ldiff_two_pow_of_low : Nat.ldiff i (2 ^ k) = i := by
  apply Nat.eq_of_testBit_eq
  intro j
  rw [Nat.testBit_ldiff, Nat.testBit_two_pow]
  by_cases same : k = j
  · subst same
    simp [testBit_of_low low]
  · simp [same]

end

theorem low_or_high {i k : Nat} (aligned : 2 ^ k ∣ i) :
    (2 ^ (k + 1) ∣ i ∧ i ^^^ 2 ^ k = i + 2 ^ k ∧ Nat.ldiff i (2 ^ k) = i) ∨
    ∃ low, i = low + 2 ^ k ∧ 2 ^ (k + 1) ∣ low ∧ i ^^^ 2 ^ k = low ∧ Nat.ldiff i (2 ^ k) = low := by
  obtain ⟨m, rfl⟩ := aligned
  rcases Nat.even_or_odd' m with ⟨q, rfl | rfl⟩
  · left
    have low : 2 ^ (k + 1) ∣ 2 ^ k * (2 * q) := ⟨q, by rw [pow_succ]; ring⟩
    exact ⟨low, xor_two_pow_of_low low, ldiff_two_pow_of_low low⟩
  right
  have low : 2 ^ (k + 1) ∣ 2 ^ k * (2 * q) := ⟨q, by rw [pow_succ]; ring⟩
  have high : 2 ^ k * (2 * q + 1) = 2 ^ k * (2 * q) ^^^ 2 ^ k := by
    rw [xor_two_pow_of_low low]
    ring
  refine ⟨2 ^ k * (2 * q), by ring, low, ?_, ?_⟩
  · rw [high, Nat.xor_assoc, Nat.xor_self, Nat.xor_zero]
  rw [high]
  apply Nat.eq_of_testBit_eq
  intro j
  rw [Nat.testBit_ldiff, Nat.testBit_xor, Nat.testBit_two_pow]
  by_cases same : k = j
  · subst same
    simp [testBit_of_low low]
  · simp [same]

/-! ## Blocks inside a tile -/

theorem eq_of_inBlock {b : Nat × Nat} {i k : Nat} (aligned : 2 ^ b.2 ∣ b.1) (start : 2 ^ k ∣ i)
    (inside : inBlock b i) (order : b.2 = k) : b = (i, k) := by
  subst order
  exact Prod.ext (Nat.le_antisymm inside.1 (Nat.le_of_lt_add_of_dvd inside.2 start aligned)) rfl

/-- If the two halves of a block below order `m` are never both tiles, an aligned block that is
covered by tiles lies inside one of them. -/
theorem exists_tile {tiles : List (Nat × Nat)} {m : Nat} (aligned : ∀ b ∈ tiles, 2 ^ b.2 ∣ b.1)
    (coalesced : ∀ i k, k < m → (i, k) ∈ tiles → (i ^^^ 2 ^ k, k) ∉ tiles) (k : Nat) :
    ∀ i, k ≤ m → 2 ^ k ∣ i → (∀ x, inBlock (i, k) x → ∃ b ∈ tiles, inBlock b x) →
      ∃ b ∈ tiles, k ≤ b.2 ∧ inBlock b i := by
  induction k with
  | zero =>
    intro i _ _ covered
    obtain ⟨b, member, inside⟩ := covered i (inBlock_start (i, 0))
    exact ⟨b, member, Nat.zero_le _, inside⟩
  | succ k ih =>
    intro i bound whole covered
    have half : 2 ^ k ∣ i := (pow_dvd_pow 2 (Nat.le_succ k)).trans whole
    have half' : 2 ^ k ∣ i + 2 ^ k := Nat.dvd_add half (Nat.dvd_refl _)
    obtain ⟨b, member, large, inside⟩ := ih i (by omega) half fun x low =>
      covered x ((inBlock_halves i k x).mpr (.inl low))
    obtain ⟨c, member', large', inside'⟩ := ih (i + 2 ^ k) (by omega) half' fun x high =>
      covered x ((inBlock_halves i k x).mpr (.inr high))
    by_cases larger : k + 1 ≤ b.2
    · exact ⟨b, member, larger, inside⟩
    by_cases larger' : k + 1 ≤ c.2
    · have before : c.1 < i + 2 ^ (k + 1) :=
        lt_of_le_of_lt inside'.1 (Nat.add_lt_add_left (Nat.pow_lt_pow_succ (by decide)) i)
      have start := Nat.le_of_lt_add_of_dvd before
        ((pow_dvd_pow 2 larger').trans (aligned c member')) whole
      exact ⟨c, member', larger', start, lt_of_le_of_lt (Nat.le_add_right i _) inside'.2⟩
    · rw [eq_of_inBlock (aligned b member) half inside (by omega)] at member
      rw [eq_of_inBlock (aligned c member') half' inside' (by omega),
        ← xor_two_pow_of_low whole] at member'
      exact absurd member' (coalesced i k (by omega) member)

end KernelLabs.Lib
