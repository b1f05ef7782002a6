import Mathlib.Data.List.Induction
import Mathlib.Data.Nat.ModEq
import Mathlib.Algebra.BigOperators.Group.List.Basic

/-!
# `fs_apfs_fletcher64`

The checksum of every block the volume stores. Its two halves fold the sum of
the words and their weighted sum modulo `2^32 - 1`, and nothing else; a change of one word moves the
first sum, unless it swaps the two zeros of that modulus.
-/

namespace Style9.Apfs.Fletcher

open List

/-- One word of the loop of `fs_apfs_fletcher64`. -/
def fletcherStep (sums : UInt64 × UInt64) (w : UInt32) : UInt64 × UInt64 :=
  let sum1 := (sums.1 + w.toUInt64) % 0xFFFFFFFF
  (sum1, (sums.2 + sum1) % 0xFFFFFFFF)

def fletcherSums (w : List UInt32) : UInt64 × UInt64 := w.foldl fletcherStep (0, 0)

/-- The half `c1` or `c2`: the complement of a sum, cut to 32 bits. -/
def fletcherHalf (a b : UInt64) : UInt32 := (~~~((a + b) % 0xFFFFFFFF)).toUInt32

def fsApfsFletcher64 (w : List UInt32) (len : UInt32) : UInt64 :=
  let (sum1, sum2) := fletcherSums (w.take (len / 4).toNat)
  let c1 := fletcherHalf sum1 sum2
  let c2 := fletcherHalf sum1 c1.toUInt64
  c2.toUInt64 <<< 32 ||| c1.toUInt64

/-- The sum of the words. -/
def total (w : List UInt32) : Nat := (w.map UInt32.toNat).sum

/-- The sum of the running sums: the word `i` of `n` counts `n - i` times. -/
def weighted : List UInt32 → Nat
  | [] => 0
  | w :: ws => (ws.length + 1) * w.toNat + weighted ws

/-- Every sum the loop and the two folds over `w` add up in 64 bits is the sum of the numbers. -/
def NoWrap (w : List UInt32) : Prop :=
  (∀ pre x post, w = pre ++ x :: post →
    (fletcherSums pre).1.toNat + x.toNat < 2 ^ 64 ∧
      (fletcherSums pre).2.toNat + (fletcherSums (pre ++ [x])).1.toNat < 2 ^ 64) ∧
    (fletcherSums w).1.toNat + (fletcherSums w).2.toNat < 2 ^ 64 ∧
      (fletcherSums w).1.toNat + (fletcherHalf (fletcherSums w).1 (fletcherSums w).2).toNat < 2 ^ 64

variable {a b : UInt64} {w : List UInt32}

theorem toNat_fletcherHalf (low : a.toNat + b.toNat < 2 ^ 64) :
    (fletcherHalf a b).toNat = 0xFFFFFFFF - (a.toNat + b.toNat) % 0xFFFFFFFF := by
  have small : (a.toNat + b.toNat) % 0xFFFFFFFF < 0xFFFFFFFF := Nat.mod_lt _ (by decide)
  simp [fletcherHalf]
  omega

theorem fletcherSums_append (x : UInt32) :
    fletcherSums (w ++ [x]) = fletcherStep (fletcherSums w) x := by
  simp [fletcherSums]

theorem total_append (x : UInt32) : total (w ++ [x]) = total w + x.toNat := by
  simp [total]

theorem weighted_append (x : UInt32) : weighted (w ++ [x]) = weighted w + (total w + x.toNat) := by
  induction w with
  | nil => simp [weighted, total]
  | cons y ws ih =>
    simp only [cons_append, weighted, ih, length_append, length_singleton, total, map_cons,
      sum_cons]
    grind

/-- What the loop leaves: the sum and the weighted sum of the words, reduced. -/
theorem fletcherSums_eq (w : List UInt32) :
    (fletcherSums w).1.toNat = total w % 0xFFFFFFFF ∧
      (fletcherSums w).2.toNat = weighted w % 0xFFFFFFFF := by
  induction w using List.reverseRecOn with
  | nil => decide
  | append_singleton ws x ih =>
    have word := x.toNat_lt
    rw [fletcherSums_append, weighted_append, total_append]
    constructor
    · simp [fletcherStep, ih.1]
      omega
    · simp [fletcherStep, ih.1, ih.2]
      omega

/-- Both sums are reduced, so no addition comes near `2^64`. -/
theorem fletcher_noWrap (w : List UInt32) : NoWrap w := by
  have whole := fletcherSums_eq w
  have half := (fletcherHalf (fletcherSums w).1 (fletcherSums w).2).toNat_lt
  refine ⟨fun pre x post _ => ?_, by omega, by omega⟩
  have before := fletcherSums_eq pre
  have after := fletcherSums_eq (pre ++ [x])
  have word := x.toNat_lt
  omega

/-- The halves of the checksum are one function of the two reduced sums. -/
theorem fsApfsFletcher64_eq {len : UInt32} (whole : w.length = len.toNat / 4) :
    ∃ c1 c2, (fsApfsFletcher64 w len).toNat = c2 * 2 ^ 32 + c1 ∧
      c1 = 0xFFFFFFFF - (total w % 0xFFFFFFFF + weighted w % 0xFFFFFFFF) % 0xFFFFFFFF ∧
      c2 = 0xFFFFFFFF - (total w % 0xFFFFFFFF + c1) % 0xFFFFFFFF := by
  obtain ⟨-, first, second⟩ := fletcher_noWrap w
  obtain ⟨one, two⟩ := fletcherSums_eq w
  have read : w.take (len / 4).toNat = w := take_of_length_le (by simp [whole])
  rw [← one, ← two, ← toNat_fletcherHalf first]
  simp only [fsApfsFletcher64, read]
  generalize fletcherHalf (fletcherSums w).1 (fletcherSums w).2 = c1 at second ⊢
  rw [← c1.toNat_toUInt64] at second ⊢
  refine ⟨_, _, ?_, rfl, toNat_fletcherHalf second⟩
  generalize fletcherHalf _ _ = c2
  have high : c2.toNat <<< 32 < 2 ^ 64 := by
    have := c2.toNat_lt
    omega
  simp only [UInt64.toNat_or, UInt64.toNat_shiftLeft, UInt32.toNat_toUInt64]
  change c2.toNat <<< 32 % 2 ^ 64 ||| c1.toNat = _
  rw [Nat.mod_eq_of_lt high, ← Nat.shiftLeft_add_eq_or_of_lt c1.toNat_lt, Nat.shiftLeft_eq]

/-- The two words that are zero modulo `2^32 - 1`. -/
def Zeros (x y : UInt32) : Prop := x = 0 ∧ y = 0xFFFFFFFF ∨ x = 0xFFFFFFFF ∧ y = 0

/-- The checksum detects a change of one word, unless it swaps the two zeros; it determines, and is
determined by, both sums modulo `2^32 - 1`, and none of its 64-bit sums wraps. -/
theorem fletcher64_detects (len : UInt32) (v w : List UInt32) (whole : v.length = len.toNat / 4)
    (whole' : w.length = len.toNat / 4) :
    NoWrap v ∧
    (fsApfsFletcher64 v len = fsApfsFletcher64 w len ↔
      total v ≡ total w [MOD 0xFFFFFFFF] ∧ weighted v ≡ weighted w [MOD 0xFFFFFFFF]) ∧
    ∀ pre x y post, v = pre ++ x :: post → w = pre ++ y :: post → x ≠ y → ¬ Zeros x y →
      fsApfsFletcher64 v len ≠ fsApfsFletcher64 w len := by
  have halves : fsApfsFletcher64 v len = fsApfsFletcher64 w len ↔
      total v ≡ total w [MOD 0xFFFFFFFF] ∧ weighted v ≡ weighted w [MOD 0xFFFFFFFF] := by
    obtain ⟨c1, c2, eq, h1, h2⟩ := fsApfsFletcher64_eq whole
    obtain ⟨d1, d2, eq', k1, k2⟩ := fsApfsFletcher64_eq whole'
    rw [← UInt64.toNat_inj, eq, eq']
    unfold Nat.ModEq
    omega
  refine ⟨fletcher_noWrap v, halves, ?_⟩
  rintro pre x y post rfl rfl ne zeros same
  have moved := (halves.mp same).1
  simp only [total, map_append, map_cons, sum_append, sum_cons, Nat.ModEq] at moved
  have wordx := x.toNat_lt
  have wordy := y.toNat_lt
  rw [ne_eq, ← UInt32.toNat_inj] at ne
  simp only [Zeros, ← UInt32.toNat_inj] at zeros
  change ¬ (x.toNat = 0 ∧ y.toNat = 0xFFFFFFFF ∨ x.toNat = 0xFFFFFFFF ∧ y.toNat = 0) at zeros
  omega

theorem fletcher64_detects_three : fsApfsFletcher64 [7, 1, 9] 12 ≠ fsApfsFletcher64 [7, 0, 9] 12 :=
  (fletcher64_detects 12 [7, 1, 9] [7, 0, 9] rfl rfl).2.2 [7] 1 0 [9] rfl rfl (by decide)
    (by unfold Zeros; decide)

end Style9.Apfs.Fletcher
