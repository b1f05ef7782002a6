import Mathlib.Data.Nat.Count

/-!
# Counting below a bound

How a count of the numbers below a bound changes when the property changes at one of them.
-/
namespace Style9.Lib

open Nat

variable {p q : Nat → Prop} [DecidablePred p] [DecidablePred q] {i n : Nat}

section

variable (inside : i < n) (same : ∀ k ≠ i, (p k ↔ q k))
include inside same

/-- Two properties that differ at most at one number. -/
theorem count_at : count p n + (if q i then 1 else 0) = count q n + (if p i then 1 else 0) := by
  induction n with
  | zero => exact absurd inside (not_lt_zero i)
  | succ n ih =>
  rw [Nat.count_succ, Nat.count_succ]
  rcases Nat.lt_succ_iff_lt_or_eq.mp inside with before | rfl
  · have last := same n (Nat.ne_of_gt before)
    have earlier := ih before
    simp only [last]
    omega
  have below : count p i = count q i := by
    simp only [count_eq_card_filter_range]
    congr 1
    apply Finset.filter_congr
    intro k member
    exact same k (Nat.ne_of_lt (Finset.mem_range.mp member))
  omega

theorem count_join (before : ¬ p i) (after : q i) : count q n = count p n + 1 := by
  have change := count_at inside same
  rw [if_pos after, if_neg before] at change
  omega

theorem count_leave (before : p i) (after : ¬ q i) : count q n + 1 = count p n := by
  have change := count_at inside same
  rw [if_neg after, if_pos before] at change
  omega

theorem count_keep (stays : p i ↔ q i) : count q n = count p n := by
  have change := count_at inside same
  simp only [stays] at change
  omega

end

end Style9.Lib
