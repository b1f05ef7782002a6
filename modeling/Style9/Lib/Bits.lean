import Mathlib.Order.Interval.Finset.Nat

/-!
# Bitmaps and runs of bits

A bitmap is a predicate on indices; what is counted is its clear bits below a bound. Setting
or clearing a run of bits that all had the other value moves that count by the length of the
run.
-/
namespace Style9.Lib

open Finset

/-- An allocation bitmap: bit set means in use. -/
abbrev Bitmap := Nat → Bool

/-- The run of bits `[first, first + count)` of a bitmap given one value. -/
def setRun (bm : Bitmap) (first count : Nat) (v : Bool) : Bitmap :=
  fun i => if first ≤ i ∧ i < first + count then v else bm i

/-- The clear bits below `n`. -/
def clearCount (bm : Bitmap) (n : Nat) : Nat := ((range n).filter fun i => bm i = false).card

variable {bm : Bitmap} {first count n i : Nat} {v : Bool}

theorem setRun_inside (low : first ≤ i) (high : i < first + count) :
    setRun bm first count v i = v :=
  if_pos ⟨low, high⟩

theorem setRun_outside (out : i < first ∨ first + count ≤ i) : setRun bm first count v i = bm i :=
  if_neg (by omega)

theorem clearCount_setRun_true (fits : first + count ≤ n)
    (clear : ∀ i, first ≤ i → i < first + count → bm i = false) :
    clearCount (setRun bm first count true) n + count = clearCount bm n := by
  have split : (range n).filter (fun i => setRun bm first count true i = false) =
      ((range n).filter fun i => bm i = false) \ Finset.Ico first (first + count) := by
    ext i
    simp only [mem_filter, mem_range, mem_sdiff, mem_Ico]
    by_cases inside : first ≤ i ∧ i < first + count
    · simp [setRun, inside]
    · simp [setRun, inside]
  have inside : Finset.Ico first (first + count) ⊆ (range n).filter fun i => bm i = false := by
    intro i member
    obtain ⟨low, high⟩ := mem_Ico.mp member
    exact mem_filter.mpr ⟨mem_range.mpr (by omega), clear i low high⟩
  have size := card_sdiff_add_card_eq_card inside
  rw [← split, Nat.card_Ico] at size
  unfold clearCount
  omega

theorem clearCount_setRun_false (fits : first + count ≤ n)
    (set : ∀ i, first ≤ i → i < first + count → bm i = true) :
    clearCount (setRun bm first count false) n = clearCount bm n + count := by
  have back : setRun (setRun bm first count false) first count true = bm := by
    funext i
    by_cases inside : first ≤ i ∧ i < first + count
    · rw [setRun_inside inside.1 inside.2, set i inside.1 inside.2]
    · rw [setRun_outside (by omega), setRun_outside (by omega)]
  have moved : clearCount (setRun (setRun bm first count false) first count true) n + count =
      clearCount (setRun bm first count false) n :=
    clearCount_setRun_true fits (fun i low high => setRun_inside low high)
  rw [back] at moved
  exact moved.symm

theorem le_clearCount (fits : first + count ≤ n)
    (clear : ∀ i, first ≤ i → i < first + count → bm i = false) : count ≤ clearCount bm n := by
  have moved := clearCount_setRun_true fits clear
  omega

end Style9.Lib
