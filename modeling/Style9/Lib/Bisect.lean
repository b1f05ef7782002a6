import Mathlib.Data.List.GetD
import Mathlib.Tactic.ByContra

/-!
# Binary search on an index

The loop `while (lo < hi) { mid = lo + (hi - lo) / 2; … }` that narrows a half-open
range to the first index at which a predicate stops holding. The predicate is only
asked to be a prefix: once false it stays false.
-/
namespace Style9.Lib

open List

/-- The loop itself; `fuel` bounds the number of halvings and `hi - lo` always suffices. -/
def bisect (below : Nat → Bool) : Nat → Nat → Nat → Nat
  | 0, lo, _ => lo
  | fuel + 1, lo, hi =>
    if lo < hi then
      let mid := lo + (hi - lo) / 2
      if below mid then bisect below fuel (mid + 1) hi else bisect below fuel lo mid
    else lo

theorem bisect_eq (below : Nat → Bool) (cut fuel lo hi : Nat) (before : ∀ i < cut, below i = true)
    (after : ∀ i, cut ≤ i → i < hi → below i = false) (low : lo ≤ cut) (high : cut ≤ hi)
    (enough : hi - lo ≤ fuel) :
    bisect below fuel lo hi = cut := by
  induction fuel generalizing lo hi with
  | zero => simp only [bisect]; omega
  | succ fuel ih =>
  simp only [bisect]
  split
  next proper =>
    cases holds : below (lo + (hi - lo) / 2) with
    | true =>
      have left : lo + (hi - lo) / 2 < cut := by
        by_contra past
        rw [after _ (by omega) (by omega)] at holds
        exact Bool.false_ne_true holds
      exact ih _ _ after (by omega) high (by omega)
    | false =>
    have right : cut ≤ lo + (hi - lo) / 2 := by
      by_contra short
      rw [before _ (by omega)] at holds
      exact Bool.false_ne_true holds.symm
    exact ih _ _ (fun i a b => after i a (by omega)) low right (by omega)
  · omega

theorem bisect_append {α : Type} [Inhabited α] (p : α → Bool) (xs ys : List α)
    (before : ∀ x ∈ xs, p x = true) (after : ∀ y ∈ ys, p y = false) :
    bisect (fun i => p ((xs ++ ys).getD i default)) (xs ++ ys).length 0 (xs ++ ys).length =
      xs.length := by
  apply bisect_eq
  · intro i inside
    rw [getD_append _ _ _ _ inside]
    apply before
    rw [getD_eq_getElem _ _ inside]
    exact getElem_mem inside
  · intro i past bound
    rw [getD_append_right _ _ _ _ past]
    apply after
    rw [length_append] at bound
    rw [getD_eq_getElem _ _ (by omega)]
    exact getElem_mem _
  · exact Nat.zero_le _
  · simp
  · exact Nat.le_refl _

end Style9.Lib
