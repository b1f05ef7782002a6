import Mathlib.Data.List.Basic

/-!
# Lists cut by a threshold

A sorted list seen from a threshold is described by two predicates: `below` (strictly under
it) and `upTo` (not above it). All that a search relies on is that nothing at or under the
threshold comes after something that is not under it.
-/
namespace Style9.Lib

open List

variable {α β : Type} {xs : List α} {p : α → Bool}

/-- What a threshold does to a strictly sorted list. -/
structure Cut (below upTo : α → Bool) (xs : List α) : Prop where
  weaken : ∀ x ∈ xs, below x = true → upTo x = true
  before : xs.Pairwise fun x y => upTo y = true → below x = true

theorem Cut.flatMap_iff {below upTo : α → Bool} {f : β → List α} {ys : List β} :
    Cut below upTo (ys.flatMap f) ↔ (∀ y ∈ ys, Cut below upTo (f y)) ∧
      ys.Pairwise fun y z => ∀ a ∈ f y, ∀ b ∈ f z, upTo b = true → below a = true := by
  constructor
  · rintro ⟨weaken, before⟩
    rw [pairwise_flatMap] at before
    refine ⟨fun y hy => ⟨fun x hx => weaken x (mem_flatMap.mpr ⟨y, hy, hx⟩), before.1 y hy⟩,
      before.2⟩
  rintro ⟨parts, across⟩
  refine ⟨fun x hx => ?_, pairwise_flatMap.mpr ⟨fun y hy => (parts y hy).before, across⟩⟩
  obtain ⟨y, hy, hx⟩ := mem_flatMap.mp hx
  exact (parts y hy).weaken x hx

/-- If the head of a cut list is above the threshold, so is everything in it. -/
theorem Cut.above_of_head {below upTo : α → Bool} {x : α}
    (cut : Cut below upTo (x :: xs)) (above : upTo x = false) : ∀ y ∈ x :: xs, upTo y = false := by
  intro y member
  rcases mem_cons.mp member with rfl | later
  · exact above
  by_contra under
  have under : upTo y = true := by simpa using under
  have strict := (pairwise_cons.mp cut.before).1 y later under
  have := cut.weaken x mem_cons_self strict
  simp [above] at this

/-- A list whose predicate holds on a prefix only is split where the predicate ends. -/
theorem exists_split_of_prefix (closed : xs.Pairwise fun x y => p y = true → p x = true) :
    ∃ front back, xs = front ++ back ∧ (∀ x ∈ front, p x = true) ∧ ∀ x ∈ back, p x = false := by
  induction xs with
  | nil => exact ⟨[], [], rfl, by simp, by simp⟩
  | cons x xs ih =>
  obtain ⟨head, tail⟩ := pairwise_cons.mp closed
  cases holds : p x with
  | true =>
    obtain ⟨front, back, rfl, all, none⟩ := ih tail
    refine ⟨x :: front, back, rfl, ?_, none⟩
    intro y member
    rcases mem_cons.mp member with rfl | later
    · exact holds
    · exact all y later
  | false =>
  refine ⟨[], x :: xs, rfl, by simp, ?_⟩
  intro y member
  rcases mem_cons.mp member with rfl | later
  · exact holds
  · by_contra above
    rw [head y later (by simpa using above)] at holds
    exact Bool.false_ne_true holds.symm

theorem dropWhile_append_mid {front mid back : List α}
    (all : ∀ x ∈ front, p x = true) (none : ∀ x ∈ back, p x = false) :
    (front ++ (mid ++ back)).dropWhile p = mid.dropWhile p ++ back := by
  have keep : back.dropWhile p = back := by
    cases back with
    | nil => rfl
    | cons b rest => rw [dropWhile_cons, none b mem_cons_self]; rfl
  rw [dropWhile_append_of_pos all, dropWhile_append, keep]
  split
  next empty => rw [isEmpty_iff.mp empty, nil_append]
  · rfl

end Style9.Lib
