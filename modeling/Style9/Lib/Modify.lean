import Mathlib.Algebra.BigOperators.Group.List.Basic
import Mathlib.Algebra.GroupWithZero.Nat

/-!
# Lists edited at one place

What `List.modify` does to a sum over the list and to a lookup by a key that the edit keeps.
-/
namespace Style9.Lib

open List Option

variable {α : Type} {l : List α} {i : Nat} {a : α}

theorem getD_of_getElem? [Inhabited α] (found : l[i]? = some a) : l.getD i default = a := by
  rw [getD_eq_getElem?_getD, found, getD_some]

theorem modify_congr (found : l[i]? = some a) {f g : α → α} (same : f a = g a) :
    l.modify i f = l.modify i g := by
  refine ext_getElem? fun k => ?_
  rw [getElem?_modify, getElem?_modify]
  by_cases here : i = k
  · subst here
    rw [found]
    simp [same]
  · simp [here]

theorem map_modify_of_same {β : Type} (f : α → α) (g : α → β) (same : ∀ a, g (f a) = g a)
    (l : List α)
    (i : Nat) : (l.modify i f).map g = l.map g := by
  refine ext_getElem? fun k => ?_
  rw [getElem?_map, getElem?_map, getElem?_modify]
  split <;> cases l[k]? <;> simp [same]

theorem modify_perm (f : α → α) (found : l[i]? = some a) : (a :: l.modify i f).Perm (f a :: l) := by
  induction l generalizing i with
  | nil => simp at found
  | cons x rest ih =>
  cases i with
  | zero =>
    simp only [getElem?_cons_zero, some.injEq] at found
    subst found
    exact List.Perm.swap _ _ _
  | succ i =>
    have tail := ih (i := i) (by simpa using found)
    exact (List.Perm.swap _ _ _).trans ((tail.cons x).trans (List.Perm.swap _ _ _))

theorem sum_map_modify (f : α → α) (g : α → Nat) (l : List α) (i : Nat) (a : α)
    (found : l[i]? = some a) :
    ((l.modify i f).map g).sum + g a = (l.map g).sum + g (f a) := by
  induction l generalizing i with
  | nil => simp at found
  | cons x rest ih =>
  cases i with
  | zero =>
    simp only [getElem?_cons_zero, some.injEq] at found
    subst found
    simp only [modify_zero_cons, map_cons, sum_cons]
    omega
  | succ i =>
    have tail := ih i (by simpa using found)
    simp only [modify_succ_cons, map_cons, sum_cons]
    omega

/-- Looking an element up by a key that is unique in the list, after one element was edited. -/
theorem find?_modify (key : α → Nat) (f : α → α) (same : ∀ a, key (f a) = key a)
    (l : List α) (distinct : (l.map key).Nodup) (c : Nat) (a : α) (found : l[c]? = some a)
    (i : Nat) :
    (l.modify c f).find? (key · == i) = if key a = i then some (f a) else l.find? (key · == i) := by
  induction l generalizing c with
  | nil => simp at found
  | cons x rest ih =>
  rw [map_cons, nodup_cons] at distinct
  obtain ⟨fresh, distinct⟩ := distinct
  cases c with
  | zero =>
    simp only [getElem?_cons_zero, some.injEq] at found
    subst found
    by_cases here : key x = i
    · simp [same, here]
    · simp [same, here]
  | succ c =>
  have tail := ih distinct c (by simpa using found)
  have member : key a ∈ rest.map key :=
    mem_map_of_mem (mem_of_getElem? (by simpa using found))
  simp only [modify_succ_cons, find?_cons, tail]
  by_cases here : key x = i
  · have other : key a ≠ i := by
      intro h
      rw [here, ← h] at fresh
      exact fresh member
    simp [here, other]
  · rw [beq_eq_false_iff_ne.mpr here]

end Style9.Lib
