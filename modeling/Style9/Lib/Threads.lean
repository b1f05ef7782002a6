import Mathlib.Algebra.BigOperators.Pi
import Mathlib.Algebra.Order.BigOperators.Group.Finset
import Style9.Lib.Runs

/-!
# Threads over a shared state

Each thread has a local state and takes its own steps, one at a time and in any order. A run is
followed with a proof outline: what holds of the shared state together with all that the threads
hold, what a thread relies on, and how the local states of two threads exclude each other. A step
has to keep the first two for the thread that takes it, and must not disturb the others.
-/
namespace Style9.Lib

open Finset Nat Function

structure Threads (n : Nat) (σ π : Type*) where
  shared : σ
  pc : Fin n → π

namespace Threads

variable {n : Nat} {σ π M : Type*} [AddCommMonoid M] {step : σ → π → Option (σ × π)}
  {s s' : Threads n σ π}
  {i : Fin n}

def next (step : σ → π → Option (σ × π)) (s : Threads n σ π) (i : Fin n) : Option (Threads n σ π) :=
  (step s.shared (s.pc i)).map fun r => ⟨r.1, update s.pc i r.2⟩

theorem next_eq_some_iff : next step s i = some s' ↔
    ∃ p, step s.shared (s.pc i) = some (s'.shared, p) ∧ s'.pc = update s.pc i p := by
  unfold next
  rw [Option.map_eq_some_iff]
  constructor
  · rintro ⟨⟨m, p⟩, taken, rfl⟩
    exact ⟨p, taken, rfl⟩
  · rintro ⟨p, taken, moved⟩
    refine ⟨(s'.shared, p), taken, ?_⟩
    rw [← moved]

def total (measure : π → M) (s : Threads n σ π) : M := ∑ i, measure (s.pc i)

def rest (measure : π → M) (s : Threads n σ π) (i : Fin n) : M :=
  ∑ j ∈ univ.erase i, measure (s.pc j)

theorem total_eq (measure : π → M) (s : Threads n σ π) (i : Fin n) :
    s.total measure = measure (s.pc i) + s.rest measure i :=
  (add_sum_erase univ (fun j => measure (s.pc j)) (mem_univ i)).symm

theorem total_update {p : π} (measure : π → M) (moved : s'.pc = update s.pc i p) :
    s'.total measure = measure p + s.rest measure i := by
  rw [total_eq measure s' i, moved, update_self]
  congr 1
  refine sum_congr rfl fun j other => ?_
  rw [moved, update_of_ne (ne_of_mem_erase other)]

section Tally

variable {κ : Type*} {measure : π → κ → Nat} {k : κ} {j : Fin n}

theorem le_rest (s : Threads n σ π) (other : j ≠ i) (k : κ) :
    measure (s.pc j) k ≤ s.rest measure i k := by
  unfold rest
  rw [Finset.sum_apply]
  exact single_le_sum (f := fun j => measure (s.pc j) k) (fun _ _ => zero_le _)
    (mem_erase.mpr ⟨other, mem_univ j⟩)

theorem exists_of_rest (some : 0 < s.rest measure i k) : ∃ j ≠ i, 0 < measure (s.pc j) k := by
  unfold rest at some
  rw [Finset.sum_apply] at some
  obtain ⟨j, inside, holds⟩ := exists_ne_zero_of_sum_ne_zero (ne_of_gt some)
  exact ⟨j, ne_of_mem_erase inside, pos_of_ne_zero holds⟩

theorem exists_of_total (some : 0 < s.total measure k) : ∃ j, 0 < measure (s.pc j) k := by
  unfold total at some
  rw [Finset.sum_apply] at some
  obtain ⟨j, -, holds⟩ := exists_ne_zero_of_sum_ne_zero (ne_of_gt some)
  exact ⟨j, pos_of_ne_zero holds⟩

end Tally

/-- A proof outline holds of a state. -/
structure Sound (world : σ → M → Prop) (measure : π → M) (own : σ → π → Prop) (apart : π → π → Prop)
    (s : Threads n σ π) : Prop where
  world : world s.shared (s.total measure)
  own : ∀ i, own s.shared (s.pc i)
  apart : ∀ i j, i ≠ j → apart (s.pc i) (s.pc j)

variable {world : σ → M → Prop} {measure : π → M} {own : σ → π → Prop} {apart : π → π → Prop}

/-- A step that keeps the outline for its own thread and disturbs no other keeps it. The outline may
be stated with auxiliary values that the step changes. -/
theorem Sound.kept {world' : σ → M → Prop} {own' : σ → π → Prop}
    (sound : Sound world measure own apart s)
    (taken : next step s i = some s') (self : ∀ m p, step s.shared (s.pc i) = some (m, p) →
      world s.shared (measure (s.pc i) + s.rest measure i) → own s.shared (s.pc i) →
      world' m (measure p + s.rest measure i) ∧ own' m p)
    (others : ∀ m p j, j ≠ i → step s.shared (s.pc i) = some (m, p) → own s.shared (s.pc j) →
      apart (s.pc i) (s.pc j) → apart (s.pc j) (s.pc i) →
      own' m (s.pc j) ∧ apart p (s.pc j) ∧ apart (s.pc j) p) :
    Sound world' measure own' apart s' := by
  obtain ⟨p, taken, moved⟩ := next_eq_some_iff.mp taken
  have before := sound.world
  rw [total_eq measure s i] at before
  obtain ⟨kept, mine⟩ := self _ p taken before (sound.own i)
  have other : ∀ j ≠ i, own' s'.shared (s.pc j) ∧ apart p (s.pc j) ∧ apart (s.pc j) p := fun j ne =>
    others _ p j ne taken (sound.own j) (sound.apart i j (Ne.symm ne)) (sound.apart j i ne)
  have here : s'.pc i = p := by rw [moved, update_self]
  have there : ∀ j ≠ i, s'.pc j = s.pc j := fun j ne => by rw [moved, update_of_ne ne]
  refine ⟨?_, fun j => ?_, fun j k ne => ?_⟩
  · rwa [total_update measure moved]
  · by_cases same : j = i
    · rw [same, here]
      exact mine
    · rw [there j same]
      exact (other j same).1
  -- only a pair with the thread that moved is new
  by_cases first : j = i
  · have second : k ≠ i := fun same => ne (first.trans same.symm)
    rw [first, here, there k second]
    exact (other k second).2.1
  rw [there j first]
  by_cases second : k = i
  · rw [second, here]
    exact (other j first).2.2
  · rw [there k second]
    exact sound.apart j k ne

end Threads

end Style9.Lib
