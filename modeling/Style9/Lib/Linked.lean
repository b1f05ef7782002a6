import Mathlib.Data.List.Induction

/-!
# Lists linked through a function

Each element gives the one after it. A path is what following the links from one place meets before
another; the lemmas say how paths join, what a link written outside a path leaves alone, and how an
element is bypassed.
-/
namespace Style9.Lib

open List Function

variable {α : Type*} {next next' : α → Option α} {a b c : Option α} {l m pre post : List α}
  {x y : α}

/-- Following `next` from `a` meets `l` and then is at `b`. -/
def Path (next : α → Option α) : Option α → List α → Option α → Prop
  | a, [], b => a = b
  | a, x :: l, b => a = some x ∧ Path next (next x) l b

namespace Path

theorem append (first : Path next a l b) (second : Path next b m c) : Path next a (l ++ m) c := by
  induction l generalizing a with
  | nil =>
    cases first
    exact second
  | cons x l ih => exact ⟨first.1, ih first.2⟩

theorem congr (path : Path next a l b) (same : ∀ x ∈ l, next' x = next x) : Path next' a l b := by
  induction l generalizing a with
  | nil => exact path
  | cons x l ih =>
    refine ⟨path.1, ?_⟩
    rw [same x mem_cons_self]
    exact ih path.2 fun y member => same y (mem_cons_of_mem x member)

theorem update [DecidableEq α] (path : Path next a l b) (outside : x ∉ l) (there : Option α) :
    Path (update next x there) a l b := by
  apply path.congr
  intro y member
  have other : y ≠ x := fun same => outside (same ▸ member)
  exact update_of_ne other there next

/-- What is met on the way to the end is determined. -/
theorem unique (path : Path next a l none) (other : Path next a m none) : l = m := by
  induction l generalizing a m with
  | nil =>
    cases m with
    | nil => rfl
    | cons y m => cases path.symm.trans other.1
  | cons x l ih =>
  cases m with
  | nil => cases path.1.symm.trans other
  | cons y m =>
    cases path.1.symm.trans other.1
    rw [ih path.2 other.2]

theorem redirect [DecidableEq α] (path : Path next a (l ++ [x]) b) (fresh : x ∉ l)
    (there : Option α) :
    Path (Function.update next x there) a (l ++ [x]) there := by
  induction l generalizing a with
  | nil => exact ⟨path.1, by simp [Path]⟩
  | cons y l ih =>
  simp only [mem_cons, not_or] at fresh
  refine ⟨path.1, ?_⟩
  rw [update_of_ne (Ne.symm fresh.1)]
  exact ih path.2 fresh.2

end Path

/-- The link before an element, at the head or in the element before it, set to what comes after. -/
def bypass [DecidableEq α] (next : α → Option α) (head there : Option α) :
    Option α → Option α × (α → Option α)
  | none => (there, next)
  | some y => (head, update next y there)

theorem Path.bypass [DecidableEq α] {head : Option α} (nodup : (pre ++ x :: post).Nodup)
    (before : Path next head pre (some x)) (after : Path next (next x) post b) :
    Path (bypass next head (next x) pre.getLast?).2 (bypass next head (next x) pre.getLast?).1
      (pre ++ post) b := by
  induction pre using reverseRecOn with
  | nil => exact after
  | append_singleton pre y _ =>
  rw [getLast?_concat]
  simp only [append_assoc, cons_append, nil_append, nodup_append, nodup_cons,
    mem_cons, not_or] at nodup
  obtain ⟨-, ⟨⟨-, outside⟩, -⟩, apart⟩ := nodup
  have fresh : y ∉ pre := fun member => apart y member y (.inl rfl) rfl
  exact (before.redirect fresh (next x)).append (after.update outside (next x))

end Style9.Lib
