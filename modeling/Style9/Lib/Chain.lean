import Mathlib.Data.List.Nodup

/-!
# A list threaded through a table

The table gives each slot the one after it. A chain is what following it from a head meets
before the value that ends it; the lemmas say what becomes of the chain when a slot outside it
changes and when a slot is hung on its tail.
-/
namespace Style9.Lib

open List

variable {next : List Nat} {stop head new tail : Nat} {slots : List Nat}

/-- Following `next` from `head` meets `slots`, and then `stop`. -/
def Chain (next : List Nat) (stop : Nat) : Nat → List Nat → Prop
  | head, [] => head = stop
  | head, slot :: rest =>
    head = slot ∧ ∃ after, next[slot]? = some after ∧ Chain next stop after rest

theorem Chain.congr {next' : List Nat} (chain : Chain next stop head slots)
    (same : ∀ slot ∈ slots, next'[slot]? = next[slot]?) : Chain next' stop head slots := by
  induction slots generalizing head with
  | nil => exact chain
  | cons slot rest ih =>
    obtain ⟨here, after, link, rest'⟩ := chain
    refine ⟨here, after, ?_, ih rest' fun s member => same s (mem_cons_of_mem _ member)⟩
    rw [same slot mem_cons_self, link]

theorem Chain.set (chain : Chain next stop head slots) {slot : Nat} (outside : slot ∉ slots)
    (value : Nat) :
    Chain (next.set slot value) stop head slots := by
  refine chain.congr fun s member => getElem?_set_ne ?_
  rintro rfl
  exact outside member

theorem Chain.hang (chain : Chain next stop head slots) (nodup : slots.Nodup)
    (last : slots.getLast? = some tail)
    (fresh : new ∉ slots) (bound : new < next.length) :
    Chain ((next.set tail new).set new stop) stop head (slots ++ [new]) := by
  induction slots generalizing head with
  | nil => cases last
  | cons slot rest ih =>
  obtain ⟨here, after, link, rest'⟩ := chain
  have apart : new ≠ slot := fun same => fresh (same ▸ List.mem_cons_self)
  have inside := (List.getElem?_eq_some_iff.mp link).1
  cases rest with
  | nil =>
    -- the only slot is the tail
    obtain rfl : slot = tail := by simpa using last
    refine ⟨here, new, ?_, rfl, stop, ?_, rfl⟩
    · rw [getElem?_set_ne apart, getElem?_set_self inside]
    · exact getElem?_set_self (by rw [length_set]; exact bound)
  | cons slot' rest =>
  have away : tail ≠ slot := by
    rintro rfl
    exact (nodup_cons.mp nodup).1 (mem_of_getLast? last)
  refine ⟨here, after, ?_, ih rest' (nodup_cons.mp nodup).2 last fun member =>
    fresh (mem_cons_of_mem _ member)⟩
  rw [getElem?_set_ne apart, getElem?_set_ne away, link]

end Style9.Lib
