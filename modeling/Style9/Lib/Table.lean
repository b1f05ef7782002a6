import Mathlib.Data.List.AList
import Mathlib.Algebra.Order.Group.Multiset
import Mathlib.Tactic.Abel

/-!
# Finite tables and what they hold in all

A table of entries under keys, and the sum of a quantity over its entries. The lemmas say how
the sum moves when one entry is put in, replaced or taken out, which is how a count of holders
follows the operations on the tables that hold.
-/
namespace Style9.Lib

open List

abbrev Table (κ ν : Type) : Type := AList (fun _ : κ => ν)

namespace Table

variable {κ ν M : Type} [AddCommMonoid M] {f g : κ → ν → M}

def total (f : κ → ν → M) (t : Table κ ν) : M := (t.entries.map fun e => f e.1 e.2).sum

theorem count_total {α : Type} [DecidableEq α] (h : κ → ν → Multiset α) (t : Table κ ν) (a : α) :
    (total h t).count a = total (fun k v => (h k v).count a) t := by
  have one : ∀ es : List (Sigma fun _ : κ => ν),
      ((es.map fun e => h e.1 e.2).sum).count a = (es.map fun e => (h e.1 e.2).count a).sum := by
    intro es
    induction es with
    | nil => exact Multiset.count_zero a
    | cons e rest ih => rw [map_cons, sum_cons, Multiset.count_add, ih, map_cons, sum_cons]
  exact one t.entries

variable [DecidableEq κ] {t : Table κ ν} {k : κ} {v old : ν}

theorem lookup_of_mem_entries {e : Sigma fun _ : κ => ν} (member : e ∈ t.entries) :
    t.lookup e.1 = some e.2 := AList.mem_lookup_iff.mpr member

theorem total_erase_add (present : t.lookup k = some old) :
    total f (t.erase k) + f k old = total f t := by
  have keyed := AList.mem_keys.mp (AList.lookup_isSome.mp (by rw [present]; rfl))
  obtain ⟨v, front, back, -, split, rest⟩ := exists_of_kerase keyed
  have here :=
    lookup_of_mem_entries (e := ⟨k, v⟩) (by rw [split]; simp)
  cases present.symm.trans here
  change (map _ (kerase k t.entries)).sum + _ = (map _ t.entries).sum
  rw [rest, split]
  simp only [map_append, map_cons, sum_append, sum_cons]
  abel

theorem total_insert (t : Table κ ν) (k : κ) (v : ν) :
    total f (t.insert k v) = f k v + total f (t.erase k) := by
  change (map _ (kinsert k v t.entries)).sum = _
  rw [kinsert_def, map_cons, sum_cons]
  rfl

theorem total_insert_of_none (absent : t.lookup k = none) :
    total f (t.insert k v) = f k v + total f t := by
  have fresh := AList.lookup_eq_none.mp absent
  change (map _ (t.insert k v).entries).sum = _
  rw [AList.entries_insert_of_notMem fresh, map_cons, sum_cons]
  rfl

theorem total_erase_of_none (absent : t.lookup k = none) : total f (t.erase k) = total f t := by
  have fresh : k ∉ t.entries.keys :=
    fun member => AList.lookup_eq_none.mp absent (AList.mem_keys.mpr member)
  change (map _ (kerase k t.entries)).sum = _
  rw [kerase_of_notMem_keys fresh]
  rfl

theorem total_insert_add (present : t.lookup k = some old) :
    total f (t.insert k v) + f k old = f k v + total f t := by
  rw [total_insert, add_assoc, total_erase_add present]

theorem total_of_absent (absent : ∀ k, t.lookup k = none) : total f t = 0 := by
  have none := eq_nil_iff_forall_not_mem.mpr fun e member =>
    nomatch (lookup_of_mem_entries member).symm.trans (absent e.1)
  unfold total
  rw [none]
  rfl

theorem exists_of_mem_total {α : Type} {h : κ → ν → Multiset α} {a : α} (member : a ∈ total h t) :
    ∃ k v, t.lookup k = some v ∧ a ∈ h k v := by
  have one : ∀ es : List (Sigma fun _ : κ => ν), a ∈ (es.map fun e => h e.1 e.2).sum →
      ∃ e ∈ es, a ∈ h e.1 e.2 := by
    intro es
    induction es with
    | nil => exact fun none => nomatch none
    | cons e rest ih =>
    intro among
    rw [map_cons, sum_cons, Multiset.mem_add] at among
    rcases among with here | later
    · exact ⟨e, by simp, here⟩
    · obtain ⟨x, inside, found⟩ := ih later
      exact ⟨x, by simp [inside], found⟩
  obtain ⟨e, inside, found⟩ := one t.entries member
  exact ⟨e.1, e.2, lookup_of_mem_entries inside, found⟩

theorem total_congr (same : ∀ k v, t.lookup k = some v → f k v = g k v) :
    total f t = total g t := by
  exact congrArg sum (map_congr_left fun e member => same e.1 e.2 (lookup_of_mem_entries member))

end Table

end Style9.Lib
