import Style9.Lib.Bytes

/-!
# A memory of bytes

Numbers stored and loaded little-endian at an address, ranges filled with one byte, and what a store
or a fill leaves alone.
-/
namespace Style9.Lib

open List Nat

abbrev Ram : Type := Nat → UInt8

namespace Ram

variable (m : Ram)

/-- The number in `width` bytes at `a`. -/
def load (a width : Nat) : Nat := leNat ((range width).map fun i => m (a + i))

/-- The bytes at `a`. -/
def read (a width : Nat) : Bytes := (range width).map fun i => m (a + i)

/-- Bytes written at `a`. -/
def store (a : Nat) (bytes : Bytes) : Ram :=
  fun x => if a ≤ x then (bytes[x - a]?).getD (m x) else m x

/-- One byte written over a range. -/
def fill (lo hi : Nat) (b : UInt8) : Ram := fun x => if lo ≤ x ∧ x < hi then b else m x

/-- Whether a range holds nothing but this byte. -/
def filled (lo hi : Nat) (b : UInt8) : Bool := (range (hi - lo)).all fun i => m (lo + i) == b

variable {m m' : Ram} {a lo hi width v x : Nat} {b : UInt8} {bytes : Bytes}

theorem read_congr (same : ∀ x, a ≤ x → x < a + width → m' x = m x) :
    read m' a width = read m a width := by
  apply map_congr_left
  intro i member
  exact same (a + i) (Nat.le_add_right a i) (Nat.add_lt_add_left (mem_range.mp member) a)

theorem load_congr (same : ∀ x, a ≤ x → x < a + width → m' x = m x) :
    load m' a width = load m a width :=
  congrArg leNat (read_congr same)

theorem store_outside (outside : x < a ∨ a + bytes.length ≤ x) : store m a bytes x = m x := by
  unfold store
  split
  next after =>
    rw [getElem?_eq_none (by omega)]
    rfl
  · rfl

theorem store_inside {i : Nat} (inside : i < bytes.length) :
    store m a bytes (a + i) = bytes.get ⟨i, inside⟩ := by
  unfold store
  rw [if_pos (Nat.le_add_right a i), Nat.add_sub_cancel_left, getElem?_eq_getElem inside]
  rfl

theorem read_store : read (store m a bytes) a bytes.length = bytes := by
  unfold read
  apply ext_getElem
  · rw [length_map, length_range]
  · intro i inside inside'
    rw [getElem_map, getElem_range, store_inside inside']
    rfl

theorem load_store : load (store m a (leBytes width v)) a width = v % 256 ^ width := by
  have bytes := @read_store m a (leBytes width v)
  rw [length_leBytes] at bytes
  exact (congrArg leNat bytes).trans (leNat_leBytes width v)

theorem load_store_outside {c : Nat} (outside : a + width ≤ c ∨ c + bytes.length ≤ a) :
    load (store m c bytes) a width = load m a width := by
  apply load_congr
  intro x low high
  exact store_outside (by omega)

/-- A number in memory is its lower bytes and its upper bytes. -/
theorem load_add (j k : Nat) : load m a (j + k) = load m a j + 256 ^ j * load m (a + j) k := by
  induction j generalizing a with
  | zero => simp [load, leNat]
  | succ j ih =>
  have first : ∀ width, load m a (width + 1) = (m a).toNat + 256 * load m (a + 1) width := by
    intro width
    unfold load
    rw [range_succ_eq_map, map_cons, map_map, leNat, add_zero]
    simp only [Function.comp_def, succ_eq_add_one, add_right_comm a 1, add_assoc]
  have upper := ih (a := a + 1)
  rw [add_right_comm a 1 j] at upper
  rw [succ_add, first, upper, first, pow_succ', ← add_assoc a j 1, mul_add, mul_assoc, ← add_assoc]

theorem fill_outside (outside : x < lo ∨ hi ≤ x) : fill m lo hi b x = m x := by
  unfold fill
  rw [if_neg (by omega)]

theorem fill_inside (low : lo ≤ x) (high : x < hi) : fill m lo hi b x = b := by
  unfold fill
  rw [if_pos ⟨low, high⟩]

theorem load_fill_outside (outside : a + width ≤ lo ∨ hi ≤ a) :
    load (fill m lo hi b) a width = load m a width := by
  apply load_congr
  intro x low high
  exact fill_outside (by omega)

theorem filled_iff : filled m lo hi b = true ↔ ∀ x, lo ≤ x → x < hi → m x = b := by
  unfold filled
  rw [all_eq_true]
  constructor
  · intro all x low high
    have here := all (x - lo) (mem_range.mpr (by omega))
    rw [Nat.add_sub_cancel' low] at here
    exact beq_iff_eq.mp here
  intro all i member
  exact beq_iff_eq.mpr (all (lo + i) (le_add_right lo i) (by
    have below := mem_range.mp member
    omega))

end Ram

end Style9.Lib
