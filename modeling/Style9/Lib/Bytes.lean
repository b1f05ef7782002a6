import Mathlib.Data.List.Basic
import Mathlib.Tactic.NormNum

/-!
# Little-endian byte strings

Fixed-width little-endian integers inside a byte string, read at an offset and written
as bytes.
-/
namespace Style9.Lib

abbrev Bytes := List UInt8

/-- The value of a byte string, least significant byte first. -/
def leNat : Bytes → Nat
  | [] => 0
  | b :: rest => b.toNat + 256 * leNat rest

/-- The `width` low bytes of a number, least significant first. -/
def leBytes : Nat → Nat → Bytes
  | 0, _ => []
  | width + 1, n => UInt8.ofNat n :: leBytes width (n / 256)

/-- Read a little-endian integer of `width` bytes at `off`. -/
def rdLe (width : Nat) (bytes : Bytes) (off : Nat) : Nat :=
  leNat ((bytes.drop off).take width)

@[simp] theorem length_leBytes (width n : Nat) : (leBytes width n).length = width := by
  induction width generalizing n with
  | zero => rfl
  | succ width ih => simp [leBytes, ih]

theorem leNat_leBytes (width n : Nat) : leNat (leBytes width n) = n % 256 ^ width := by
  induction width generalizing n with
  | zero => simp [leBytes, leNat, Nat.mod_one]
  | succ width ih =>
    have low : (UInt8.ofNat n).toNat = n % 256 := by simp
    rw [leBytes, leNat, ih, low, Nat.pow_succ', Nat.mod_mul]

theorem leNat_lt (bytes : Bytes) : leNat bytes < 256 ^ bytes.length := by
  induction bytes with
  | nil => simp [leNat]
  | cons x rest ih =>
    have byte := x.toNat_lt
    rw [leNat, List.length_cons, Nat.pow_succ]
    omega

theorem rdLe_lt (width : Nat) (b : Bytes) (off : Nat) : rdLe width b off < 256 ^ width :=
  lt_of_lt_of_le (leNat_lt _) (Nat.pow_le_pow_right (by decide) (List.length_take_le ..))

theorem leNat_injective {a b : Bytes} (len : a.length = b.length) (same : leNat a = leNat b) :
    a = b := by
  induction a generalizing b with
  | nil => exact (List.length_eq_zero_iff.mp len.symm).symm
  | cons x a ih =>
  cases b with
  | nil => cases len
  | cons y b => grind [leNat, UInt8.toNat_lt, UInt8.toNat_inj]

theorem leNat_take_leBytes {width n : Nat} {a : Bytes} (low : n < 256 ^ width) :
    leNat ((leBytes width n ++ a).take width) = n := by
  rw [List.take_left' (length_leBytes ..), leNat_leBytes, Nat.mod_eq_of_lt low]

end Style9.Lib
