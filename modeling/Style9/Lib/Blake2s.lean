import Style9.Lib.Bytes

/-!
# BLAKE2s

The hash of RFC 7693: a compression function over blocks of 64 bytes, and the chain of its values
over the key and the message.
-/
namespace Style9.Lib.Blake2s

abbrev State := Vector UInt32 8

abbrev Work := Vector UInt32 16

/-- A step of a round: the words of the work vector it mixes, and the message words it mixes in. -/
abbrev Mix := (Fin 16 × Fin 16 × Fin 16 × Fin 16) × Nat × Nat

def iv : State :=
  #v[0x6A09E667, 0xBB67AE85, 0x3C6EF372, 0xA54FF53A,
    0x510E527F, 0x9B05688C, 0x1F83D9AB, 0x5BE0CD19]

/-- The message schedule, one number for each round: digit `i` in base 16 is entry `i` of its row.
-/
def sigma : List Nat :=
  [0xFEDCBA9876543210, 0x357B20C16DF984AE, 0x491763EADF250C8B, 0x8F04A562EBCD1397,
    0xD386CB1EFA427509, 0x91EF57D438B0A6C2, 0xB8293670A4DEF15C, 0xA2684F05931CE7BD,
    0x5A417D2C803B9EF6, 0x0DC3E9BF5167482A]

/-- Four steps: the columns for `k = 0`, the diagonals for `k = 1`. -/
def lines (k : Fin 16) : List (Fin 16 × Fin 16 × Fin 16 × Fin 16) :=
  [0, 1, 2, 3].map fun i => (i, 4 + (i + k) % 4, 8 + (i + 2 * k) % 4, 12 + (i + 3 * k) % 4)

def rounds : List Mix :=
  sigma.flatMap fun s => (lines 0 ++ lines 1).zipIdx.map fun (words, j) =>
    (words, s / 16 ^ (2 * j) % 16, s / 16 ^ (2 * j + 1) % 16)

def rotr (x : UInt32) (n : Nat) : UInt32 := ⟨x.toBitVec.rotateRight n⟩

/-- Half of the mixing function `G`. -/
def mixHalf (v : Work) (a b c d : Fin 16) (x : UInt32) (r r' : Nat) : Work :=
  let v := v.set a (v[a] + v[b] + x)
  let v := v.set d (rotr (v[d] ^^^ v[a]) r)
  let v := v.set c (v[c] + v[d])
  v.set b (rotr (v[b] ^^^ v[c]) r')

def mix (v : Work) (a b c d : Fin 16) (x y : UInt32) : Work :=
  mixHalf (mixHalf v a b c d x 16 12) a b c d y 8 7

def word (block : Bytes) (i : Nat) : UInt32 := .ofNat (rdLe 4 block (4 * i))

/-- The compression function `F`: `t` bytes have been hashed with this block. -/
def compress (h : State) (block : Bytes) (t : Nat) (last : Bool) : State :=
  let v : Work := h ++ iv
  let v := v.set 12 (v[12] ^^^ .ofNat t)
  let v := v.set 13 (v[13] ^^^ .ofNat (t / 2 ^ 32))
  let v := if last then v.set 14 (~~~v[14]) else v
  let v := rounds.foldl
    (fun v ⟨⟨a, b, c, d⟩, x, y⟩ => mix v a b c d (word block x) (word block y)) v
  .ofFn fun i => h[i] ^^^ v[i.castLE (by decide : 8 ≤ 16)] ^^^ v[i.natAdd 8]

/-- The state after the first `k` blocks. -/
def chain (h : State) (d : Bytes) : Nat → State
  | 0 => h
  | k + 1 => compress (chain h d k) ((d.drop (64 * k)).take 64) (64 * (k + 1)) false

def pad (block : Bytes) : Bytes := block ++ List.replicate (64 - block.length) 0

/-- A key is a block of its own. -/
def keyBlock (key : Bytes) : Bytes := if key = [] then [] else pad key

/-- The first `nn` bytes of a state. -/
def output (nn : Nat) (h : State) : Bytes :=
  (h.toList.flatMap fun w => leBytes 4 w.toNat).take nn

/-- The first word of the state has the parameters in it. -/
def start (kk nn : Nat) : State :=
  iv.set 0 (iv[0] ^^^ ((0x01010000 : UInt32) ^^^ UInt32.ofNat kk <<< 8 ^^^ .ofNat nn))

/-- The hash of `nn` bytes. -/
def digest (key msg : Bytes) (nn : Nat) : Bytes :=
  let d := keyBlock key ++ msg
  let dd := max 1 ((key.length + 63) / 64 + (msg.length + 63) / 64)
  let h := chain (start key.length nn) d (dd - 1)
  let t := if key = [] then msg.length else msg.length + 64
  output nn (compress h (pad (d.drop (64 * (dd - 1)))) t true)

/-- The hash of `abc` that the RFC gives. -/
example : digest [] [97, 98, 99] 32 =
    [0x50, 0x8C, 0x5E, 0x8C, 0x32, 0x7C, 0x14, 0xE2, 0xE1, 0xA7, 0x2B, 0xA3, 0x4E, 0xEB, 0x45, 0x2F,
      0x37, 0x45, 0x8B, 0x20, 0x9E, 0xD6, 0x3A, 0x29, 0x4D, 0x99, 0x9B, 0x4C, 0x86, 0x67, 0x59,
      0x82] := by
  decide +kernel

section
variable {n i : Nat} (v : Vector UInt32 n) (inside : i < n)
include inside

theorem setIfInBounds_of_lt (x : UInt32) : v.setIfInBounds i x = v.set i x := by
  simp [Vector.setIfInBounds, Array.setIfInBounds, Vector.set, inside]

theorem getD_of_lt : v.getD i 0 = v[i] := by
  simp [Vector.getD, inside]

end

theorem chain_append {h : State} {d e : Bytes} {k : Nat} (within : 64 * k ≤ d.length) :
    chain h (d ++ e) k = chain h d k := by
  induction k with
  | zero => rfl
  | succ k ih =>
    rw [chain, chain, ih (by omega), List.drop_append_of_le_length (by omega),
      List.take_append_of_le_length (by simp; omega)]

end Style9.Lib.Blake2s
