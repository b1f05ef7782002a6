import Style9.Lib.Blake2s

/-!
# Streaming BLAKE2s

`blake2s_update` fills a buffer of one block and compresses it only when more bytes follow, so that
the last block is still there for `blake2s_final`. The key is a first block; the bytes hashed are
counted in two words.
-/
namespace Style9.Kern.Random

open Style9.Lib Style9.Lib.Blake2s List

def blake2sIv : State :=
  .ofFn fun i => [0x6A09E667, 0xBB67AE85, 0x3C6EF372, 0xA54FF53A,
    0x510E527F, 0x9B05688C, 0x1F83D9AB, 0x5BE0CD19].getD i 0

def blake2sSigma : List (List Nat) :=
  [[0, 1, 2, 3, 4, 5, 6, 7, 8, 9, 10, 11, 12, 13, 14, 15],
    [14, 10, 4, 8, 9, 15, 13, 6, 1, 12, 0, 2, 11, 7, 5, 3],
    [11, 8, 12, 0, 5, 2, 15, 13, 10, 14, 3, 6, 7, 1, 9, 4],
    [7, 9, 3, 1, 13, 12, 11, 14, 2, 6, 5, 10, 4, 0, 15, 8],
    [9, 0, 5, 7, 2, 4, 10, 15, 14, 1, 11, 12, 6, 8, 3, 13],
    [2, 12, 6, 10, 0, 11, 8, 3, 4, 13, 7, 5, 15, 14, 1, 9],
    [12, 5, 1, 15, 14, 13, 4, 10, 0, 7, 6, 3, 9, 2, 8, 11],
    [13, 11, 7, 14, 12, 1, 3, 9, 5, 0, 15, 4, 8, 6, 2, 10],
    [6, 15, 14, 9, 11, 3, 0, 8, 12, 2, 13, 7, 1, 4, 10, 5],
    [10, 2, 8, 4, 7, 6, 1, 5, 15, 11, 9, 14, 3, 12, 13, 0]]

def ror32 (v n : UInt32) : UInt32 := v >>> n ||| v <<< (32 - n)

def le32 (p : Bytes) (off : Nat) : UInt32 := .ofNat (rdLe 4 p off)

/-- The macro `B2S_G`. -/
def b2sG (v : Work) (a b c d : Nat) (x y : UInt32) : Work :=
  let v := v.setIfInBounds a (v.getD a 0 + v.getD b 0 + x)
  let v := v.setIfInBounds d (ror32 (v.getD d 0 ^^^ v.getD a 0) 16)
  let v := v.setIfInBounds c (v.getD c 0 + v.getD d 0)
  let v := v.setIfInBounds b (ror32 (v.getD b 0 ^^^ v.getD c 0) 12)
  let v := v.setIfInBounds a (v.getD a 0 + v.getD b 0 + y)
  let v := v.setIfInBounds d (ror32 (v.getD d 0 ^^^ v.getD a 0) 8)
  let v := v.setIfInBounds c (v.getD c 0 + v.getD d 0)
  v.setIfInBounds b (ror32 (v.getD b 0 ^^^ v.getD c 0) 7)

/-- The calls of `B2S_G` in the ten rounds, with the indices of the message words. -/
def b2sCalls : List ((Nat × Nat × Nat × Nat) × Nat × Nat) :=
  blake2sSigma.flatMap fun g =>
    [(0, 4, 8, 12), (1, 5, 9, 13), (2, 6, 10, 14), (3, 7, 11, 15),
      (0, 5, 10, 15), (1, 6, 11, 12), (2, 7, 8, 13), (3, 4, 9, 14)].zipIdx.map fun (words, j) =>
        (words, g.getD (2 * j) 0, g.getD (2 * j + 1) 0)

/-- The bytes waiting are the first `b_len` of `b_buf`. -/
structure Blake2s where
  bH : State
  bT : UInt32 × UInt32
  bBuf : Bytes
  bOutlen : Nat
  room : bBuf.length ≤ 64

def blake2sCompress (s : Blake2s) (block : Bytes) (last : Bool) : State :=
  let m i := le32 block (4 * i)
  let v : Work := s.bH ++ blake2sIv
  let v := v.setIfInBounds 12 (v.getD 12 0 ^^^ s.bT.1)
  let v := v.setIfInBounds 13 (v.getD 13 0 ^^^ s.bT.2)
  let v := if last then v.setIfInBounds 14 (~~~v.getD 14 0) else v
  let v := b2sCalls.foldl (fun v ⟨⟨a, b, c, d⟩, x, y⟩ => b2sG v a b c d (m x) (m y)) v
  .ofFn fun i => s.bH.get i ^^^ (v.getD i 0 ^^^ v.getD (i + 8) 0)

def blake2sCount (s : Blake2s) (n : UInt32) : Blake2s :=
  let low := s.bT.1 + n
  { s with bT := (low, if low < n then s.bT.2 + 1 else s.bT.2) }

/-- The buffer is all zeros before the key is copied to its front. -/
def blake2sInit (outlen : Nat) (key : Bytes) : Blake2s where
  bH := blake2sIv.setIfInBounds 0 (blake2sIv.getD 0 0 ^^^
    ((0x01010000 : UInt32) ^^^ UInt32.ofNat key.length <<< 8 ^^^ .ofNat outlen))
  bT := (0, 0)
  bBuf := if key.length ≠ 0 then key.take 64 ++ replicate (64 - key.length) 0 else []
  bOutlen := outlen
  room := by grind

/-- The start of a pass of the loop: a full buffer is compressed, since bytes follow. -/
def blake2sFlush (s : Blake2s) : Blake2s :=
  if s.bBuf.length = 64 then
    let s := blake2sCount s 64
    { s with bH := blake2sCompress s s.bBuf false, bBuf := [], room := by simp }
  else s

theorem blake2sFlush_room (s : Blake2s) : (blake2sFlush s).bBuf.length < 64 := by
  unfold blake2sFlush
  split
  · simp
  next part => exact lt_of_le_of_ne s.room part

def blake2sUpdate (s : Blake2s) (p : Bytes) : Blake2s :=
  if p = [] then s
  else
    let f := blake2sFlush s
    let take := 64 - f.bBuf.length
    blake2sUpdate { f with bBuf := f.bBuf ++ p.take take, room := by have := f.room; grind }
      (p.drop take)
termination_by p.length
decreasing_by grind [blake2sFlush_room s, length_eq_zero_iff]

def blake2sFinal (s : Blake2s) : Bytes :=
  let t := blake2sCount s (.ofNat s.bBuf.length)
  output s.bOutlen (blake2sCompress t (s.bBuf ++ replicate (64 - s.bBuf.length) 0) true)

variable {s : Blake2s} {d p key : Bytes} {h : State} {k t nn : Nat}

/-- The two words of `t` bytes hashed. -/
def halves (t : Nat) : UInt32 × UInt32 := (.ofNat t, .ofNat (t / 2 ^ 32))

theorem blake2sIv_eq : blake2sIv = iv := rfl

theorem b2sCalls_eq :
    b2sCalls = rounds.map fun ((a, b, c, d), x, y) => ((↑a, ↑b, ↑c, ↑d), x, y) := by
  decide

theorem b2sG_eq (v : Work) (a b c d : Fin 16) (x y : UInt32) :
    b2sG v a b c d x y = mix v a b c d x y := by
  simp only [b2sG, setIfInBounds_of_lt, getD_of_lt, Fin.is_lt]
  rfl

theorem blake2sCompress_eq (counted : s.bT = halves t) (block : Bytes) (last : Bool) :
    blake2sCompress s block last = compress s.bH block t last := by
  have low (v : Work) (i : Fin 8) : v.getD i 0 = v[i.castLE (by decide : 8 ≤ 16)] :=
    getD_of_lt v (by omega)
  have high (v : Work) (i : Fin 8) : v.getD (i + 8) 0 = v[i.natAdd 8] := by
    rw [Nat.add_comm]
    exact getD_of_lt v (by omega)
  unfold blake2sCompress compress
  simp only [counted, blake2sIv_eq, b2sCalls_eq, foldl_map, b2sG_eq, low, high,
    setIfInBounds_of_lt, getD_of_lt, UInt32.xor_assoc, Nat.reduceLT]
  rfl

theorem blake2sCount_eq (counted : s.bT = halves t) {n : Nat} (small : n ≤ 64) :
    (blake2sCount s (.ofNat n)).bT = halves (t + n) := by
  have carry : (t + n) / 2 ^ 32 = t / 2 ^ 32 + if (t + n) % 2 ^ 32 < n then 1 else 0 := by
    split <;> omega
  have fits : n % 2 ^ 32 = n := by omega
  simp only [blake2sCount, counted, halves, carry, UInt32.lt_iff_toNat_lt, ← UInt32.ofNat_add,
    UInt32.toNat_ofNat', fits]
  split <;> simp

/-- The bytes `d` have been taken in: the buffer holds what follows the blocks that were
compressed. -/
def Absorbed (h : State) (nn : Nat) (d : Bytes) (s : Blake2s) : Prop :=
  s.bOutlen = nn ∧ ∃ k, s.bH = chain h d k ∧ s.bT = halves (64 * k) ∧
    s.bBuf = d.drop (64 * k) ∧ 64 * k ≤ d.length

/-- Between the calls the last of them are in the buffer. -/
def Held (h : State) (nn : Nat) (d : Bytes) (s : Blake2s) : Prop :=
  Absorbed h nn d s ∧ (d = [] ∨ s.bBuf ≠ [])

theorem blake2sFlush_absorbed (absorbed : Absorbed h nn d s) :
    Absorbed h nn d (blake2sFlush s) := by
  unfold blake2sFlush
  split
  next full =>
    obtain ⟨out, k, chained, counted, buffer, within⟩ := absorbed
    have length : d.length - 64 * k = 64 := by rw [← length_drop, ← buffer, full]
    have counted' := blake2sCount_eq counted (n := 64) le_rfl
    refine ⟨out, k + 1, ?_, counted', (drop_of_length_le (by omega)).symm, by omega⟩
    rw [chain, ← buffer, take_of_length_le full.le, ← chained]
    exact blake2sCompress_eq counted' ..
  · exact absorbed

theorem blake2sUpdate_held (held : Held h nn d s) : Held h nn (d ++ p) (blake2sUpdate s p) := by
  fun_induction blake2sUpdate s p generalizing d with
  | case1 s => rwa [append_nil]
  | case2 s p more flushed n =>
  rename_i ih
  obtain ⟨out, k, chained, counted, buffer, within⟩ := blake2sFlush_absorbed held.1
  have whole : d ++ p = d ++ p.take n ++ p.drop n := by simp
  rw [whole]
  refine ih ⟨⟨out, k, chained.trans (chain_append within).symm, counted, ?_, by simp; omega⟩,
    .inr fun empty => ?_⟩
  · rw [drop_append_of_le_length within]
    exact congrArg (· ++ _) buffer
  -- there was room for the first of the bytes
  · rcases take_eq_nil_iff.mp (append_eq_nil_iff.mp empty).2 with none | none
    · exact Nat.sub_ne_zero_of_lt (blake2sFlush_room s) none
    · exact more none

theorem foldl_held (pieces : List Bytes) (held : Held h nn d s) :
    Held h nn (d ++ pieces.flatten) (pieces.foldl blake2sUpdate s) := by
  induction pieces generalizing d s with
  | nil => simpa using held
  | cons p pieces ih => simpa using ih (blake2sUpdate_held (p := p) held)

theorem blake2sFinal_eq (held : Held h nn d s) (blocks : (d.length - 1) / 64 = k) :
    blake2sFinal s = output nn (compress (chain h d k) (pad (d.drop (64 * k))) d.length true) := by
  obtain ⟨⟨rfl, j, chained, counted, rest, within⟩, pending⟩ := held
  have length : s.bBuf.length = d.length - 64 * j := by rw [rest, length_drop]
  have room := s.room
  obtain rfl : j = k := by
    rcases pending with rfl | pending
    · rw [length_nil] at within blocks
      omega
    · have := length_pos_iff.mpr pending
      omega
  have last := blake2sCount_eq counted room
  rw [length, Nat.add_sub_cancel' within, ← length] at last
  rw [← rest, ← chained]
  exact congrArg (output s.bOutlen) (blake2sCompress_eq last ..)

/-- Streaming BLAKE2s is BLAKE2s, whatever the cuts. -/
theorem streaming_is_blake2s (key : Bytes) (pieces : List Bytes) (nn : Nat)
    (short : key.length ≤ 32) :
    blake2sFinal (pieces.foldl blake2sUpdate (blake2sInit nn key)) =
      digest key pieces.flatten nn := by
  have buffer : (blake2sInit nn key).bBuf = keyBlock key := by
    have whole : key.take 64 = key := take_of_length_le (by omega)
    simp [blake2sInit, keyBlock, pad, whole]
  have start : Held (blake2sInit nn key).bH nn (keyBlock key) (blake2sInit nn key) :=
    ⟨⟨rfl, 0, rfl, rfl, buffer, Nat.zero_le _⟩, by rw [buffer]; exact em _⟩
  have total : (keyBlock key ++ pieces.flatten).length =
      if key = [] then pieces.flatten.length else pieces.flatten.length + 64 := by
    grind [keyBlock, pad]
  rw [blake2sFinal_eq (foldl_held pieces start) rfl, digest, ← total]
  have blocks : max 1 ((key.length + 63) / 64 + (pieces.flatten.length + 63) / 64) - 1 =
      ((keyBlock key ++ pieces.flatten).length - 1) / 64 := by
    rw [total]
    cases key <;> simp at short ⊢ <;> omega
  rw [blocks]
  rfl

/-- A key and 150 bytes in three pieces, one of them empty and one of more than a block. -/
theorem streaming_is_blake2s_pieces :
    blake2sFinal ([replicate 100 7, [], replicate 50 9].foldl blake2sUpdate
      (blake2sInit 20 [1, 2, 3])) = digest [1, 2, 3] (replicate 100 7 ++ replicate 50 9) 20 :=
  streaming_is_blake2s [1, 2, 3] [replicate 100 7, [], replicate 50 9] 20 (by decide)

end Style9.Kern.Random
