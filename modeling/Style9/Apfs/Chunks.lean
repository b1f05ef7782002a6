import Style9.Apfs.Space
import Style9.Lib.Modify

/-!
# The allocation bitmaps and their counts

Which blocks are in use is said by the bitmap of each chunk: the resident copy where there is
one, the block on disk otherwise. `ChunksOk` is the agreement of those bitmaps with the
chunk-info block's and the space manager's counters. Bringing a chunk into memory changes
none of it, and moving a run between free and used moves the counters with the bits.
-/
namespace Style9.Apfs

open Style9.Lib List Option

/-! ### Which blocks are in use -/

def Kern.infos (s : Kern) : List ChunkInfo := s.gCib.cibChunkInfo

/-- The resident bitmap of the chunk in slot `i`. -/
def Kern.heldBits (s : Kern) (i : Nat) : Option Bitmap :=
  (s.gChunk.find? (·.chSlot == i)).map AllocChunk.chBm

/-- The bitmap a chunk-info entry names; a wholly free chunk has none. -/
def ChunkInfo.diskBits (ci : ChunkInfo) (disk : Nat → Block) : Bitmap :=
  if ci.ciBitmapAddr = 0 then fun _ => false else (disk ci.ciBitmapAddr).asBits

def Kern.chunkBits (s : Kern) (i : Nat) (ci : ChunkInfo) : Bitmap :=
  (s.heldBits i).getD (ci.diskBits s.dev.disk)

/-- Block `b` is marked in use. -/
def Kern.Used (s : Kern) (b : Nat) : Prop :=
  ∃ i ci, s.infos[i]? = some ci ∧ ci.covers b = true ∧ s.chunkBits i ci (b - ci.ciAddr) = true

/-- The bitmaps and the counters agree. -/
structure ChunksOk (s : Kern) : Prop where
  apart : ∀ (i j : Nat) (ci cj : ChunkInfo) (b : Nat), s.infos[i]? = some ci →
    s.infos[j]? = some cj →
    ci.covers b = true → cj.covers b = true → i = j
  held : ∀ ch ∈ s.gChunk, ∃ ci, s.infos[ch.chSlot]? = some ci ∧ ch.chBase = ci.ciAddr ∧
    ch.chBlocks = ci.ciBlockCount ∧ ch.chBitmap = ci.ciBitmapAddr
  slots : (s.gChunk.map AllocChunk.chSlot).Nodup
  counted : ∀ (i : Nat) (ci : ChunkInfo), s.infos[i]? = some ci →
    ci.ciFreeCount = clearCount (s.chunkBits i ci) ci.ciBlockCount
  total : s.gSm.smFreeCount = (s.infos.map ChunkInfo.ciFreeCount).sum
  mirror : s.gApfs.acSmFree = s.gSm.smFreeCount
  home : ∀ c, s.gHome = some c → c < s.gChunk.length
  placed : ∀ ch ∈ s.gChunk, ch.chBitmap ≠ 0
  clean : ∀ ch ∈ s.gChunk, ch.chDirty = false → (s.dev.disk ch.chBitmap).asBits = ch.chBm

theorem covers_iff {ci : ChunkInfo} {b : Nat} :
    ci.covers b = true ↔ ci.ciAddr ≤ b ∧ b < ci.ciAddr + ci.ciBlockCount := by
  simp [ChunkInfo.covers]

theorem AllocChunk.covers_iff {ch : AllocChunk} {b : Nat} :
    ch.covers b = true ↔ ch.chBase ≤ b ∧ b < ch.chBase + ch.chBlocks := by
  simp [AllocChunk.covers]

section
variable {s : Kern} {c b : Nat} {ch : AllocChunk}

theorem ChunksOk.heldBits_eq (ok : ChunksOk s) (found : s.gChunk[c]? = some ch) :
    s.heldBits ch.chSlot = some ch.chBm := by
  have first : s.gChunk.find? (·.chSlot == ch.chSlot) = some ch := by
    have edited := find?_modify AllocChunk.chSlot id (fun _ => rfl) s.gChunk ok.slots c ch found
      ch.chSlot
    simpa [modify_id] using edited
  rw [Kern.heldBits, first, map_some]

theorem ChunksOk.used_iff (ok : ChunksOk s) (found : s.gChunk[c]? = some ch)
    (inside : ch.covers b = true) : s.Used b ↔ ch.chBm (b - ch.chBase) = true := by
  obtain ⟨ci, info, base, blocks, -⟩ := ok.held ch (mem_of_getElem? found)
  have covered : ci.covers b = true := by
    rw [AllocChunk.covers_iff, base, blocks] at inside
    exact covers_iff.mpr inside
  have bits : s.chunkBits ch.chSlot ci = ch.chBm := by
    rw [Kern.chunkBits, ok.heldBits_eq found, getD_some]
  constructor
  · rintro ⟨j, cj, info', covered', set⟩
    obtain rfl := ok.apart _ _ ci cj b info info' covered covered'
    cases info.symm.trans info'
    rwa [bits, ← base] at set
  · intro set
    exact ⟨ch.chSlot, ci, info, covered, by rwa [bits, ← base]⟩

theorem Kern.used_congr {s' : Kern} (infos : s'.infos = s.infos)
    (bits : ∀ i ci, s.infos[i]? = some ci → s'.chunkBits i ci = s.chunkBits i ci) :
    s'.Used b ↔ s.Used b := by
  unfold Kern.Used
  rw [infos]
  refine exists_congr fun i => exists_congr fun ci => and_congr_right fun info => ?_
  rw [bits i ci info]

/-- One chunk-info entry is edited, and still names the blocks it named. -/
structure Edited (s s' : Kern) (slot : Nat) (f : ChunkInfo → ChunkInfo) : Prop where
  infos : s'.infos = s.infos.modify slot f
  covers : ∀ ci b, (f ci).covers b = ci.covers b
  addr : ∀ ci, (f ci).ciAddr = ci.ciAddr

namespace Edited

variable {s' : Kern} {slot i j : Nat} {f : ChunkInfo → ChunkInfo} {ci cj : ChunkInfo}
  (edited : Edited s s' slot f)
include edited

theorem row : s'.infos[i]? = some ci ↔ ∃ old, s.infos[i]? = some old ∧
    (if slot = i then f old else old) = ci := by
  rw [edited.infos, getElem?_modify]
  exact map_eq_some_iff

theorem same (i : Nat) (ci : ChunkInfo) (b : Nat) :
    (if slot = i then f ci else ci).covers b = ci.covers b ∧
    (if slot = i then f ci else ci).ciAddr = ci.ciAddr := by
  split
  · exact ⟨edited.covers ci b, edited.addr ci⟩
  · exact ⟨rfl, rfl⟩

theorem apart (ok : ChunksOk s) (infoI : s'.infos[i]? = some ci) (infoJ : s'.infos[j]? = some cj)
    (coverI : ci.covers b = true) (coverJ : cj.covers b = true) : i = j := by
  obtain ⟨oldI, wasI, rfl⟩ := edited.row.mp infoI
  obtain ⟨oldJ, wasJ, rfl⟩ := edited.row.mp infoJ
  exact ok.apart i j oldI oldJ b wasI wasJ ((edited.same i oldI b).1 ▸ coverI)
    ((edited.same j oldJ b).1 ▸ coverJ)

theorem used (bits : ∀ i old, s.infos[i]? = some old → old.covers b = true →
    s'.chunkBits i (if slot = i then f old else old) (b - old.ciAddr) =
      s.chunkBits i old (b - old.ciAddr)) :
    s'.Used b ↔ s.Used b := by
  constructor
  · rintro ⟨i, ci, info, covered, set⟩
    obtain ⟨old, was, rfl⟩ := edited.row.mp info
    rw [(edited.same i old b).1] at covered
    rw [(edited.same i old b).2, bits i old was covered] at set
    exact ⟨i, old, was, covered, set⟩
  · rintro ⟨i, old, was, covered, set⟩
    refine ⟨i, _, edited.row.mpr ⟨old, was, rfl⟩, (edited.same i old b).1.trans covered, ?_⟩
    rwa [(edited.same i old b).2, bits i old was covered]

end Edited

/-! ### Moving a run between free and used -/

/-- The counter of a chunk or of the device after `count` blocks were taken or given back. -/
def movedCount (v : Bool) (count n : Nat) : Nat := if v then n - count else n + count

/-- A run of resident chunk `c` given one value, and the counters moved the matching way. -/
def Kern.moveRun (s : Kern) (c first count : Nat) (v : Bool) : Kern :=
  ((s.editChunk c fun ch =>
      { ch with chBm := setRun ch.chBm first count v, chDirty := true }).editInfo
    (s.gChunk.getD c default).chSlot fun ci =>
      { ci with ciFreeCount := movedCount v count ci.ciFreeCount }).setFree
        (movedCount v count s.gSm.smFreeCount)

variable {first count : Nat} {v : Bool}

theorem clearCount_setRun {bm : Bitmap} {n : Nat} (fits : first + count ≤ n)
    (other : ∀ i, first ≤ i → i < first + count → bm i = !v) :
    clearCount (setRun bm first count v) n = movedCount v count (clearCount bm n) ∧
      (v = true → count ≤ clearCount bm n) := by
  cases v with
  | true =>
    have moved := clearCount_setRun_true fits other
    exact ⟨by simp only [movedCount, if_true]; omega, fun _ => le_clearCount fits other⟩
  | false => exact ⟨clearCount_setRun_false fits other, fun h => nomatch h⟩

theorem Kern.moveRun_heldBits (ok : ChunksOk s) (found : s.gChunk[c]? = some ch) (i : Nat) :
    (s.moveRun c first count v).heldBits i =
      if ch.chSlot = i then some (setRun ch.chBm first count v) else s.heldBits i := by
  have edited := find?_modify AllocChunk.chSlot
    (fun ch => { ch with chBm := setRun ch.chBm first count v, chDirty := true }) (fun _ => rfl)
    s.gChunk ok.slots c ch found i
  change ((s.gChunk.modify c _).find? _).map _ = _
  rw [edited]
  split <;> rfl

theorem Kern.moveRun_bits (ok : ChunksOk s) (found : s.gChunk[c]? = some ch) (i : Nat)
    (ci : ChunkInfo) :
    (s.moveRun c first count v).chunkBits i ci =
      if ch.chSlot = i then setRun ch.chBm first count v else s.chunkBits i ci := by
  rw [chunkBits, moveRun_heldBits ok found]
  split <;> rfl

theorem Kern.moveRun_edited (found : s.gChunk[c]? = some ch) :
    Edited s (s.moveRun c first count v) ch.chSlot
    fun ci => { ci with ciFreeCount := movedCount v count ci.ciFreeCount } := by
  refine ⟨?_, fun _ _ => rfl, fun _ => rfl⟩
  change s.infos.modify (s.gChunk.getD c default).chSlot _ = _
  rw [getD_of_getElem? found]

theorem Kern.moveRun_chunk {ch' : AllocChunk} (member : ch' ∈ (s.moveRun c first count v).gChunk) :
    ∃ old ∈ s.gChunk, ch'.chSlot = old.chSlot ∧ ch'.chBase = old.chBase ∧
      ch'.chBlocks = old.chBlocks ∧ ch'.chBitmap = old.chBitmap ∧
        (ch' = old ∨ ch'.chDirty = true) := by
  obtain ⟨k, place⟩ := mem_iff_getElem?.mp member
  change (s.gChunk.modify c _)[k]? = some ch' at place
  by_cases here : c = k
  · rw [here, getElem?_modify_eq] at place
    obtain ⟨old, wasHeld, rfl⟩ := map_eq_some_iff.mp place
    exact ⟨old, mem_of_getElem? wasHeld, rfl, rfl, rfl, rfl, .inr rfl⟩
  · rw [getElem?_modify_ne _ _ here] at place
    exact ⟨ch', mem_of_getElem? place, rfl, rfl, rfl, rfl, .inl rfl⟩

section

variable (ok : ChunksOk s) (found : s.gChunk[c]? = some ch) (fits : first + count ≤ ch.chBlocks)
include ok found fits

theorem ChunksOk.moveRun
    (other : ∀ i, first ≤ i → i < first + count → ch.chBm i = !v) :
    ChunksOk (s.moveRun c first count v) := by
  obtain ⟨own, ownInfo, base, blocks, bitmap⟩ := ok.held ch (mem_of_getElem? found)
  have ownBits : s.chunkBits ch.chSlot own = ch.chBm := by
    rw [Kern.chunkBits, ok.heldBits_eq found, getD_some]
  have counts := clearCount_setRun (v := v) (blocks ▸ fits) other
  have enough : v = true → count ≤ own.ciFreeCount := by
    intro take
    rw [ok.counted _ own ownInfo, ownBits]
    exact counts.2 take
  have edited : Edited s (s.moveRun c first count v) ch.chSlot _ := Kern.moveRun_edited found
  constructor
  · exact fun i j ci cj b => edited.apart ok
  · intro ch' member
    obtain ⟨old, wasHeld, slot, base', blocks', bitmap', -⟩ := Kern.moveRun_chunk member
    obtain ⟨ci, info, held⟩ := ok.held old wasHeld
    refine ⟨_, edited.row.mpr ⟨ci, slot ▸ info, rfl⟩, ?_⟩
    rw [base', blocks', bitmap']
    split <;> exact held
  · change ((s.gChunk.modify c _).map AllocChunk.chSlot).Nodup
    rw [map_modify_of_same]
    · exact ok.slots
    · exact fun _ => rfl
  · intro i ci info
    obtain ⟨old, was, rfl⟩ := edited.row.mp info
    rw [Kern.moveRun_bits ok found]
    split
    next slot =>
      cases ownInfo.symm.trans (slot ▸ was)
      rw [ok.counted _ own ownInfo, ownBits, counts.1]
    · exact ok.counted i old was
  · have summed := sum_map_modify
      (fun ci : ChunkInfo => { ci with ciFreeCount := movedCount v count ci.ciFreeCount })
      ChunkInfo.ciFreeCount s.infos ch.chSlot own ownInfo
    change movedCount v count s.gSm.smFreeCount =
      ((s.infos.modify (s.gChunk.getD c default).chSlot _).map ChunkInfo.ciFreeCount).sum
    rw [getD_of_getElem? found, ok.total]
    cases v with
    | true =>
      have bound := enough rfl
      simp only [movedCount, if_true] at summed ⊢
      omega
    | false =>
      simp only [movedCount, Bool.false_eq_true, if_false] at summed ⊢
      omega
  · rfl
  · intro h resident
    change h < (s.gChunk.modify c _).length
    rw [length_modify]
    exact ok.home h resident
  · intro ch' member
    obtain ⟨old, wasHeld, -, -, -, bitmap', -⟩ := Kern.moveRun_chunk member
    rw [bitmap']
    exact ok.placed old wasHeld
  intro ch' member isClean
  obtain ⟨old, wasHeld, -, -, -, -, edited⟩ := Kern.moveRun_chunk member
  rcases edited with rfl | dirty
  · exact ok.clean ch' wasHeld isClean
  · rw [dirty] at isClean
    exact absurd isClean Bool.true_eq_false.mp

theorem ChunksOk.moveRun_used (b : Nat) : (s.moveRun c first count v).Used b ↔
      if ch.chBase + first ≤ b ∧ b < ch.chBase + first + count then v = true else s.Used b := by
  obtain ⟨own, ownInfo, base, blocks, -⟩ := ok.held ch (mem_of_getElem? found)
  have edited : Edited s (s.moveRun c first count v) ch.chSlot _ := Kern.moveRun_edited found
  have same := edited.same ch.chSlot own b
  split
  next run =>
    have ownCover : own.covers b = true := covers_iff.mpr (by omega)
    have value : setRun ch.chBm first count v (b - own.ciAddr) = v :=
      setRun_inside (by omega) (by omega)
    constructor
    · rintro ⟨i, ci, info, covered, set⟩
      obtain ⟨old, was, rfl⟩ := edited.row.mp info
      obtain rfl := ok.apart _ _ own old b ownInfo was ownCover ((edited.same i old b).1 ▸ covered)
      cases ownInfo.symm.trans was
      rwa [Kern.moveRun_bits ok found, if_pos rfl, same.2, value] at set
    · intro set
      refine ⟨ch.chSlot, _, edited.row.mpr ⟨own, ownInfo, rfl⟩, same.1.trans ownCover, ?_⟩
      rwa [Kern.moveRun_bits ok found, if_pos rfl, same.2, value]
  next outside =>
  refine edited.used fun i old was covered => ?_
  rw [Kern.moveRun_bits ok found]
  split
  next slot =>
    cases ownInfo.symm.trans (slot ▸ was)
    have within := covers_iff.mp covered
    rw [setRun_outside (by omega), Kern.chunkBits, ← slot, ok.heldBits_eq found, getD_some]
  · rfl

end

end

end Style9.Apfs
