import Style9.Apfs.Chunks
import Mathlib.Algebra.Order.BigOperators.Group.List

/-!
# Taking blocks

A run returned by `alloc_blocks` was free and is in use afterwards, and nothing else moved.
With exact counters the checks inside `alloc_bits` never fire: a run found clear is counted
free in its chunk and on the device.
-/
namespace Style9.Apfs

open Style9.Lib List Nat Function Bool

variable {s s' t : Kern} {c b first count : Nat} {ch new : AllocChunk}

/-! ### Bringing a chunk in -/

/-- At most some chunks were brought into memory. -/
structure Admitted (s s' : Kern) : Prop where
  only : ∃ more, s' = { s with gChunk := s.gChunk ++ more }
  ok : ChunksOk s'
  used : ∀ b, s'.Used b ↔ s.Used b

theorem Admitted.refl (ok : ChunksOk s) : Admitted s s :=
  ⟨⟨[], by rw [append_nil]⟩, ok, fun _ => Iff.rfl⟩

private theorem find?_append_singleton {l : List AllocChunk}
    (fresh : ∀ ch ∈ l, ch.chSlot ≠ new.chSlot) (i : Nat) : (l ++ [new]).find? (·.chSlot == i) =
      if new.chSlot = i then some new else l.find? (·.chSlot == i) := by
  rw [find?_append]
  by_cases here : new.chSlot = i
  · have none : l.find? (·.chSlot == i) = none := by
      refine find?_eq_none.mpr fun ch member => ?_
      simpa [← here] using fresh ch member
    rw [if_pos here, none]
    simp [here]
  · rw [if_neg here]
    cases l.find? (·.chSlot == i) <;> simp [here]

theorem chunkToAdmit_some (found : chunkToAdmit s b = some new) :
    ∃ ci, s.infos[new.chSlot]? = some ci ∧ ci.covers b = true ∧ new.chBase = ci.ciAddr ∧
      new.chBlocks = ci.ciBlockCount ∧ new.chBitmap = ci.ciBitmapAddr ∧
      new.chBm = ci.diskBits s.dev.disk ∧ new.chBitmap ≠ 0 := by
  unfold chunkToAdmit at found
  dsimp only at found
  split at found
  · cases found
  next i place =>
  obtain ⟨bound, covers, -⟩ := findIdx?_eq_some_iff_getElem.mp place
  have info : s.infos[i]? = some (s.gCib.cibChunkInfo.take apfsCiMaxPerCib)[i] := by
    have taken := getElem?_eq_getElem bound
    rw [getElem?_take] at taken
    split at taken
    · exact taken
    · cases taken
  rw [getD_eq_getElem _ _ bound] at found
  split at found
  · cases found
  next usable =>
    cases found
    refine ⟨_, info, covers, rfl, rfl, rfl, ?_, fun zero => usable (.inl zero)⟩
    rw [ChunkInfo.diskBits, if_neg (fun zero => usable (.inl zero))]

/-- A chunk not yet resident comes in with the bits the disk already gave it. -/
theorem ChunksOk.bringIn (ok : ChunksOk s) {ci : ChunkInfo}
    (info : s.infos[new.chSlot]? = some ci) (fresh : ∀ ch ∈ s.gChunk, ch.chSlot ≠ new.chSlot)
    (base : new.chBase = ci.ciAddr) (blocks : new.chBlocks = ci.ciBlockCount)
    (bitmap : new.chBitmap = ci.ciBitmapAddr) (bits : new.chBm = ci.diskBits s.dev.disk)
    (placed : new.chBitmap ≠ 0) : Admitted s { s with gChunk := s.gChunk ++ [new] } := by
  have absent : s.heldBits new.chSlot = none := by
    rw [Kern.heldBits, Option.map_eq_none_iff]
    exact find?_eq_none.mpr fun ch member => by simpa using fresh ch member
  have same : ∀ i cj, s.infos[i]? = some cj →
      ({ s with gChunk := s.gChunk ++ [new] } : Kern).chunkBits i cj = s.chunkBits i cj := by
    intro i cj info'
    unfold Kern.chunkBits
    rw [show ({ s with gChunk := s.gChunk ++ [new] } : Kern).heldBits i =
      ((s.gChunk ++ [new]).find? (·.chSlot == i)).map AllocChunk.chBm from rfl,
      find?_append_singleton fresh]
    by_cases here : new.chSlot = i
    · subst here
      cases info.symm.trans info'
      rw [if_pos rfl, absent, Option.map_some, Option.getD_some, bits, Option.getD_none]
    · rw [if_neg here]
      rfl
  refine ⟨⟨[new], rfl⟩, ?_, ?_⟩
  · constructor
    · exact ok.apart
    · intro ch member
      rcases mem_append.mp member with old | fresh
      · exact ok.held ch old
      · rw [mem_singleton.mp fresh]
        exact ⟨ci, info, base, blocks, bitmap⟩
    · change ((s.gChunk ++ [new]).map AllocChunk.chSlot).Nodup
      rw [map_append, map_singleton, nodup_append]
      refine ⟨ok.slots, nodup_singleton _, ?_⟩
      intro i memberI j memberJ
      obtain ⟨ch, held, rfl⟩ := mem_map.mp memberI
      rw [mem_singleton.mp memberJ]
      exact fresh ch held
    · intro i cj info'
      rw [same i cj info']
      exact ok.counted i cj info'
    · exact ok.total
    · exact ok.mirror
    · intro c resident
      have bound := ok.home c resident
      rw [length_append]
      omega
    · intro ch member
      rcases mem_append.mp member with old | fresh
      · exact ok.placed ch old
      · rw [mem_singleton.mp fresh]
        exact placed
    intro ch member isClean
    rcases mem_append.mp member with old | fresh
    · exact ok.clean ch old isClean
    · rw [mem_singleton.mp fresh, bits, ChunkInfo.diskBits, if_neg (bitmap ▸ placed), bitmap]
  · exact fun b => Kern.used_congr rfl same

theorem chunkFor_spec (ok : ChunksOk s) (b : Nat) : Admitted s (chunkFor s b).2 ∧
    ∀ c, (chunkFor s b).1 = some c → ∃ ch, (chunkFor s b).2.gChunk[c]? = some ch ∧
      ch.covers b = true := by
  unfold chunkFor
  split
  next c place =>
    refine ⟨Admitted.refl ok, ?_⟩
    rintro c' ⟨⟩
    obtain ⟨bound, covers, -⟩ := findIdx?_eq_some_iff_getElem.mp place
    exact ⟨_, getElem?_eq_getElem bound, covers⟩
  next absent =>
  have uncovered : ∀ ch ∈ s.gChunk, ch.covers b = false := by
    intro ch member
    simpa using findIdx?_eq_none_iff.mp absent ch member
  unfold chunkAdmit
  split
  · exact ⟨Admitted.refl ok, fun _ h => nomatch h⟩
  next =>
  split
  · exact ⟨Admitted.refl ok, fun _ h => nomatch h⟩
  next new found =>
  obtain ⟨ci, info, covers, base, blocks, bitmap, bits, placed⟩ := chunkToAdmit_some found
  have fresh : ∀ ch ∈ s.gChunk, ch.chSlot ≠ new.chSlot := by
    -- a resident chunk of that slot would cover the block itself
    intro ch member slot
    obtain ⟨ci', info', base', blocks', -⟩ := ok.held ch member
    rw [slot] at info'
    cases info.symm.trans info'
    have covered : ch.covers b = true := by
      rw [AllocChunk.covers_iff, base', blocks']
      exact covers_iff.mp covers
    rw [uncovered ch member] at covered
    exact false_ne_true covered
  refine ⟨ok.bringIn info fresh base blocks bitmap bits placed, ?_⟩
  rintro c ⟨⟩
  refine ⟨new, by simp, ?_⟩
  rw [AllocChunk.covers_iff, base, blocks]
  exact covers_iff.mp covers

/-! ### Flipping a run -/

/-- On a run that has the other value throughout, `alloc_bits`' loop sets it all. -/
theorem flipRun_eq (take : Bool) (count first : Nat) (bm : Bitmap)
    (other : ∀ i, first ≤ i → i < first + count → bm i = !take) :
    flipRun take count first bm = (true, setRun bm first count take) := by
  induction count generalizing first bm with
  | zero =>
    have same : setRun bm first 0 take = bm := by
      funext i
      exact setRun_outside (by omega)
    rw [flipRun, same]
  | succ n ih =>
  have head : bm first ≠ take := by
    rw [other first le_rfl (by omega)]
    cases take <;> simp
  rw [flipRun, if_neg head, ih]
  · congr 1
    funext i
    by_cases here : i = first
    · subst here
      rw [setRun_outside (by omega), setRun_inside (by omega) (by omega), update_self]
    · by_cases inside : first + 1 ≤ i ∧ i < first + 1 + n
      · rw [setRun_inside inside.1 inside.2, setRun_inside (by omega) (by omega)]
      · rw [setRun_outside (by omega), setRun_outside (by omega), update_of_ne here]
  · intro i low high
    rw [update_of_ne (by omega), other i (by omega) (by omega)]

theorem allocBits_take (ok : ChunksOk s) (found : s.gChunk[c]? = some ch)
    (fits : first + count ≤ ch.chBlocks)
    (clear : ∀ i, first ≤ i → i < first + count → ch.chBm i = false) :
    allocBits c first count true s = (.ok (), s.moveRun c first count true) := by
  obtain ⟨ci, info, -, blocks, -⟩ := ok.held ch (mem_of_getElem? found)
  have counted : count ≤ ci.ciFreeCount := by
    rw [ok.counted _ ci info, Kern.chunkBits, ok.heldBits_eq found, Option.getD_some]
    exact le_clearCount (blocks ▸ fits) clear
  have device : ci.ciFreeCount ≤ s.gSm.smFreeCount := by
    rw [ok.total]
    exact single_le_sum (by simp) _ (mem_map_of_mem (mem_of_getElem? info))
  unfold allocBits Kern.moveRun
  rw [Kern.infos] at info
  dsimp only
  rw [getD_of_getElem? found, getD_of_getElem? info, if_neg (by omega),
    flipRun_eq true count first ch.chBm clear]
  -- the state names the chunk it found; in the edited list that is the same chunk
  simp only [if_true, movedCount]
  congr 3
  exact congrArg (fun held => ({ s with gChunk := held } : Kern)) (modify_congr found rfl)

/-! ### Everything else stays -/

def ChunkInfoBlock.shape (cib : ChunkInfoBlock) : ChunkInfoBlock :=
  { cib with cibChunkInfo := cib.cibChunkInfo.map fun ci => { ci with ciFreeCount := 0 } }

/-- Only resident bitmaps and free counts differ. -/
structure ChunkFrame (s s' : Kern) : Prop where
  fq : s'.gFq = s.gFq
  ipbm : s'.gIpbm = s.gIpbm
  home : s'.gHome = s.gHome
  floor : s'.fqFloor = s.fqFloor
  view : s'.gView = s.gView
  dev : s'.dev = s.dev
  sm : { s'.gSm with smFreeCount := 0 } = { s.gSm with smFreeCount := 0 }
  mount : { s'.gApfs with acSmFree := 0 } = { s.gApfs with acSmFree := 0 }
  cib : s'.gCib.shape = s.gCib.shape

theorem ChunkFrame.refl (s : Kern) : ChunkFrame s s := ⟨rfl, rfl, rfl, rfl, rfl, rfl, rfl, rfl, rfl⟩

theorem ChunkFrame.trans {s u : Kern} (h : ChunkFrame s t) (k : ChunkFrame t u) : ChunkFrame s u :=
  ⟨k.fq.trans h.fq, k.ipbm.trans h.ipbm, k.home.trans h.home, k.floor.trans h.floor,
    k.view.trans h.view, k.dev.trans h.dev, k.sm.trans h.sm, k.mount.trans h.mount,
    k.cib.trans h.cib⟩

theorem ChunkFrame.smFq (frame : ChunkFrame s s') : s'.gSm.smFq = s.gSm.smFq := by
  have queues := congrArg Spaceman.smFq frame.sm
  exact queues

theorem Admitted.frame (adm : Admitted s s') : ChunkFrame s s' := by
  obtain ⟨more, rfl⟩ := adm.only
  exact ⟨rfl, rfl, rfl, rfl, rfl, rfl, rfl, rfl, rfl⟩

theorem Kern.moveRun_frame (s : Kern) (c first count : Nat) (v : Bool) :
    ChunkFrame s (s.moveRun c first count v) := by
  refine ⟨rfl, rfl, rfl, rfl, rfl, rfl, rfl, rfl, ?_⟩
  have infos := map_modify_of_same
    (fun ci : ChunkInfo => { ci with ciFreeCount := movedCount v count ci.ciFreeCount })
    (fun ci : ChunkInfo => { ci with ciFreeCount := 0 }) (fun _ => rfl) s.infos
    (s.gChunk.getD c default).chSlot
  rw [ChunkInfoBlock.shape]
  exact congrArg (fun infos => ({ s.gCib with cibChunkInfo := infos } : ChunkInfoBlock)) infos

/-! ### `alloc_blocks` -/

theorem firstFit_some {bm : Bitmap} {n i seen : Nat}
    (bound : seen ≤ i) (clear : ∀ j, i - seen ≤ j → j < i → bm j = false)
    (found : firstFit bm count n i seen = some first) :
    first + count ≤ i + n ∧ ∀ j, first ≤ j → j < first + count → bm j = false := by
  induction n generalizing i seen with
  | zero => cases found
  | succ n ih =>
  rw [firstFit] at found
  split at found
  · obtain ⟨fits, all⟩ := ih (zero_le _) (fun j low high => by omega) found
    exact ⟨by omega, all⟩
  next isClear =>
  have longer : ∀ j, i - seen ≤ j → j < i + 1 → bm j = false := by
    intro j low high
    by_cases last : j = i
    · rw [last]
      simpa using isClear
    · exact clear j low (by omega)
  split at found
  · obtain ⟨fits, all⟩ := ih (by omega) (fun j low high => longer j (by omega) high) found
    exact ⟨by omega, all⟩
  next enough =>
    cases found
    exact ⟨by omega, fun j low high => longer j (by omega) (by omega)⟩

/-- A run went from free to used and nothing else changed. -/
structure Taken (s s' : Kern) (first count : Nat) : Prop where
  ok : ChunksOk s'
  frame : ChunkFrame s s'
  inside : ∃ ci ∈ s.infos, ci.ciAddr ≤ first ∧ first + count ≤ ci.ciAddr + ci.ciBlockCount
  free : ∀ b, first ≤ b → b < first + count → ¬ s.Used b
  used : ∀ b, s'.Used b ↔ s.Used b ∨ first ≤ b ∧ b < first + count

/-- No block changed hands. -/
structure Refused (s s' : Kern) : Prop where
  ok : ChunksOk s'
  frame : ChunkFrame s s'
  used : ∀ b, s'.Used b ↔ s.Used b

theorem Refused.refl (ok : ChunksOk s) : Refused s s := ⟨ok, ChunkFrame.refl s, fun _ => Iff.rfl⟩

theorem Taken.of_moveRun (ok : ChunksOk s) (found : s.gChunk[c]? = some ch)
    (fits : first + count ≤ ch.chBlocks)
    (clear : ∀ i, first ≤ i → i < first + count → ch.chBm i = false) :
    Taken s (s.moveRun c first count true) (ch.chBase + first) count := by
  obtain ⟨ci, info, base, blocks, -⟩ := ok.held ch (mem_of_getElem? found)
  have unused : ∀ b, ch.chBase + first ≤ b → b < ch.chBase + first + count → ¬ s.Used b := by
    intro b low high used
    have set := (ok.used_iff found (AllocChunk.covers_iff.mpr ⟨by omega, by omega⟩)).mp used
    rw [clear (b - ch.chBase) (by omega) (by omega)] at set
    exact false_ne_true set
  refine ⟨ok.moveRun found fits clear, s.moveRun_frame c first count true,
    ⟨ci, mem_of_getElem? info, by omega, by omega⟩, unused, fun b => ?_⟩
  rw [ok.moveRun_used found fits b]
  by_cases run : ch.chBase + first ≤ b ∧ b < ch.chBase + first + count
  · simp [run]
  · simp [run]

theorem allocRunIn_spec (ok : ChunksOk s) (found : s.gChunk[c]? = some ch) (count : Nat) :
    (∃ first s', allocRunIn c count s = (.ok first, s') ∧ Taken s s' first count) ∨
      allocRunIn c count s = (.error .noAlloc, s) := by
  unfold allocRunIn
  dsimp only
  rw [getD_of_getElem? found]
  split
  · exact .inr rfl
  next first fit =>
  obtain ⟨fits, clear⟩ := firstFit_some (zero_le _) (fun j _ high => by omega) fit
  rw [zero_add] at fits
  refine .inl ⟨ch.chBase + first, s.moveRun c first count true, ?_,
    Taken.of_moveRun ok found fits clear⟩
  exact Act.bind_ok_iff.mpr ⟨(), _, allocBits_take ok found fits clear, rfl⟩

theorem Taken.after (adm : Refused s t) (taken : Taken t s' first count) :
    Taken s s' first count := by
  refine ⟨taken.ok, adm.frame.trans taken.frame, ?_, ?_, ?_⟩
  · -- bringing a chunk in leaves the extent of every chunk alone
    obtain ⟨ci, member, low, high⟩ := taken.inside
    have shapes := congrArg ChunkInfoBlock.cibChunkInfo adm.frame.cib
    have inShape : { ci with ciFreeCount := 0 } ∈ s.infos.map
        (fun ci : ChunkInfo => { ci with ciFreeCount := 0 }) := by
      change _ ∈ s.gCib.shape.cibChunkInfo
      rw [← shapes]
      exact mem_map_of_mem member
    obtain ⟨ci', member', same⟩ := mem_map.mp inShape
    obtain ⟨-, addr, blocks, -⟩ := ChunkInfo.mk.inj same
    exact ⟨ci', member', by omega, by omega⟩
  · exact fun b low high used => taken.free b low high ((adm.used b).mpr used)
  · exact fun b => by rw [taken.used b, adm.used b]

theorem Refused.trans (h : Refused s t) (k : Refused t s') : Refused s s' :=
  ⟨k.ok, h.frame.trans k.frame, fun b => (k.used b).trans (h.used b)⟩

theorem Admitted.refused (adm : Admitted s s') : Refused s s' := ⟨adm.ok, adm.frame, adm.used⟩

/-- What a routine that takes a run can have done. -/
def TakesRun (s : Kern) (count : Nat) (r : Except Err Nat × Kern) : Prop :=
  (∃ first, r.1 = .ok first ∧ Taken s r.2 first count) ∨ (∃ e, r.1 = .error e ∧ Refused s r.2)

theorem TakesRun.after {r : Except Err Nat × Kern} (adm : Refused s t)
    (takes : TakesRun t count r) : TakesRun s count r := by
  rcases takes with ⟨first, result, taken⟩ | ⟨e, result, refused⟩
  · exact .inl ⟨first, result, taken.after adm⟩
  · exact .inr ⟨e, result, adm.trans refused⟩

theorem allocFromHome_spec (ok : ChunksOk s) (tried : Option Nat) (count : Nat) :
    TakesRun s count (allocFromHome tried count s) := by
  unfold allocFromHome
  split
  · exact .inr ⟨_, rfl, Refused.refl ok⟩
  next h resident =>
  split
  · exact .inr ⟨_, rfl, Refused.refl ok⟩
  next =>
  have found := getElem?_eq_getElem (ok.home h resident)
  rcases allocRunIn_spec ok found count with ⟨first, s', run, taken⟩ | run
  · rw [run]
    exact .inl ⟨first, rfl, taken⟩
  · rw [run]
    exact .inr ⟨_, rfl, Refused.refl ok⟩

theorem allocNear_spec (ok : ChunksOk s) (found : s.gChunk[c]? = some ch) (count : Nat) :
    TakesRun s count (allocNear c count s) := by
  unfold allocNear
  rcases allocRunIn_spec ok found count with ⟨first, s', run, taken⟩ | run
  · rw [run]
    exact .inl ⟨first, rfl, taken⟩
  · rw [run]
    exact allocFromHome_spec ok _ count

theorem allocBlocks_spec (ok : ChunksOk s) (count near : Nat) :
    TakesRun s count (allocBlocks count near s) := by
  unfold allocBlocks
  split
  · exact .inr ⟨_, rfl, Refused.refl ok⟩
  next =>
  split
  · exact allocFromHome_spec ok none count
  next =>
  obtain ⟨adm, held⟩ := chunkFor_spec ok near
  split
  next t admitted =>
    rw [admitted] at adm
    exact (allocFromHome_spec adm.ok none count).after adm.refused
  next c t admitted =>
  rw [admitted] at adm held
  obtain ⟨ch, found, covers⟩ := held c rfl
  refine TakesRun.after adm.refused ?_
  dsimp only
  rw [getD_of_getElem? found]
  split
  next hint =>
    -- the exact place asked for is free, so it is taken
    simp only [chunkRunFree, and_eq_true, decide_eq_true_eq, all_eq_true, mem_range, not_eq_true']
      at hint
    obtain ⟨low, fits, clear⟩ := hint
    have clear' : ∀ i, near - ch.chBase ≤ i → i < near - ch.chBase + count → ch.chBm i = false := by
      intro i lowI highI
      have bit := clear (i - (near - ch.chBase)) (by omega)
      rwa [Nat.add_sub_cancel' lowI] at bit
    rw [allocBits_take adm.ok found fits clear']
    have taken := Taken.of_moveRun adm.ok found fits clear'
    rw [Nat.add_sub_cancel' low] at taken
    exact .inl ⟨near, rfl, taken⟩
  · exact allocNear_spec adm.ok found count

end Style9.Apfs
