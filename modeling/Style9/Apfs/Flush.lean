import Style9.Apfs.Pool

/-!
# Putting the bitmaps down

`alloc_flush` moves each dirty bitmap, and then the chunk-info block that names them, to fresh
blocks of the pool. Whatever it manages before it fails, the space it accounts for is the
same: a bitmap moves with the entry that names it, and what is written goes to blocks nothing
was named in.
-/
namespace Style9.Apfs

open Style9.Lib Function List Bool Act

variable {s s' t u : Kern} {c b new xid i : Nat} {ch : AllocChunk} {held rest : List Nat}
  {ci : ChunkInfo}

/-! ### The invariant -/

/-- The pool blocks the allocator itself lives in. -/
def Kern.named (s : Kern) : List Nat :=
  s.gApfs.acAllocCib :: (s.infos.map ChunkInfo.ciBitmapAddr).filter (· ≠ 0)

/-- The device's side of the accounts. -/
structure MainOk (s : Kern) : Prop where
  chunks : ChunksOk s
  queue : QueueOk s.Used (s.queue .main)
  counts : ∀ q n, q ≠ .ip → s.gFq q = some n → CountsOk n.ents (s.gSm.smFq q)
  tier2 : s.queue .tier2 = []

/-- Space is accounted for: the device, the pool, and the pool's place in the device. -/
structure SpaceOk (s : Kern) : Prop where
  main : MainOk s
  pool : PoolOk s s.named
  base : 0 < s.gApfs.acIpBase
  poolUsed : ∀ b, inPool s.gApfs b = true → s.Used b
  poolUnqueued : ∀ b, inPool s.gApfs b = true → s.Unqueued .main b

/-! ### States with the same accounts -/

/-- What the device's side is read from. -/
structure MainSame (s s' : Kern) : Prop where
  chunk : s'.gChunk = s.gChunk
  infos : s'.infos = s.infos
  disk : ∀ ci ∈ s.infos, ci.diskBits s'.dev.disk = ci.diskBits s.dev.disk
  free : s'.gSm.smFreeCount = s.gSm.smFreeCount
  mirror : s'.gApfs.acSmFree = s.gApfs.acSmFree
  home : s'.gHome = s.gHome
  node : ∀ q ≠ .ip, s'.gFq q = s.gFq q
  record : ∀ q ≠ .ip, s'.gSm.smFq q = s.gSm.smFq q

theorem MainSame.chunkBits (same : MainSame s s')
    (info : s.infos[i]? = some ci) : s'.chunkBits i ci = s.chunkBits i ci := by
  unfold Kern.chunkBits Kern.heldBits
  rw [same.chunk, same.disk ci (mem_of_getElem? info)]

theorem MainSame.used (same : MainSame s s') (b : Nat) : s'.Used b ↔ s.Used b :=
  Kern.used_congr same.infos fun _ _ => same.chunkBits

theorem ChunksOk.asBits_congr (ok : ChunksOk s) (member : ch ∈ s.gChunk) {disk : Nat → Block}
    (bits : ∀ ci ∈ s.infos, ci.diskBits disk = ci.diskBits s.dev.disk) :
    (disk ch.chBitmap).asBits = (s.dev.disk ch.chBitmap).asBits := by
  obtain ⟨ci, info, -, -, bitmap⟩ := ok.held ch member
  have bits := bits ci (mem_of_getElem? info)
  have placed := bitmap ▸ ok.placed ch member
  rwa [ChunkInfo.diskBits, ChunkInfo.diskBits, if_neg placed, if_neg placed, ← bitmap] at bits

theorem MainSame.chunksOk (same : MainSame s s') (ok : ChunksOk s) : ChunksOk s' := by
  constructor
  · rw [same.infos]
    exact ok.apart
  · rw [same.infos, same.chunk]
    exact ok.held
  · rw [same.chunk]
    exact ok.slots
  · intro i ci info
    rw [same.infos] at info
    rw [same.chunkBits info]
    exact ok.counted i ci info
  · rw [same.infos, same.free]
    exact ok.total
  · rw [same.mirror, same.free]
    exact ok.mirror
  · rw [same.home, same.chunk]
    exact ok.home
  · rw [same.chunk]
    exact ok.placed
  intro ch member isClean
  rw [same.chunk] at member
  rw [ok.asBits_congr member same.disk]
  exact ok.clean ch member isClean

theorem MainOk.of (ok : MainOk s) (chunks : ChunksOk s') (used : ∀ b, s'.Used b ↔ s.Used b)
    (node : ∀ q ≠ .ip, s'.gFq q = s.gFq q) (record : ∀ q ≠ .ip, s'.gSm.smFq q = s.gSm.smFq q) :
    MainOk s' := by
  have queues : ∀ q ≠ .ip, s'.queue q = s.queue q := by
    intro q device
    unfold Kern.queue
    rw [node q device]
  refine ⟨chunks, ?_, ?_, ?_⟩
  · rw [queues .main (by decide)]
    exact ok.queue.mono fun e _ b _ inUse => (used b).mpr inUse
  · intro q n device found
    rw [record q device]
    exact ok.counts q n device (node q device ▸ found)
  · rw [queues .tier2 (by decide)]
    exact ok.tier2

theorem MainOk.congr (ok : MainOk s) (same : MainSame s s') : MainOk s' :=
  ok.of (same.chunksOk ok.chunks) same.used same.node same.record

theorem PoolFrame.mainSame (frame : PoolFrame s s')
    (others : ∀ p ≠ .ip, s'.gFq p = s.gFq p ∧ s'.gSm.smFq p = s.gSm.smFq p) : MainSame s s' := by
  have free := congrArg Spaceman.smFreeCount frame.sm
  refine ⟨frame.chunk, ?_, ?_, free, by rw [frame.mount], frame.home,
    fun q device => (others q device).1,
    fun q device => (others q device).2⟩
  · unfold Kern.infos
    rw [frame.cib]
  · rw [frame.dev]
    exact fun _ _ => rfl

theorem MainSame.trans (h : MainSame s t) (k : MainSame t s') : MainSame s s' :=
  ⟨k.chunk.trans h.chunk, k.infos.trans h.infos,
    fun ci member => (k.disk ci (by rw [h.infos]; exact member)).trans (h.disk ci member),
    k.free.trans h.free, k.mirror.trans h.mirror, k.home.trans h.home,
    fun q device => (k.node q device).trans (h.node q device),
    fun q device => (k.record q device).trans (h.record q device)⟩

theorem SpaceOk.of (ok : SpaceOk s) (main : MainOk s') (pool : PoolOk s' s'.named)
    (base : s'.gApfs.acIpBase = s.gApfs.acIpBase)
    (blocks : s'.gApfs.acIpBlocks = s.gApfs.acIpBlocks)
    (used : ∀ b, s'.Used b ↔ s.Used b) (node : s'.gFq .main = s.gFq .main) : SpaceOk s' := by
  have inside : ∀ b, inPool s'.gApfs b = inPool s.gApfs b := by
    intro b
    unfold inPool
    rw [base, blocks]
  have queue : s'.queue .main = s.queue .main := by
    unfold Kern.queue
    rw [node]
  refine ⟨main, pool, by rw [base]; exact ok.base, ?_, ?_⟩
  · exact fun b here => (used b).mpr (ok.poolUsed b (inside b ▸ here))
  intro b here
  unfold Kern.Unqueued
  rw [queue]
  exact ok.poolUnqueued b (inside b ▸ here)

/-! ### Writing to a fresh block of the pool -/

theorem writeBlock_cases (bno : Nat) (block : Block) (s : Kern) :
    (∃ e d, writeBlock bno block s = (.error e, { s with dev := d }) ∧ d.disk = s.dev.disk ∧
      d.log = s.dev.log) ∨
    ∃ d, writeBlock bno block s = (.ok (), { s with dev := d }) ∧
      d.disk = update s.dev.disk bno block ∧ d.log = s.dev.log ++ [.write bno block] ∧
      s.gView = none := by
  unfold writeBlock
  split
  · exact .inl ⟨_, s.dev, rfl, rfl, rfl⟩
  next noView =>
    split
    · exact .inr ⟨_, rfl, rfl, rfl, by simpa using noView⟩
    · exact .inl ⟨_, _, rfl, rfl, rfl⟩

theorem SpaceOk.diskBits_update (ok : SpaceOk s) (member : ci ∈ s.infos) (free : ¬ s.PoolUsed new)
    (block : Block) :
    ci.diskBits (update s.dev.disk new block) = ci.diskBits s.dev.disk := by
  unfold ChunkInfo.diskBits
  split
  · rfl
  next placed =>
  have elsewhere : ci.ciBitmapAddr ≠ new := by
    rintro rfl
    apply free
    refine ok.pool.taken _ (mem_cons_of_mem _ (mem_filter.mpr ⟨?_, by simpa using placed⟩))
    exact mem_map_of_mem member
  rw [update_of_ne elsewhere]

theorem SpaceOk.giveBack (ok : SpaceOk s) (inside : inPool s.gApfs new = true)
    (free : ¬ s.PoolUsed new) (same : MainSame s u) (pool : PoolSame (s.takePool new) u)
    (names : u.named = s.named) :
    SpaceOk (ipFree new u) ∧ ∀ b, (ipFree new u).Used b ↔ s.Used b := by
  have took := (ok.pool.take inside free).congr pool
  obtain ⟨gave, frame, others⟩ := took.give
  have main := same.trans (frame.mainSame others)
  have names' : (ipFree new u).named = s.named := by
    rw [← names]
    unfold Kern.named Kern.infos
    rw [frame.mount, frame.cib]
  refine ⟨ok.of (ok.main.congr main) (by rw [names']; exact gave) ?_ ?_ main.used
    (main.node _ (by decide)),
    main.used⟩
  · rw [frame.mount, pool.base]
    rfl
  · rw [frame.mount, pool.blocks]
    rfl

/-! ### One bitmap -/

/-- A chunk's bitmap lives in another block: its entry and the resident chunk both say so. -/
structure Relocated (s u : Kern) (c : Nat) (ch : AllocChunk) (new xid : Nat) : Prop where
  chunk : u.gChunk = s.gChunk.modify c fun ch => { ch with chBitmap := new, chDirty := false }
  infos : u.infos = s.infos.modify ch.chSlot fun ci => { ci with ciXid := xid, ciBitmapAddr := new }
  disk : ∀ ci ∈ s.infos, ci.diskBits u.dev.disk = ci.diskBits s.dev.disk
  free : u.gSm.smFreeCount = s.gSm.smFreeCount
  mirror : u.gApfs.acSmFree = s.gApfs.acSmFree
  home : u.gHome = s.gHome
  fresh : new ≠ 0
  wrote : (u.dev.disk new).asBits = ch.chBm

section
variable {u : Kern} (moved : Relocated s u c ch new xid)
include moved

theorem Relocated.edited :
    Edited s u ch.chSlot fun ci => { ci with ciXid := xid, ciBitmapAddr := new } :=
  ⟨moved.infos, fun _ _ => rfl, fun _ => rfl⟩

variable (found : s.gChunk[c]? = some ch)
include found

theorem Relocated.chunk_cases {ch' : AllocChunk} (member : ch' ∈ u.gChunk) :
    ch' = { ch with chBitmap := new, chDirty := false } ∨
      ch' ∈ s.gChunk ∧ ∃ k, c ≠ k ∧ s.gChunk[k]? = some ch' := by
  rw [moved.chunk] at member
  obtain ⟨k, place⟩ := mem_iff_getElem?.mp member
  by_cases here : c = k
  · rw [here, getElem?_modify_eq, ← here, found] at place
    exact .inl (Option.some.inj place).symm
  · rw [getElem?_modify_ne _ _ here] at place
    exact .inr ⟨mem_of_getElem? place, k, here, place⟩

variable (ok : ChunksOk s)
include ok

theorem Relocated.heldBits (i : Nat) : u.heldBits i = s.heldBits i := by
  have edited :=
    find?_modify AllocChunk.chSlot (fun ch => { ch with chBitmap := new, chDirty := false })
    (fun _ => rfl) s.gChunk ok.slots c ch found i
  have before := find?_modify AllocChunk.chSlot id (fun _ => rfl) s.gChunk ok.slots c ch found i
  rw [modify_id] at before
  unfold Kern.heldBits
  rw [moved.chunk, edited, before]
  split <;> rfl

theorem Relocated.chunkBits {old : ChunkInfo} (was : s.infos[i]? = some old) :
    u.chunkBits i (if ch.chSlot = i then { old with ciXid := xid, ciBitmapAddr := new } else old) =
      s.chunkBits i old := by
  unfold Kern.chunkBits
  rw [moved.heldBits found ok]
  split
  next here =>
    -- the chunk is resident, so neither side looks at the disk
    rw [← here, ok.heldBits_eq found]
    rfl
  · rw [moved.disk old (mem_of_getElem? was)]

theorem Relocated.used (b : Nat) : u.Used b ↔ s.Used b :=
  moved.edited.used fun _ _ was _ => congrFun (moved.chunkBits found ok was) _

theorem Relocated.chunksOk : ChunksOk u := by
  constructor
  · exact fun i j ci cj b => moved.edited.apart ok
  · intro ch' member
    rcases moved.chunk_cases found member with rfl | ⟨old, k, here, place⟩
    · obtain ⟨ci, info, base, blocks, -⟩ := ok.held ch (mem_of_getElem? found)
      refine ⟨{ ci with ciXid := xid, ciBitmapAddr := new }, ?_, base, blocks, rfl⟩
      rw [moved.infos, getElem?_modify_eq, info]
      rfl
    obtain ⟨ci, info, base, blocks, bitmap⟩ := ok.held ch' old
    -- no other resident chunk has this slot
    have other : ch.chSlot ≠ ch'.chSlot := by
      intro same
      apply here
      have slotC : (s.gChunk.map AllocChunk.chSlot)[c]? = some ch.chSlot := by simp [found]
      have slotK : (s.gChunk.map AllocChunk.chSlot)[k]? = some ch.chSlot := by simp [place, same]
      obtain ⟨bound, -⟩ := List.getElem?_eq_some_iff.mp slotC
      exact (List.getElem?_inj bound ok.slots).mp (slotC.trans slotK.symm)
    refine ⟨ci, ?_, base, blocks, bitmap⟩
    rw [moved.infos, getElem?_modify_ne _ _ other, info]
  · rw [moved.chunk, map_modify_of_same]
    · exact ok.slots
    · exact fun _ => rfl
  · intro i ci info
    obtain ⟨old, was, rfl⟩ := moved.edited.row.mp info
    rw [moved.chunkBits found ok was]
    split <;> exact ok.counted i old was
  · rw [moved.infos, map_modify_of_same, moved.free]
    · exact ok.total
    · exact fun _ => rfl
  · rw [moved.mirror, moved.free]
    exact ok.mirror
  · rw [moved.home, moved.chunk, length_modify]
    exact ok.home
  · intro ch' member
    rcases moved.chunk_cases found member with rfl | ⟨old, -⟩
    · exact moved.fresh
    · exact ok.placed ch' old
  intro ch' member isClean
  rcases moved.chunk_cases found member with rfl | ⟨old, -⟩
  · exact moved.wrote
  · rw [ok.asBits_congr old moved.disk]
    exact ok.clean ch' old isClean

theorem Relocated.named (cib : u.gApfs.acAllocCib = s.gApfs.acAllocCib) :
    (new :: s.named).Perm (ch.chBitmap :: u.named) := by
  obtain ⟨ci, info, -, -, bitmap⟩ := ok.held ch (mem_of_getElem? found)
  have old := ok.placed ch (mem_of_getElem? found)
  have exchanged :=
    ((modify_perm (fun ci : ChunkInfo => { ci with ciXid := xid, ciBitmapAddr := new })
    info).map ChunkInfo.ciBitmapAddr).filter (· ≠ 0)
  rw [map_cons, map_cons, ← bitmap, filter_cons_of_pos (by simpa using old),
    filter_cons_of_pos (by simpa using moved.fresh), ← moved.infos] at exchanged
  unfold Kern.named
  rw [cib]
  exact (List.Perm.swap _ _ _).trans ((exchanged.symm.cons _).trans (List.Perm.swap _ _ _))

end

/-! ### What a flush keeps, however far it gets -/

def Spaceman.ring (sm : Spaceman) : Nat × Nat × List Nat :=
  (sm.smIpBmFreeHead, sm.smIpBmFreeTail, sm.smIpBmFreeNext)

theorem PoolFrame.ring (frame : PoolFrame s s') : s'.gSm.ring = s.gSm.ring := by
  have ring := congrArg Spaceman.ring frame.sm
  exact ring

/-- What the drive took between two states was written where `p` says. -/
def Logged (p : Nat → Prop) (s t : Kern) : Prop :=
  ∃ new, t.dev.log = s.dev.log ++ new ∧ ∀ b block, IoEvent.write b block ∈ new → p b

section
variable {p p' : Nat → Prop}

theorem Logged.of_dev (same : t.dev.log = s.dev.log) : Logged p s t :=
  ⟨[], by rw [same, append_nil], fun _ _ member => nomatch member⟩

theorem Logged.of_write {block : Block} (log : t.dev.log = s.dev.log ++ [.write new block])
    (here : p new) : Logged p s t := by
  refine ⟨_, log, fun b block' member => ?_⟩
  cases mem_singleton.mp member
  exact here

theorem Logged.trans (h : Logged p s t) (k : Logged p t s') : Logged p s s' := by
  obtain ⟨new, log, only⟩ := h
  obtain ⟨new', log', only'⟩ := k
  refine ⟨new ++ new', by rw [log', log, append_assoc], fun b block member => ?_⟩
  rcases mem_append.mp member with member | member
  · exact only b block member
  · exact only' b block member

theorem Logged.mono (h : Logged p s t) (wider : ∀ b, p b → p' b) : Logged p' s t := by
  obtain ⟨new, log, only⟩ := h
  exact ⟨new, log, fun b block member => wider b (only b block member)⟩

end

/-- What no routine of the allocator touches: the mount but for the two fields that follow the
space manager, the ring of pool bitmaps, and the disk outside the pool. -/
structure SpaceFrame (s s' : Kern) : Prop where
  mount : { s'.gApfs with acSmFree := 0, acAllocCib := 0 } =
    { s.gApfs with acSmFree := 0, acAllocCib := 0 }
  cibAddr : s.gSm.smCibAddr = s.gApfs.acAllocCib → s'.gSm.smCibAddr = s'.gApfs.acAllocCib
  view : s'.gView = s.gView
  disk : ∀ b, inPool s.gApfs b = false → s'.dev.disk b = s.dev.disk b
  ring : s'.gSm.ring = s.gSm.ring
  log : Logged (inPool s.gApfs · = true) s s'

theorem SpaceFrame.refl (s : Kern) : SpaceFrame s s :=
  ⟨rfl, id, rfl, fun _ _ => rfl, rfl, .of_dev rfl⟩

theorem SpaceFrame.inPool (frame : SpaceFrame s s') (b : Nat) :
    Apfs.inPool s'.gApfs b = Apfs.inPool s.gApfs b := by
  have base := congrArg Mount.acIpBase frame.mount
  have blocks := congrArg Mount.acIpBlocks frame.mount
  unfold Apfs.inPool
  rw [base, blocks]

theorem SpaceFrame.trans (h : SpaceFrame s t) (k : SpaceFrame t s') : SpaceFrame s s' := by
  refine ⟨k.mount.trans h.mount, fun start => k.cibAddr (h.cibAddr start), k.view.trans h.view,
    fun b outside => ?_,
    k.ring.trans h.ring, h.log.trans (k.log.mono fun b inside => (h.inPool b).symm.trans inside)⟩
  rw [k.disk b ((h.inPool b).trans outside), h.disk b outside]

/-- Some bitmaps may have moved inside the pool; what they say is the same. -/
structure Flushed (s s' : Kern) : Prop where
  ok : SpaceOk s'
  used : ∀ b, s'.Used b ↔ s.Used b
  bits : s'.gChunk.map AllocChunk.chBm = s.gChunk.map AllocChunk.chBm
  node : s'.gFq .main = s.gFq .main
  frame : SpaceFrame s s'

theorem Flushed.refl (ok : SpaceOk s) : Flushed s s :=
  ⟨ok, fun _ => Iff.rfl, rfl, rfl, SpaceFrame.refl s⟩

theorem Flushed.trans (h : Flushed s t) (k : Flushed t s') : Flushed s s' :=
  ⟨k.ok, fun b => (k.used b).trans (h.used b), k.bits.trans h.bits, k.node.trans h.node,
    h.frame.trans k.frame⟩

/-- A flush that got as far as a refused write: the block it had taken is given back. -/
theorem SpaceOk.refusedWrite (ok : SpaceOk s) (inside : inPool s.gApfs new = true)
    (free : ¬ s.PoolUsed new) (same : MainSame s u) (pool : PoolSame (s.takePool new) u)
    (mount : u.gApfs = s.gApfs) (sm : u.gSm = s.gSm) (disk : u.dev.disk = s.dev.disk)
    (log : u.dev.log = s.dev.log) (view : u.gView = s.gView) : Flushed s (ipFree new u) := by
  have names : u.named = s.named := by
    unfold Kern.named
    rw [mount, same.infos]
  obtain ⟨ok', used⟩ := ok.giveBack inside free same pool names
  obtain ⟨-, frame, others⟩ := ((ok.pool.take inside free).congr pool).give
  have chunk := frame.chunk.trans same.chunk
  have cibAddr := congrArg Spaceman.smCibAddr frame.sm
  refine ⟨ok', used, by rw [chunk],
    (others .main (by decide)).1.trans (same.node .main (by decide)),
    by rw [frame.mount, mount], ?_, frame.view.trans view, fun b _ => by rw [frame.dev, disk],
    frame.ring.trans (congrArg Spaceman.ring sm), .of_dev (by rw [frame.dev, log])⟩
  intro start
  rw [frame.mount, mount, ← start, ← sm]
  exact cibAddr

theorem flushChunk_cases (found : s.gChunk[c]? = some ch) (xid : Nat) :
    (∃ e, flushChunk xid c s = (.error e, s)) ∨
    ∃ new, inPool s.gApfs new = true ∧ ¬ s.PoolUsed new ∧
      ((∃ e d, flushChunk xid c s = (.error e, ipFree new { s.takePool new with dev := d }) ∧
        d.disk = s.dev.disk ∧ d.log = s.dev.log) ∨
      ∃ d, flushChunk xid c s = (.ok (), (ipFree ch.chBitmap
          (({ s.takePool new with dev := d } : Kern).editInfo ch.chSlot fun ci =>
            { ci with ciXid := xid, ciBitmapAddr := new })).editChunk c fun ch =>
              { ch with chBitmap := new, chDirty := false }) ∧
        d.disk = update s.dev.disk new (.bits ch.chBm) ∧
        d.log = s.dev.log ++ [.write new (.bits ch.chBm)]) := by
  unfold flushChunk
  rcases ipAlloc_cases s with none | ⟨new, some, inside, free⟩
  · rw [none]
    exact .inl ⟨_, rfl⟩
  rw [some]
  have resident : (s.takePool new).gChunk.getD c default = ch := getD_of_getElem? found
  dsimp only
  rw [resident]
  refine .inr ⟨new, inside, free, ?_⟩
  unfold onFail
  rcases writeBlock_cases new (.bits ch.chBm) (s.takePool new) with
    ⟨e, d, result, known⟩ | ⟨d, result, disk, log, -⟩
  · rw [result]
    exact .inl ⟨e, d, rfl, known⟩
  · rw [result]
    exact .inr ⟨d, rfl, disk, log⟩

theorem flushChunk_flushed (ok : SpaceOk s) (found : s.gChunk[c]? = some ch) (xid : Nat) :
    Flushed s (flushChunk xid c s).2 ∧
      ((flushChunk xid c s).1 = .ok () → ∃ new, (flushChunk xid c s).2.gChunk =
        s.gChunk.modify c fun ch => { ch with chBitmap := new, chDirty := false }) := by
  have member := mem_of_getElem? found
  rcases flushChunk_cases found xid with ⟨e, result⟩ | ⟨new, inside, free, outcome⟩
  · rw [result]
    exact ⟨Flushed.refl ok, fun h => nomatch h⟩
  rcases outcome with ⟨e, d, result, disk, log⟩ | ⟨d, result, disk, log⟩
  · rw [result]
    refine ⟨ok.refusedWrite inside free ⟨rfl, rfl, fun _ _ => by rw [disk], rfl, rfl, rfl,
      fun _ _ => rfl,
      fun _ _ => rfl⟩ ⟨rfl, rfl, rfl, rfl, rfl⟩ rfl rfl disk log rfl, fun h => nomatch h⟩
  rw [result]
  set u := ({ s.takePool new with dev := d } : Kern).editInfo ch.chSlot fun ci =>
    { ci with ciXid := xid, ciBitmapAddr := new } with uDef
  set v :=
    (ipFree ch.chBitmap u).editChunk c fun ch => { ch with chBitmap := new, chDirty := false }
    with vDef
  have fresh : new ≠ 0 := by
    rintro rfl
    have base := ok.base
    rw [inPool_iff] at inside
    omega
  have moved : Relocated s { u with gChunk := s.gChunk.modify c fun ch =>
      { ch with chBitmap := new, chDirty := false } } c ch new xid := by
    refine ⟨rfl, rfl, ?_, rfl, rfl, rfl, fresh, ?_⟩
    · intro ci info
      change ci.diskBits d.disk = _
      rw [disk]
      exact ok.diskBits_update info free _
    · change (d.disk new).asBits = _
      rw [disk, update_self]
      rfl
  -- the old block leaves the allocator's names as the new one joins them
  have names := moved.named found ok.main.chunks rfl
  have taken : PoolOk u (ch.chBitmap :: u.named) :=
    ((ok.pool.take inside free).perm names).congr ⟨rfl, rfl, rfl, rfl, rfl⟩
  obtain ⟨gave, frame, others⟩ := taken.give
  have mount : v.gApfs = u.gApfs := frame.mount
  have vChunk : v.gChunk = s.gChunk.modify c fun ch =>
      { ch with chBitmap := new, chDirty := false } := by
    change (ipFree ch.chBitmap u).gChunk.modify c _ = _
    rw [frame.chunk]
    rfl
  have vSame : MainSame { u with gChunk := s.gChunk.modify c fun ch =>
      { ch with chBitmap := new, chDirty := false } } v := by
    have main := frame.mainSame others
    exact ⟨vChunk, main.infos, main.disk, main.free, main.mirror, main.home, main.node, main.record⟩
  have used : ∀ b, v.Used b ↔ s.Used b := fun b =>
    (vSame.used b).trans (moved.used found ok.main.chunks b)
  have main := ok.main.of (vSame.chunksOk (moved.chunksOk found ok.main.chunks)) used
    (fun q device => vSame.node q device) (fun q device => vSame.record q device)
  have pool : PoolOk v v.named := by
    have same : v.named = u.named := by
      unfold Kern.named Kern.infos
      rw [mount, show v.gCib = u.gCib from frame.cib]
    rw [same]
    exact gave.congr ⟨rfl, rfl, rfl, rfl, rfl⟩
  have vDisk : v.dev.disk = update s.dev.disk new (.bits ch.chBm) := by
    rw [← disk]
    exact congrArg Device.disk frame.dev
  refine ⟨⟨ok.of main pool (congrArg Mount.acIpBase frame.mount)
    (congrArg Mount.acIpBlocks frame.mount)
    used (vSame.node .main (by decide)), used, ?_, vSame.node .main (by decide), ?_, ?_,
      frame.view, ?_,
    frame.ring, .of_write ((congrArg Device.log frame.dev).trans log) inside⟩, fun _ => ⟨new,
    vChunk⟩⟩
  · rw [vChunk, map_modify_of_same]
    exact fun _ => rfl
  · rw [mount]
    rfl
  · intro start
    rw [mount]
    have kept := congrArg Spaceman.smCibAddr frame.sm
    exact kept.trans start
  intro b outside
  rw [vDisk, update_of_ne]
  rintro rfl
  rw [inside] at outside
  exact true_eq_false.mp outside

/-! ### All of them -/

def Kern.CleanAt (s : Kern) (k : Nat) : Prop := (s.gChunk.getD k default).chDirty = false

theorem flushChunks_dirty (dirty : (s.gChunk.getD c default).chDirty = true) :
    flushChunks xid (c :: rest) s =
      (flushChunk xid c >>= fun _ => flushChunks xid rest : Op Unit) s :=
  if_pos dirty

theorem flushChunks_clean (clean : s.CleanAt c) :
    flushChunks xid (c :: rest) s = flushChunks xid rest s :=
  if_neg (by rw [show (s.gChunk.getD c default).chDirty = false from clean]; exact false_ne_true)

theorem flushChunks_flushed (ok : SpaceOk s) (xid : Nat) (cs : List Nat) :
    Flushed s (flushChunks xid cs s).2 ∧ ((flushChunks xid cs s).1 = .ok () →
      ∀ k, s.CleanAt k ∨ k ∈ cs → (flushChunks xid cs s).2.CleanAt k) := by
  induction cs generalizing s with
  | nil => exact ⟨Flushed.refl ok, fun _ k clean => clean.resolve_right not_mem_nil⟩
  | cons c rest ih =>
  by_cases dirty : (s.gChunk.getD c default).chDirty = true
  · rw [flushChunks_dirty dirty]
    obtain ⟨ch, found⟩ : ∃ ch, s.gChunk[c]? = some ch := by
      cases place : s.gChunk[c]? with
      | none =>
        rw [getD_eq_getElem?_getD, place] at dirty
        exact absurd dirty false_ne_true
      | some ch => exact ⟨ch, rfl⟩
    obtain ⟨flushed, wrote⟩ := flushChunk_flushed ok found xid
    rcases outcome : flushChunk xid c s with ⟨e | _, t⟩
    · rw [bind_of_error outcome]
      rw [outcome] at flushed
      exact ⟨flushed, fun h => nomatch h⟩
    rw [bind_of_ok outcome]
    rw [outcome] at flushed wrote
    obtain ⟨new, chunks⟩ := wrote rfl
    obtain ⟨flushed', clean'⟩ := ih flushed.ok
    refine ⟨flushed.trans flushed', fun returned k clean => clean' returned k ?_⟩
    by_cases here : c = k
    · -- the chunk just written
      left
      unfold Kern.CleanAt
      rw [chunks, getD_eq_getElem?_getD, ← here, getElem?_modify_eq, found]
      rfl
    rcases clean with was | listed
    · left
      unfold Kern.CleanAt at was ⊢
      rw [getD_eq_getElem?_getD] at was ⊢
      rwa [chunks, getElem?_modify_ne _ _ here]
    · exact .inr ((mem_cons.mp listed).resolve_left (Ne.symm here))
  have isClean : s.CleanAt c := by simpa [Kern.CleanAt] using dirty
  rw [flushChunks_clean isClean]
  obtain ⟨flushed, clean'⟩ := ih ok
  refine ⟨flushed, fun returned k clean => clean' returned k ?_⟩
  rcases clean with was | listed
  · exact .inl was
  · rcases mem_cons.mp listed with rfl | later
    · exact .inl isClean
    · exact .inr later

/-! ### The chunk-info block -/

def Kern.CibOk (s : Kern) : Prop := s.dev.disk s.gApfs.acAllocCib = .cib s.gCib

theorem flushCib_cases (s : Kern) (xid : Nat) : (∃ e, flushCib xid s = (.error e, s)) ∨
    ∃ new, inPool s.gApfs new = true ∧ ¬ s.PoolUsed new ∧
      ((∃ e d, flushCib xid s = (.error e, ipFree new { s.takePool new with
          gCib := { s.gCib with oOid := new, oXid := xid }, dev := d }) ∧ d.disk = s.dev.disk ∧
        d.log = s.dev.log) ∨
      ∃ d, flushCib xid s = (.ok (), ipFree s.gApfs.acAllocCib { s.takePool new with
          gCib := { s.gCib with oOid := new, oXid := xid }
          dev := d
          gSm := { s.gSm with smCibAddr := new }
          gApfs := { s.gApfs with acAllocCib := new } }) ∧
        d.disk = update s.dev.disk new (.cib { s.gCib with oOid := new, oXid := xid }) ∧
        d.log = s.dev.log ++ [.write new (.cib { s.gCib with oOid := new, oXid := xid })]) := by
  unfold flushCib
  rcases ipAlloc_cases s with none | ⟨new, some, inside, free⟩
  · rw [none]
    exact .inl ⟨_, rfl⟩
  rw [some]
  refine .inr ⟨new, inside, free, ?_⟩
  dsimp only
  unfold onFail
  rcases writeBlock_cases new (.cib { s.gCib with oOid := new, oXid := xid })
    { s.takePool new with gCib := { s.gCib with oOid := new, oXid := xid } } with
    ⟨e, d, result, known⟩ | ⟨d, result, disk, log, -⟩
  · left
    refine ⟨e, d, ?_, known⟩
    rw [show (s.takePool new).gCib = s.gCib from rfl, result]
  right
  refine ⟨d, ?_, disk, log⟩
  rw [show (s.takePool new).gCib = s.gCib from rfl, result]
  rfl

/-- The chunk-info block moves, and then what is on disk is what is in memory. -/
theorem flushCib_flushed (ok : SpaceOk s) (xid : Nat) :
    Flushed s (flushCib xid s).2 ∧ (flushCib xid s).2.gChunk = s.gChunk ∧
      ((flushCib xid s).1 = .ok () → (flushCib xid s).2.CibOk ∧
        (flushCib xid s).2.gSm.smCibAddr = (flushCib xid s).2.gApfs.acAllocCib) := by
  rcases flushCib_cases s xid with ⟨e, result⟩ | ⟨new, inside, free, outcome⟩
  · rw [result]
    exact ⟨Flushed.refl ok, rfl, fun h => nomatch h⟩
  rcases outcome with ⟨e, d, result, disk, log⟩ | ⟨d, result, disk, log⟩
  · rw [result]
    have same : MainSame s { s.takePool new with
        gCib := { s.gCib with oOid := new, oXid := xid }, dev := d } :=
      ⟨rfl, rfl, fun _ _ => by rw [disk], rfl, rfl, rfl, fun _ _ => rfl, fun _ _ => rfl⟩
    have pool : PoolSame (s.takePool new) { s.takePool new with
        gCib := { s.gCib with oOid := new, oXid := xid }, dev := d } := ⟨rfl, rfl, rfl, rfl, rfl⟩
    refine ⟨ok.refusedWrite inside free same pool rfl rfl disk log rfl, ?_, fun h => nomatch h⟩
    exact ((ok.pool.take inside free).congr pool).give.2.1.chunk
  rw [result]
  set u : Kern := { s.takePool new with
    gCib := { s.gCib with oOid := new, oXid := xid }
    dev := d
    gSm := { s.gSm with smCibAddr := new }
    gApfs := { s.gApfs with acAllocCib := new } } with uDef
  set v := ipFree s.gApfs.acAllocCib u with vDef
  -- the new block takes the old one's place at the head of the names
  have taken : PoolOk u (s.gApfs.acAllocCib :: u.named) :=
    ((ok.pool.take inside free).perm (List.Perm.swap _ _ _)).congr ⟨rfl, rfl, rfl, rfl, rfl⟩
  obtain ⟨gave, frame, others⟩ := taken.give
  have mount := frame.mount
  have same : MainSame s v := by
    have main := frame.mainSame others
    refine ⟨main.chunk, main.infos, fun ci info => ?_, main.free, main.mirror, main.home, main.node,
      main.record⟩
    rw [main.disk ci info]
    rw [disk]
    exact ok.diskBits_update info free _
  have vDisk : v.dev.disk = update s.dev.disk new (.cib u.gCib) := by
    rw [show v.dev = u.dev from frame.dev]
    exact disk
  have pool : PoolOk v v.named := by
    have names : v.named = u.named := by
      unfold Kern.named Kern.infos
      rw [mount, show v.gCib = u.gCib from frame.cib]
    rw [names]
    exact gave
  have cibAddr : v.gSm.smCibAddr = v.gApfs.acAllocCib := by
    rw [mount]
    have kept := congrArg Spaceman.smCibAddr frame.sm
    exact kept
  have base : v.gApfs.acIpBase = s.gApfs.acIpBase := by rw [mount]
  have blocks : v.gApfs.acIpBlocks = s.gApfs.acIpBlocks := by rw [mount]
  refine ⟨⟨ok.of (ok.main.congr same) pool base blocks same.used (same.node .main (by decide)),
    same.used, ?_, same.node .main (by decide), ?_, fun _ => cibAddr, frame.view, ?_,
    frame.ring, .of_write ((congrArg Device.log frame.dev).trans log) inside⟩, frame.chunk,
    fun _ => ⟨?_, cibAddr⟩⟩
  · rw [same.chunk]
  · rw [mount]
  · intro b outside
    rw [vDisk, update_of_ne]
    rintro rfl
    rw [inside] at outside
    exact true_eq_false.mp outside
  · unfold Kern.CibOk
    rw [vDisk, mount, show v.gCib = u.gCib from frame.cib]
    exact update_self _ _ _

/-! ### `alloc_flush` -/

/-- However far it gets, `alloc_flush` keeps the accounts; when it succeeds with something to
do, everything in memory is on disk. -/
theorem allocFlush_flushed (ok : SpaceOk s) (xid : Nat) :
    Flushed s (allocFlush xid s).2 ∧ ((allocFlush xid s).1 = .ok () →
      (∀ ch ∈ s.gChunk, ch.chDirty = false) ∧ (allocFlush xid s).2 = s ∨
      (∀ ch ∈ (allocFlush xid s).2.gChunk, ch.chDirty = false) ∧ (allocFlush xid s).2.CibOk ∧
        (allocFlush xid s).2.gSm.smCibAddr = (allocFlush xid s).2.gApfs.acAllocCib) := by
  unfold allocFlush
  split
  next clean => exact ⟨Flushed.refl ok, fun _ => .inl ⟨by simpa using clean, rfl⟩⟩
  next =>
  split
  · exact ⟨Flushed.refl ok, fun h => nomatch h⟩
  next =>
  obtain ⟨flushed, clean⟩ := flushChunks_flushed ok xid (range s.gChunk.length)
  rcases outcome : flushChunks xid (range s.gChunk.length) s with ⟨e | _, t⟩
  · rw [bind_of_error outcome]
    rw [outcome] at flushed
    exact ⟨flushed, fun h => nomatch h⟩
  rw [bind_of_ok outcome]
  rw [outcome] at flushed clean
  obtain ⟨flushed', chunks, written⟩ := flushCib_flushed flushed.ok xid
  refine ⟨flushed.trans flushed', fun returned => .inr ⟨?_, written returned⟩⟩
  rw [chunks]
  intro ch member
  obtain ⟨k, place⟩ := mem_iff_getElem?.mp member
  have length : t.gChunk.length = s.gChunk.length := by
    simpa using congrArg length flushed.bits
  have bound : k < s.gChunk.length := by
    rw [← length]
    exact (List.getElem?_eq_some_iff.mp place).1
  have cleanK := clean rfl k (.inr (mem_range.mpr bound))
  unfold Kern.CleanAt at cleanK
  rwa [getD_of_getElem? place] at cleanK

end Style9.Apfs
