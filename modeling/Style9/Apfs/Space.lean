import Style9.Apfs.Read
import Style9.Lib.Act

/-!
# Space: bitmaps, the internal pool and the free queues

Taking a block sets a bit of a resident chunk bitmap; giving one back only queues it, under
the transaction that stopped using it, and `fq_release` is the one place a bit is cleared.
The blocks that hold the bitmaps themselves come from the internal pool, which has a bitmap
and a queue of its own.
-/
namespace Style9.Apfs

open Style9.Lib Function

/-- A routine of the driver that returns an `FS_APFS_E_*` code. -/
abbrev Op (α : Type) := Act Kern Err α

/-! ### The device -/

/-- Whether the drive takes the next request, and the answers that remain. -/
def Device.answer (d : Device) : Bool × List Bool :=
  match d.refuse with
  | [] => (true, [])
  | no :: rest => (!no, rest)

/-- `write_block_raw` and, for the sealed kinds of block, `fs_apfs_write_block`. -/
def writeBlock (bno : Nat) (block : Block) : Op Unit := fun s =>
  if s.gView.isSome then (.error .io, s)
  else if s.dev.answer.1 then
    (.ok (), { s with dev := { disk := update s.dev.disk bno block
                               log := s.dev.log ++ [.write bno block]
                               refuse := s.dev.answer.2 } })
  else (.error .io, { s with dev := { s.dev with refuse := s.dev.answer.2 } })

/-- `ckpt_barrier`: everything written so far is on the platter once this returns OK. -/
def ckptBarrier : Op Unit := fun s =>
  if s.dev.answer.1 then
    (.ok (),
      { s with dev := { s.dev with log := s.dev.log ++ [.flush], refuse := s.dev.answer.2 } })
  else (.error .io, { s with dev := { s.dev with refuse := s.dev.answer.2 } })

def Block.asBits : Block → Bitmap
  | .bits bm => bm
  | _ => fun _ => false

/-! ### Resident chunks -/

def AllocChunk.covers (ch : AllocChunk) (bno : Nat) : Bool :=
  ch.chBase ≤ bno && bno < ch.chBase + ch.chBlocks

def ChunkInfo.covers (ci : ChunkInfo) (bno : Nat) : Bool :=
  ci.ciAddr ≤ bno && bno < ci.ciAddr + ci.ciBlockCount

variable (s : Kern)

/-- `chunk_resident`, as an index into `gChunk`. -/
def chunkResident (bno : Nat) : Option Nat := s.gChunk.findIdx? (·.covers bno)

/-- The chunk `chunk_admit` would bring in for block `bno`. -/
def chunkToAdmit (bno : Nat) : Option AllocChunk :=
  let infos := s.gCib.cibChunkInfo.take apfsCiMaxPerCib
  match infos.findIdx? (·.covers bno) with
  | none => none
  | some i =>
    let ci := infos.getD i default
    if ci.ciBitmapAddr = 0 ∨ apfsBlockSize * 8 < ci.ciBlockCount then none
    else some
      { chBm := (s.dev.disk ci.ciBitmapAddr).asBits
        chBase := ci.ciAddr
        chBitmap := ci.ciBitmapAddr
        chBlocks := ci.ciBlockCount
        chSlot := i
        chDirty := false }

/-- `chunk_admit`: at most `APFS_CHUNKS_RESIDENT` are held. -/
def chunkAdmit (bno : Nat) : Option Nat × Kern :=
  if apfsChunksResident ≤ s.gChunk.length then (none, s)
  else
    match chunkToAdmit s bno with
    | none => (none, s)
    | some ch => (some s.gChunk.length, { s with gChunk := s.gChunk ++ [ch] })

/-- `chunk_for`: the chunk covering a block, admitted if it is not held already. -/
def chunkFor (bno : Nat) : Option Nat × Kern :=
  match chunkResident s bno with
  | some c => (some c, s)
  | none => chunkAdmit s bno

/-! ### The free queues -/

variable (q : Sfq)

/-- Entries of a queue, none when the container has no such tree. -/
def Kern.queue : List FqEnt :=
  match s.gFq q with
  | some node => node.ents
  | none => []

variable (n : FqNode)

/-- Room left in a queue node for one more entry, holes of released entries included. -/
def FqNode.hasRoom (count : Nat) : Bool :=
  (n.ents.length + 1) * 4 ≤ n.tocLen &&
    (if n.keyHoles.isEmpty then 16 else 0) + (if 1 < count ∧ n.valHoles = [] then 8 else 0) ≤
      n.freeLen

/-- The node with its next key placed: in the first hole, or at the start of the span. -/
def FqNode.placeKey : Nat × FqNode :=
  match n.keyHoles with
  | hole :: rest => (hole, { n with keyHoles := rest })
  | [] => (n.freeOff, { n with freeOff := n.freeOff + 16, freeLen := n.freeLen - 16 })

/-- The node with its next value placed; a count of one needs none. -/
def FqNode.placeVal (count : Nat) : Option Nat × FqNode :=
  if count ≤ 1 then (none, n)
  else
    match n.valHoles with
    | hole :: rest => (some hole, { n with valHoles := rest })
    | [] =>
      let freeLen := n.freeLen - 8
      (some (apfsBlockSize - apfsBtreeInfoSize -
        (apfsBtnodeHdrSize + n.tocOff + n.tocLen + n.freeOff + freeLen)),
        { n with freeLen := freeLen })

/-- An entry sorts after every entry with a smaller or equal (xid, paddr). -/
def fqAfter (xid paddr : Nat) (e : FqEnt) : Bool := xid < e.xid || (e.xid = xid && paddr < e.paddr)

def fqOrdered (new : FqEnt) : List FqEnt → List FqEnt
  | [] => [new]
  | e :: rest => if fqAfter new.xid new.paddr e then new :: e :: rest else e :: fqOrdered new rest

/-- The entry a queue node gains. What is read back as the count is one when no value is stored. -/
def FqNode.insert (xid paddr count : Nat) : FqNode :=
  let (koff, n1) := n.placeKey
  let (voff, n2) := n1.placeVal count
  { n2 with
    ents := fqOrdered ⟨xid, paddr, if voff.isNone then 1 else count, koff, voff⟩ n.ents
    btKeyCount := n.btKeyCount + 1 }

/-- The pool bits of a released entry; blocks outside the pool are passed by. -/
def clearPool (m : Mount) (bm : Bitmap) (paddr count : Nat) : Bitmap :=
  fun i => if paddr ≤ m.acIpBase + i ∧ m.acIpBase + i < paddr + count ∧ i < m.acIpBlocks
    then false else bm i

def Kern.editInfo (slot : Nat) (f : ChunkInfo → ChunkInfo) : Kern :=
  { s with gCib := { s.gCib with cibChunkInfo := s.gCib.cibChunkInfo.modify slot f } }

def Kern.editChunk (c : Nat) (f : AllocChunk → AllocChunk) : Kern :=
  { s with gChunk := s.gChunk.modify c f }

def Kern.setFree (free : Nat) : Kern :=
  { s with gSm := { s.gSm with smFreeCount := free }, gApfs := { s.gApfs with acSmFree := free } }

/-- `alloc_count_free`: the chunk-info and space-manager counters follow cleared bits. -/
def allocCountFree (slot count : Nat) : Kern :=
  (s.editInfo slot fun ci => { ci with ciFreeCount := ci.ciFreeCount + count }).setFree
    (s.gSm.smFreeCount + count)

def Kern.setFq (fq : FreeQueue) : Kern :=
  { s with gSm := { s.gSm with smFq := update s.gSm.smFq q fq } }

/-- State of the loop of `fq_release`: the kernel so far, the entries kept, and the chains of
holes of the queue's node. -/
structure FqSweep where
  kern : Kern
  kept : List FqEnt
  keyHoles : List Nat
  valHoles : List Nat

/-- The entry leaves the queue: its count goes, its key and value become holes. -/
def FqSweep.drop (w : FqSweep) (q : Sfq) (e : FqEnt) (s : Kern) : FqSweep :=
  let fq := s.gSm.smFq q
  { w with
    kern := s.setFq q { fq with sfqCount := fq.sfqCount - e.count }
    keyHoles := e.koff :: w.keyHoles
    valHoles := match e.voff with
      | some voff => voff :: w.valHoles
      | none => w.valHoles }

/-- Clear a run's bits in resident chunk `c` and count them free. -/
def chunkGive (c paddr count : Nat) : Kern :=
  allocCountFree
    (s.editChunk c fun ch =>
      { ch with chBm := setRun ch.chBm (paddr - ch.chBase) count false, chDirty := true })
    (s.gChunk.getD c default).chSlot count

/-- One entry: kept when it is too young or its chunk cannot be reached, else let go. -/
def fqSweepOne (upto : Nat) (w : FqSweep) (e : FqEnt) : FqSweep :=
  if upto < e.xid then { w with kept := w.kept ++ [e] }
  else if q = .ip then
    w.drop q e { w.kern with gIpbm := clearPool w.kern.gApfs w.kern.gIpbm e.paddr e.count }
  else
    match chunkFor w.kern e.paddr with
    | (none, s) => { w with kern := s, kept := w.kept ++ [e] }
    | (some c, s) =>
      let ch := s.gChunk.getD c default
      if e.paddr < ch.chBase ∨ ch.chBase + ch.chBlocks < e.paddr + e.count then
        { w with kern := s, kept := w.kept ++ [e] }
      else w.drop q e (chunkGive s c e.paddr e.count)

/-- The least xid of some entries; zero when there are none. -/
def fqOldest (ents : List FqEnt) : Nat :=
  ents.foldl (fun oldest e => if oldest = 0 ∨ e.xid < oldest then e.xid else oldest) 0

/-- The queue's node after a sweep that let something go; an empty one gets its span back. -/
def FqNode.afterSweep (w : FqSweep) : FqNode :=
  if w.kept.isEmpty then
    { n with
      ents := [], btKeyCount := 0, keyHoles := [], valHoles := [], freeOff := 0
      freeLen := apfsBlockSize - apfsBtreeInfoSize - apfsBtnodeHdrSize - n.tocOff - n.tocLen }
  else { n with
      ents := w.kept, btKeyCount := w.kept.length, keyHoles := w.keyHoles, valHoles := w.valHoles }

/-- The loop of `fq_release` over the entries of one node. -/
def fqSweepAll (upto : Nat) (n : FqNode) : FqSweep :=
  n.ents.foldl (fqSweepOne q upto) ⟨s, [], n.keyHoles, n.valHoles⟩

/-- `fq_release`. The floor moves first, whatever else can be done. -/
def fqRelease (upto : Nat) : Kern :=
  let s := { s with fqFloor := max s.fqFloor upto }
  match s.gFq q with
  | none => s
  | some n =>
    let w := fqSweepAll s q upto n
    if w.kept.length = n.ents.length then w.kern
    else
      let fq := w.kern.gSm.smFq q
      { w.kern.setFq q { fq with sfqOldestXid := fqOldest w.kept } with
        gFq := update w.kern.gFq q (some (n.afterSweep w)) }

/-- The part of `fq_insert` after room has been found. -/
def fqPut (xid paddr count : Nat) : Kern :=
  let fq := s.gSm.smFq q
  { s.setFq q { fq with
      sfqCount := fq.sfqCount + count
      sfqOldestXid := if fq.sfqOldestXid = 0 ∨ xid < fq.sfqOldestXid then xid
        else fq.sfqOldestXid } with
    gFq := update s.gFq q (some (n.insert xid paddr count)) }

/-- `fq_insert`. A full node lets go of everything but the newest transaction early. -/
def fqInsert (xid paddr count : Nat) : Op Unit := fun s =>
  match s.gFq q with
  | none => (.error .inval, s)
  | some n =>
    if n.hasRoom count then (.ok (), fqPut s q n xid paddr count)
    else
      let s := fqRelease s q (xid - 1)
      match s.gFq q with
      | none => (.error .inval, s)
      | some n =>
        if n.hasRoom count then (.ok (), fqPut s q n xid paddr count) else (.error .noAlloc, s)

/-! ### The internal pool -/

def ipFirst (m : Mount) (bm : Bitmap) : Option Nat := (List.range m.acIpBlocks).find? fun i => !bm i

/-- `ip_alloc`; nothing when the pool is full. -/
def ipAlloc : Option Nat × Kern :=
  if s.gApfs.acIpValid then
    match ipFirst s.gApfs s.gIpbm with
    | some i => (some (s.gApfs.acIpBase + i), { s with gIpbm := update s.gIpbm i true })
    | none => (none, s)
  else (none, s)

def inPool (m : Mount) (bno : Nat) : Bool := m.acIpBase ≤ bno && bno < m.acIpBase + m.acIpBlocks

/-- `ip_free`: into the pool's queue. A block that cannot be queued is leaked. -/
def ipFree (bno : Nat) (s : Kern) : Kern :=
  if s.gApfs.acIpValid && inPool s.gApfs bno && s.gIpbm (bno - s.gApfs.acIpBase) then
    (fqInsert .ip (s.gApfs.acXid + 1) bno 1).ignore s
  else s

/-! ### Taking and giving back blocks -/

/-- The loop of `alloc_bits`: it stops at a bit that is already what it should become. -/
def flipRun (take : Bool) : Nat → Nat → Bitmap → Bool × Bitmap
  | 0, _, bm => (true, bm)
  | n + 1, bit, bm =>
    if bm bit = take then (false, bm) else flipRun take n (bit + 1) (update bm bit take)

/-- `alloc_bits` on resident chunk `c`. -/
def allocBits (c first count : Nat) (take : Bool) : Op Unit := fun s =>
  let ch := s.gChunk.getD c default
  let ci := s.gCib.cibChunkInfo.getD ch.chSlot default
  if take ∧ (ci.ciFreeCount < count ∨ s.gSm.smFreeCount < count) then (.error .noAlloc, s)
  else
    let flipped := flipRun take count first ch.chBm
    if flipped.1 then
      let moved := fun n : Nat => if take then n - count else n + count
      (.ok (), ((s.editChunk c fun ch => { ch with chBm := flipped.2, chDirty := true }).editInfo
        ch.chSlot fun ci => { ci with ciFreeCount := moved ci.ciFreeCount }).setFree (moved
          s.gSm.smFreeCount))
    -- the bits before the refused one stay as they were left
    else (.error .inval, s.editChunk c fun ch => { ch with chBm := flipped.2 })

def chunkRunFree (ch : AllocChunk) (first count : Nat) : Bool :=
  first + count ≤ ch.chBlocks && (List.range count).all fun i => !ch.chBm (first + i)

/-- The first fit of `alloc_run_in`: `seen` clear bits end just before bit `i`, `n` bits remain. -/
def firstFit (bm : Bitmap) (count : Nat) : Nat → Nat → Nat → Option Nat
  | 0, _, _ => none
  | n + 1, i, seen =>
    if bm i then firstFit bm count n (i + 1) 0
    else if seen + 1 < count then firstFit bm count n (i + 1) (seen + 1)
    else some (i + 1 - count)

def allocRunIn (c count : Nat) : Op Nat := fun s =>
  let ch := s.gChunk.getD c default
  match firstFit ch.chBm count ch.chBlocks 0 0 with
  | none => (.error .noAlloc, s)
  | some first => (do allocBits c first count true; pure (ch.chBase + first) : Op Nat) s

/-- The end of `alloc_blocks`: the chunk metadata lives in, unless it has been tried. -/
def allocFromHome (tried : Option Nat) (count : Nat) : Op Nat := fun s =>
  match s.gHome with
  | none => (.error .inval, s)
  | some home => if tried = some home then (.error .noAlloc, s) else allocRunIn home count s

/-- First fit in chunk `c`, and in the home chunk when that one has no such run. -/
def allocNear (c count : Nat) : Op Nat := fun s =>
  match allocRunIn c count s with
  | (.error .noAlloc, s) => allocFromHome (some c) count s
  | r => r

/-- `alloc_blocks`: exactly at `near` if that is free, else near it, else in the home chunk. -/
def allocBlocks (count near : Nat) : Op Nat := fun s =>
  if !s.gApfs.acAllocHave || count = 0 || s.gView.isSome then (.error .inval, s)
  else if near = 0 then allocFromHome none count s
  else
    match chunkFor s near with
    | (none, s) => allocFromHome none count s
    | (some c, s) =>
      let ch := s.gChunk.getD c default
      if ch.chBase ≤ near && chunkRunFree ch (near - ch.chBase) count then
        match allocBits c (near - ch.chBase) count true s with
        | (.ok (), s) => (.ok near, s)
        | (.error _, s) => allocNear c count s
      else allocNear c count s

/-- `free_blocks`: the run must lie in one chunk, and joins the queue of the open transaction. -/
def freeBlocks (first count : Nat) : Op Unit := fun s =>
  if !s.gApfs.acAllocHave || s.gView.isSome then (.error .inval, s)
  else
    match chunkFor s first with
    | (none, s) => (.error .inval, s)
    | (some c, s) =>
      let ch := s.gChunk.getD c default
      if ch.chBase + ch.chBlocks < first + count then (.error .inval, s)
      else fqInsert .main (s.gApfs.acXid + 1) first count s

/-! ### Putting the bitmaps down -/

/-- A dirty chunk's bitmap moves to a fresh pool block. -/
def flushChunk (xid c : Nat) : Op Unit := fun s =>
  match ipAlloc s with
  | (none, s) => (.error .noAlloc, s)
  | (some new, s) =>
    let ch := s.gChunk.getD c default
    match (writeBlock new (.bits ch.chBm)).onFail (ipFree new) s with
    | (.error e, s) => (.error e, s)
    | (.ok (), s) =>
      let s := s.editInfo ch.chSlot fun ci => { ci with ciXid := xid, ciBitmapAddr := new }
      let s := ipFree ch.chBitmap s
      (.ok (), s.editChunk c fun ch => { ch with chBitmap := new, chDirty := false })

def flushChunks (xid : Nat) : List Nat → Op Unit
  | [] => pure ()
  | c :: rest => fun s =>
    if (s.gChunk.getD c default).chDirty
      then (do flushChunk xid c; flushChunks xid rest : Op Unit) s
    else flushChunks xid rest s

/-- The chunk-info block moves to a fresh pool block and the space manager is pointed at it. -/
def flushCib (xid : Nat) : Op Unit := fun s =>
  match ipAlloc s with
  | (none, s) => (.error .noAlloc, s)
  | (some new, s) =>
    let old := s.gApfs.acAllocCib
    let s := { s with gCib := { s.gCib with oOid := new, oXid := xid } }
    match (writeBlock new (.cib s.gCib)).onFail (ipFree new) s with
    | (.error e, s) => (.error e, s)
    | (.ok (), s) =>
      (.ok (), ipFree old { s with
        gSm := { s.gSm with smCibAddr := new }
        gApfs := { s.gApfs with acAllocCib := new } })

/-- `alloc_flush`: nothing at all when no chunk is dirty. -/
def allocFlush (xid : Nat) : Op Unit := fun s =>
  if s.gChunk.all fun ch => !ch.chDirty then (.ok (), s)
  else if !s.gApfs.acIpValid then (.error .inval, s)
  else (do flushChunks xid (List.range s.gChunk.length); flushCib xid : Op Unit) s

end Style9.Apfs
