import Style9.Apfs.Accounting

/-!
# Writing a checkpoint

`fs_apfs_checkpoint` publishes what is in memory: the queues let go of what is old enough, the
bitmaps and the pool's own bitmap are put down, the ephemeral objects go to fresh slots of the
data ring, a map of them and then a superblock to the descriptor ring. Up to the superblock a
failure leaves the previous checkpoint the newest; past it this kernel continues from the new
one whether or not the drive confirms the flush.
-/
namespace Style9.Apfs

open Style9.Lib List Act

/-! ### The ring of pool bitmaps -/

/-- The space manager after the pool's bitmap went to `slot`: the slot leaves the free list,
the one it replaces goes to the tail. -/
def Spaceman.rotated (sm : Spaceman) (slots slot old xid : Nat) : Spaceman :=
  let head := sm.smIpBmFreeNext.getD slot 0
  let next := sm.smIpBmFreeNext.set slot apfsBtoffInvalid
  let next := if sm.smIpBmFreeTail < slots then next.set sm.smIpBmFreeTail old else next
  { sm with
    smIpBmFreeHead := if slots ≤ head then old else head
    smIpBmFreeNext := next.set old apfsBtoffInvalid
    smIpBmFreeTail := old
    smIpBmXid := xid
    smIpBitmap := slot }

def ipRotate (xid : Nat) : Op Nat := fun s =>
  let slot := s.gSm.smIpBmFreeHead
  if s.gApfs.acIpbmSlots ≤ slot then (.error .noAlloc, s)
  else (do
    writeBlock (s.gApfs.acIpbmBase + slot) (.bits s.gIpbm)
    modify fun s =>
      { s with gSm := s.gSm.rotated s.gApfs.acIpbmSlots slot s.gApfs.acIpbmSlot xid }
    pure slot : Op Nat) s

/-! ### What stops a checkpoint before it starts -/

def slotInRun (slot start len blocks : Nat) : Bool :=
  (range len).any fun k => (start + k) % blocks == slot

variable (m : Mount)

def Mount.mapSlot : Nat := m.acXpDescNext % m.acXpDescBlocks

def Mount.sbSlot : Nat := (m.mapSlot + 1) % m.acXpDescBlocks

def Mount.dataSlot (i : Nat) : Nat := (m.acXpDataNext + i) % m.acXpDataBlocks

/-- The table of ephemerals is incomplete, the rings are too small, or one has come round onto
the live checkpoint. -/
def ckptRefuses : Bool :=
  (m.acEph.length = 0 || m.acEphOver ≠ 0) ||
  (m.acXpDataBlocks = 0 || m.acXpDataBlocks < m.acEph.length || m.acXpDescBlocks < 2) ||
  (slotInRun m.mapSlot m.acXpDescIndex m.acXpDescLen m.acXpDescBlocks ||
    slotInRun m.sbSlot m.acXpDescIndex m.acXpDescLen m.acXpDescBlocks) ||
  (range m.acEph.length).any fun i =>
    slotInRun (m.dataSlot i) m.acXpDataIndex m.acXpDataLen m.acXpDataBlocks

/-- The superblock a checkpoint is built from: the one adopted, and still that one. -/
def ckptSuperblock (s : Kern) : Except Err NxSuperblock :=
  match s.dev.disk s.gApfs.acSbBno with
  | .nxsb sb => if sb.oXid = s.gApfs.acXid then .ok sb else .error .inval
  | block => if block.sealed then .error .inval else .error .io

/-! ### The steps -/

/-- What the queues have been holding goes, where no checkpoint worth mounting still names it. -/
def ckptRelease (xid : Nat) (s : Kern) : Kern :=
  if apfsFqKeep < xid then fqRelease (fqRelease s .main (xid - apfsFqKeep)) .ip (xid - apfsFqKeep)
  else s

/-- Step 0: let go, put the bitmaps down, then the pool's own. -/
def ckptSpace (xid : Nat) : Op Nat := fun s =>
  if s.gApfs.acIpValid then (do
    modify (ckptRelease xid)
    allocFlush xid
    ipRotate xid : Op Nat) s
  else (.ok s.gApfs.acIpbmSlot, s)

/-- `fq_mem`: the in-memory copy of a free-queue tree. -/
def fqMem (s : Kern) (oid : Nat) : Option FqNode :=
  [Sfq.ip, .main, .tier2].findSome? fun q =>
    if (s.gSm.smFq q).sfqTreeOid = oid then s.gFq q else none

/-- A sealed object with its transaction stamped. -/
def Block.setXid (xid : Nat) : Block → Block
  | .nxsb x => .nxsb { x with oXid := xid }
  | .cpm x => .cpm { x with oXid := xid }
  | .spaceman x => .spaceman { x with oXid := xid }
  | .fq x => .fq { x with oXid := xid }
  | .cib x => .cib { x with oXid := xid }
  | .omap x => .omap { x with oXid := xid }
  | .omapNode x => .omapNode { x with oXid := xid }
  | .node x => .node { x with oXid := xid }
  | .vsb x => .vsb { x with oXid := xid }
  | .object _ payload => .object xid payload
  | raw => raw

/-- The current value of an ephemeral object. One the driver does not hold was only ever read. -/
def ephBlock (s : Kern) (e : Eph) : Except Err Block :=
  if e.eSize ≠ apfsBlockSize then .error .inval
  else if e.eOid = s.gApfs.acSpacemanOid then .ok (.spaceman s.gSm)
  else
    match fqMem s e.eOid with
    | some n => .ok (.fq n)
    | none => if (s.dev.disk e.ePaddr).sealed then .ok (s.dev.disk e.ePaddr) else .error .io

/-- Step 1: the ephemerals from index `i` on, each to its slot; returns where they went. -/
def ckptEph (xid : Nat) : Nat → List Eph → Op (List Nat)
  | _, [] => pure []
  | i, e :: rest => do
    let block ← lift (ephBlock · e)
    let paddr ← read fun s => s.gApfs.acXpDataBase + s.gApfs.dataSlot i
    writeBlock paddr (block.setXid xid)
    let moved ← ckptEph xid (i + 1) rest
    pure (paddr :: moved)

def ckptMap (xid : Nat) (moved : List Nat) : CheckpointMap where
  oOid := m.acXpDescBase + m.mapSlot
  oXid := xid
  cpmLast := true
  cpmMap := zipWith
    (fun e paddr => ⟨e.eType, e.eSubtype, e.eSize, e.eFsOid, e.eOid, paddr⟩) m.acEph moved

def ckptSb (xid : Nat) (sb : NxSuperblock) : NxSuperblock :=
  { sb with
    oXid := xid
    nxNextXid := xid + 1
    nxNextOid := m.acNextOid
    nxOmapOid := m.acOmapOid
    nxXpDescIndex := m.mapSlot
    nxXpDescLen := 2
    nxXpDescNext := (m.sbSlot + 1) % m.acXpDescBlocks
    nxXpDataIndex := m.acXpDataNext % m.acXpDataBlocks
    nxXpDataLen := m.acEph.length
    nxXpDataNext := (m.acXpDataNext + m.acEph.length) % m.acXpDataBlocks }

def resolveEphemeral (ephs : List Eph) (oid : Nat) : Nat :=
  match ephs.find? (·.eOid == oid) with
  | some e => e.ePaddr
  | none => 0

/-- The container this kernel believes in moves to the checkpoint just written. -/
def Mount.afterCkpt (xid ipSlot : Nat) (moved : List Nat) : Mount :=
  let ephs := zipWith (fun e paddr => { e with ePaddr := paddr }) m.acEph moved
  { m with
    acXid := xid
    acNextXid := xid + 1
    acDirty := false
    acSbBno := m.acXpDescBase + m.sbSlot
    acXpDescIndex := m.mapSlot
    acXpDescLen := 2
    acXpDescNext := (m.sbSlot + 1) % m.acXpDescBlocks
    acXpDataIndex := m.acXpDataNext % m.acXpDataBlocks
    acXpDataLen := m.acEph.length
    acXpDataNext := (m.acXpDataNext + m.acEph.length) % m.acXpDataBlocks
    acEph := ephs
    acSmPaddr := resolveEphemeral ephs m.acSpacemanOid
    acIpbmSlot := if m.acIpValid then ipSlot else m.acIpbmSlot }

/-- Step 4: block zero, and a flush after it. Neither failing changes the outcome. -/
def ckptAnchor (sb : NxSuperblock) : Kern → Kern :=
  ignore (do writeBlock 0 (.nxsb sb); ckptBarrier : Op Unit)

/-- From the superblock on: once it is written the checkpoint has happened, and a refused flush
is only reported. -/
def ckptCommit (xid ipSlot : Nat) (moved : List Nat) (sb : NxSuperblock) : Op Unit := fun s =>
  let m := s.gApfs
  match writeBlock (m.acXpDescBase + m.sbSlot) (.nxsb (ckptSb m xid sb)) s with
  | (.error e, s) => (.error e, s)
  | (.ok (), s) =>
    match ckptBarrier s with
    | (.error e, s) => (.error e, { s with gApfs := m.afterCkpt xid ipSlot moved })
    | (.ok (), s) =>
      (.ok (), { ckptAnchor (ckptSb m xid sb) s with gApfs := m.afterCkpt xid ipSlot moved })

def fsApfsCheckpoint : Op Unit := do
  guard (fun s => !ckptRefuses s.gApfs) .inval
  let xid ← read fun s => s.gApfs.acXid + 1
  let sb ← lift ckptSuperblock
  let ipSlot ← ckptSpace xid
  let ephs ← read fun s => s.gApfs.acEph
  let moved ← ckptEph xid 0 ephs
  let m ← read Kern.gApfs
  writeBlock (m.acXpDescBase + m.mapSlot) (.cpm (ckptMap m xid moved))
  ckptBarrier
  ckptCommit xid ipSlot moved sb

end Style9.Apfs
