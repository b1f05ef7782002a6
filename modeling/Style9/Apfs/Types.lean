import Style9.Lib.Bytes
import Style9.Lib.Bits

/-!
# The container as the kernel sees it

Blocks are modelled by what they hold: each object of the format that the driver reads or
writes is a constructor of `Block`, with the fields the driver uses. A checksummed block
whose Fletcher-64 fails is `torn`; file bytes and allocation bitmaps are written raw and
carry no header. Numbers are naturals: every quantity here is a block number, a count or an
identifier far below the width it is stored in.
-/
namespace Style9.Apfs

open Style9.Lib

/-! ### Constants of the format and of the driver -/

def apfsBlockSize : Nat := 4096
def apfsBtnodeHdrSize : Nat := 56
def apfsBtreeInfoSize : Nat := 40
def apfsTreeMaxDepth : Nat := 8
def apfsJObjIdBits : Nat := 60
def apfsTypeFileExtent : Nat := 8
def apfsTypeDirRec : Nat := 9
def apfsCiMaxPerCib : Nat := 126
def apfsChunksResident : Nat := 4
def apfsFqKeep : Nat := 2
/-- The u16 that ends a list of ring slots. -/
def apfsBtoffInvalid : Nat := 0xFFFF

/-- The negative `FS_APFS_E_*` results. -/
inductive Err where
  | nomount | io | nomem | inval | cksum | notFound | tooBig | noAlloc | exist | isDir
  | spread | notDir | notEmpty | gone
  deriving DecidableEq

/-! ### Records of the catalog -/

structure FileExtentVal where
  feLen : Nat
  feFlags : Nat
  fePhysBlockNum : Nat
  feCryptoId : Nat
  deriving DecidableEq, Inhabited

/-- The value of a B-tree entry. `child` is an index entry's: the oid of a virtual node, or
the block of a physical one. -/
inductive Val where
  | child (oid : Nat)
  | fileExtent (v : FileExtentVal)
  | other (bytes : Bytes)
  deriving DecidableEq

instance : Inhabited Val := ⟨.child 0⟩

/-- The first eight bytes of a value read as an oid; only index entries are read so. -/
def Val.oid : Val → Nat
  | .child oid => oid
  | _ => 0

/-! ### B-tree nodes -/

/-- One entry of a variable-KV node: its key and value and where they lie. -/
structure Ent where
  key : Bytes
  val : Val
  koff : Nat
  voff : Nat
  deriving DecidableEq, Inhabited

/-- A variable-KV node of the catalog or of the extent-reference tree. -/
structure BtNode where
  oOid : Nat
  oXid : Nat
  root : Bool
  leaf : Bool
  level : Nat
  ents : List Ent
  deriving DecidableEq, Inhabited

/-- An entry of an object-map node. In an index node `ovPaddr` is the child's block. -/
structure OmapEnt where
  okOid : Nat
  okXid : Nat
  ovPaddr : Nat
  koff : Nat
  voff : Nat
  deriving DecidableEq, Inhabited

structure OmapNode where
  oOid : Nat
  oXid : Nat
  root : Bool
  leaf : Bool
  level : Nat
  ents : List OmapEnt
  deriving DecidableEq, Inhabited

/-- `apfs_omap_phys`: the object that names an object-map tree. -/
structure OmapPhys where
  oOid : Nat
  oXid : Nat
  omTreeOid : Nat
  deriving DecidableEq, Inhabited

/-- `apfs_superblock`, the volume superblock. -/
structure VolSuperblock where
  oOid : Nat
  oXid : Nat
  deriving DecidableEq, Inhabited

/-! ### Space management -/

/-- The three free queues. -/
inductive Sfq where
  | ip | main | tier2
  deriving DecidableEq

structure ChunkInfo where
  ciXid : Nat
  ciAddr : Nat
  ciBlockCount : Nat
  ciFreeCount : Nat
  ciBitmapAddr : Nat
  deriving DecidableEq, Inhabited

structure ChunkInfoBlock where
  oOid : Nat
  oXid : Nat
  cibChunkInfo : List ChunkInfo
  deriving DecidableEq, Inhabited

structure FreeQueue where
  sfqCount : Nat
  sfqTreeOid : Nat
  sfqOldestXid : Nat
  deriving DecidableEq, Inhabited

/-- The space manager: device 0's count and chunk-info address, the pool, the free queues
and the ring of pool bitmaps. -/
structure Spaceman where
  oOid : Nat
  oXid : Nat
  smFreeCount : Nat
  smCibAddr : Nat
  smIpBlockCount : Nat
  smIpBmBlockCount : Nat
  smIpBmBase : Nat
  smIpBase : Nat
  smFq : Sfq → FreeQueue
  smIpBmFreeHead : Nat
  smIpBmFreeTail : Nat
  smIpBmFreeNext : List Nat
  smIpBmXid : Nat
  smIpBitmap : Nat

/-- An entry of a free-queue node. A missing `voff` is the ghost value: a count of one. -/
structure FqEnt where
  xid : Nat
  paddr : Nat
  count : Nat
  koff : Nat
  voff : Option Nat
  deriving DecidableEq, Inhabited

/-- A free-queue tree: one fixed-KV root leaf. The chains list the holes' offsets. -/
structure FqNode where
  oOid : Nat
  oXid : Nat
  tocOff : Nat
  tocLen : Nat
  ents : List FqEnt
  freeOff : Nat
  freeLen : Nat
  keyHoles : List Nat
  valHoles : List Nat
  btKeyCount : Nat
  deriving DecidableEq, Inhabited

/-! ### Checkpoints -/

structure NxSuperblock where
  oXid : Nat
  nxBlockSize : Nat
  nxBlockCount : Nat
  nxNextOid : Nat
  nxNextXid : Nat
  nxXpDescBlocks : Nat
  nxXpDataBlocks : Nat
  nxXpDescBase : Nat
  nxXpDataBase : Nat
  nxXpDescNext : Nat
  nxXpDataNext : Nat
  nxXpDescIndex : Nat
  nxXpDescLen : Nat
  nxXpDataIndex : Nat
  nxXpDataLen : Nat
  nxSpacemanOid : Nat
  nxOmapOid : Nat
  nxFsOid : Nat
  deriving DecidableEq, Inhabited

structure CheckpointMapping where
  cpmType : Nat
  cpmSubtype : Nat
  cpmSize : Nat
  cpmFsOid : Nat
  cpmOid : Nat
  cpmPaddr : Nat
  deriving DecidableEq, Inhabited

structure CheckpointMap where
  oOid : Nat
  oXid : Nat
  cpmLast : Bool
  cpmMap : List CheckpointMapping
  deriving DecidableEq, Inhabited

inductive Block where
  | nxsb (sb : NxSuperblock)
  | cpm (map : CheckpointMap)
  | spaceman (sm : Spaceman)
  | fq (node : FqNode)
  | cib (cib : ChunkInfoBlock)
  | omap (om : OmapPhys)
  | omapNode (node : OmapNode)
  | node (node : BtNode)
  | vsb (vsb : VolSuperblock)
  | object (oXid payload : Nat)
  | bits (bm : Bitmap)
  | data (bytes : Nat → UInt8)
  | torn

/-! ### Mounted state -/

/-- An entry of the table of ephemeral objects. -/
structure Eph where
  eOid : Nat
  ePaddr : Nat
  eFsOid : Nat
  eType : Nat
  eSubtype : Nat
  eSize : Nat
  deriving DecidableEq, Inhabited

/-- `struct apfs_mount`. -/
structure Mount where
  acBlockCount : Nat
  acXid : Nat
  acOmapOid : Nat
  acFsOid : Nat
  acXpDescBase : Nat
  acVolOmapTree : Nat
  acRootTreeBno : Nat
  acCtrOmapTree : Nat
  acVolSbBno : Nat
  acVolOmapBno : Nat
  acRootTreeOid : Nat
  acExtrefBno : Nat
  acFsAllocCount : Nat
  acNextIno : Nat
  acNumFiles : Nat
  acNumDirs : Nat
  acXpDescBlocks : Nat
  acXpDescIndex : Nat
  acXpDescLen : Nat
  acSpacemanOid : Nat
  acDrecHashed : Bool
  acDirty : Bool
  acSbBno : Nat
  acNextXid : Nat
  acNextOid : Nat
  acXpDescNext : Nat
  acXpDataBase : Nat
  acXpDataBlocks : Nat
  acXpDataIndex : Nat
  acXpDataLen : Nat
  acXpDataNext : Nat
  acEph : List Eph
  acEphOver : Nat
  acSmPaddr : Nat
  acSmFree : Nat
  acIpValid : Bool
  acIpBase : Nat
  acIpBlocks : Nat
  acIpbmBase : Nat
  acIpbmSlots : Nat
  acIpbmSlot : Nat
  acAllocHave : Bool
  acAllocCib : Nat
  deriving Inhabited

/-- `struct alloc_chunk`: a chunk of the allocation bitmap held in memory. -/
structure AllocChunk where
  chBm : Bitmap
  chBase : Nat
  chBitmap : Nat
  chBlocks : Nat
  chSlot : Nat
  chDirty : Bool
  deriving Inhabited

/-- `struct fs_apfs_view`: the three things a reader of an older checkpoint descends from. -/
structure View where
  avXid : Nat
  avOmapTree : Nat
  avRootBno : Nat
  deriving DecidableEq, Inhabited

/-- What the drive has been asked and has answered for. -/
inductive IoEvent where
  | write (bno : Nat) (block : Block)
  | flush

/-- The drive under the block cache: what a read returns, the requests it has accepted since
the device was opened (oldest first), and which of the coming requests it will refuse. Past
the end of `refuse` it takes everything. -/
structure Device where
  disk : Nat → Block
  log : List IoEvent
  refuse : List Bool

/-- The driver's memory and the device under it. -/
structure Kern where
  gApfs : Mount
  gSm : Spaceman
  gFq : Sfq → Option FqNode
  gIpbm : Bitmap
  gChunk : List AllocChunk
  gHome : Option Nat
  gCib : ChunkInfoBlock
  fqFloor : Nat
  gView : Option View
  dev : Device

end Style9.Apfs
