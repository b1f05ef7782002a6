import Style9.Lib.Hoare
import Style9.Apfs.Types

/-!
# Rewriting a file, by its records

A write moves each run it touches to fresh blocks. It changes a leaf of the catalog, the extent
reference tree, and the object maps and superblocks above them. The extent reference tree is here
with its records: a root that is its own leaf, or an index over leaves. The other trees are the
blocks their nodes are kept in: an edit copies the nodes on its path and gives the old blocks back,
one by one, and what names the first of them is changed at the end.

Which nodes are on a path, where the next allocation lands, and which of the coming requests are
refused, is given with the volume, so that every choice of an allocator and every point of failure
is a volume of its own. The container's allocator makes such choices (`Apfs.Grants`).
-/
namespace Style9.Apfs.Runs

open Style9.Lib Act

def apfsWriteExtentsMax : Nat := 8

/-- What is kept in a block of its own. -/
inductive Slot where
  | catalogNode (oid : Nat)
  /-- `ac_extref_bno`. -/
  | extrefRoot
  | volOmapNode (i : Nat)
  | volOmap
  | volSb
  | ctrOmapNode (i : Nat)
  | ctrOmap
  deriving DecidableEq

/-- A file extent record and the leaf it lies in; block zero stands for a hole. -/
structure FileRun where
  id : Nat
  logical : Nat
  len : Nat
  phys : Nat
  leaf : Nat
  deriving DecidableEq

/-- A record of the extent reference tree; the length is in blocks. -/
structure PhysRun where
  start : Nat
  len : Nat
  refcnt : Int
  deriving DecidableEq

/-- A leaf under the root of the extent reference tree: its block, the key the root has for it, and
its records. -/
structure ExtrefLeaf where
  bno : Nat
  sep : Nat
  recs : List PhysRun
  deriving DecidableEq

/-- The extent reference tree. This writer walks two levels; of a deeper tree, or one whose entries
are all of one size, it says so and stops. -/
inductive Extref where
  | leaf (recs : List PhysRun)
  | index (kids : List ExtrefLeaf)
  | other
  deriving DecidableEq

namespace FileRun

def blocks (r : FileRun) : Nat := (r.len + apfsBlockSize - 1) / apfsBlockSize

def covers (r : FileRun) (id i : Nat) : Bool :=
  r.id = id && decide (r.logical ≤ i ∧ i < r.logical + r.len)

def blockList (r : FileRun) : List Nat := if r.phys = 0 then [] else List.range' r.phys r.blocks

end FileRun

/-- The volume. `grants` says where the coming allocations land or that they are refused, `refuse`
which of the other requests (memory, a block read or written, room in a node, a place in a free
queue) are. -/
structure Vol where
  runs : List FileRun
  extref : Extref
  slots : List Slot
  place : Slot → Nat
  /-- What `spine_update` copies when some catalog nodes have moved. -/
  spinePath : List Nat → List Slot
  used : Nat → Bool
  /-- The blocks in the free queues. -/
  queue : List Nat
  data : Nat → Nat → UInt8
  acFsAllocCount : Nat
  grants : List (Option Nat)
  refuse : List Bool

abbrev VolOp : Type → Type := Act Vol Err

/-! ### Blocks -/

def granted : VolOp Bool := fun v =>
  match v.refuse with
  | refused :: rest => (.ok !refused, { v with refuse := rest })
  | [] => (.ok true, v)

def grantedOr (e : Err) : VolOp Unit := do
  if ← granted then pure () else fail e

variable (v : Vol)

def Vol.take (first n : Nat) : Vol :=
  { v with used := fun b => v.used b || (decide (first ≤ b) && decide (b < first + n)) }

def allocBlocks (n : Nat) : VolOp Nat := fun v =>
  match v.grants with
  | some first :: rest =>
    if (List.range' first n).all fun b => !v.used b then
      (.ok first, { v.take first n with grants := rest })
    else (.error .noAlloc, { v with grants := rest })
  | _ :: rest => (.error .noAlloc, { v with grants := rest })
  | [] => (.error .noAlloc, v)

def freeBlocks (b n : Nat) : VolOp Unit := do
  grantedOr .noAlloc
  modify fun v => { v with queue := v.queue ++ List.range' b n }

/-! ### Nodes -/

/-- `cow_physical` and `node_cow` from where they have their block. -/
def copyOver (new old : Nat) : VolOp Unit := do
  onFail (grantedOr .io) (ignore (freeBlocks new 1))
  freeBlocks old 1

/-- `cow_physical` and `node_cow`, which differ in the header they write. -/
def nodeCow (old : Nat) : VolOp Nat := do
  let new ← allocBlocks 1
  copyOver new old
  pure new

/-- Copies of some nodes, each written before its old block is given back; no one is told yet. -/
def cowAll : List Slot → VolOp (List (Slot × Nat))
  | [] => pure []
  | slot :: rest => do
    let old ← read fun v => v.place slot
    let new ← nodeCow old
    let more ← cowAll rest
    pure ((slot, new) :: more)

def Vol.publish (moves : List (Slot × Nat)) : Vol :=
  { v with
    place := moves.foldl (fun place move => Function.update place move.1 move.2) v.place }

/-- `spine_update`: the object map has to know what moved; it and the objects above it are copied,
and believed all together. -/
def spineUpdate (oid paddr : Nat) : VolOp Unit := do
  let known ← read fun v => decide (.catalogNode oid ∈ v.slots)
  if !known then fail .notFound
  else do
    let path ← read fun v => v.spinePath [oid]
    let moves ← cowAll path
    modify fun v => v.publish ((.catalogNode oid, paddr) :: moves)

/-! ### The extent reference tree -/

/-- The slot of the last child whose key is no greater; the first child's key is not asked. -/
def extrefSlot (kids : List ExtrefLeaf) (start : Nat) : Nat :=
  (kids.tail.takeWhile (·.sep ≤ start)).length

/-- `extref_descend`: the tree as it was read, and the slot of the leaf for a block where there is
an index. -/
def extrefDescend (start : Nat) : VolOp (Extref × Nat) := do
  let root ← read fun v => v.place .extrefRoot
  if root = 0 then fail .notFound
  else do
    grantedOr .io
    match ← read Vol.extref with
    | .other => fail .inval
    | .leaf recs => pure (.leaf recs, 0)
    | .index kids =>
      if kids.isEmpty then fail .inval
      else do
        grantedOr .io
        pure (.index kids, extrefSlot kids start)

/-- The records of the node a descent led to. -/
def Extref.recs : Extref → Nat → List PhysRun
  | .leaf recs, _ => recs
  | .index kids, slot => ((kids[slot]?).map ExtrefLeaf.recs).getD []
  | .other, _ => []

def cowExtrefRoot (tree : Extref) : VolOp Unit := do
  let old ← read fun v => v.place .extrefRoot
  let new ← nodeCow old
  modify fun v => { v.publish [(.extrefRoot, new)] with extref := tree }

/-- A leaf written back: its key in the root is that of its first record, if it has one. -/
def ExtrefLeaf.settled (recs : List PhysRun) (bno : Nat) (kid : ExtrefLeaf) : ExtrefLeaf :=
  ⟨bno, (recs.head?.map PhysRun.start).getD kid.sep, recs⟩

/-- `extref_settle`: the leaf at a slot with its new records, and the root over it. -/
def extrefSettle (tree : Extref) (slot : Nat) (recs : List PhysRun) : VolOp Unit :=
  match tree with
  | .index kids => do
    let new ← nodeCow (((kids[slot]?).map ExtrefLeaf.bno).getD 0)
    cowExtrefRoot (.index (kids.modify slot (ExtrefLeaf.settled recs new)))
  | _ => cowExtrefRoot (.leaf recs)

def physKey (recs : List PhysRun) (i : Nat) : Nat := ((recs[i]?).map PhysRun.start).getD 0

/-- `extref_grow_level`: a root that is its own leaf divides, and names the halves. -/
def extrefGrowLevel : VolOp Unit := do
  grantedOr .nomem
  grantedOr .io
  match ← read Vol.extref with
  | .leaf recs =>
    if recs.length < 2 then fail .inval
    else do
      let half := recs.length / 2
      let lo ← allocBlocks 1
      let hi ← onFail (allocBlocks 1) (ignore (freeBlocks lo 1))
      onFail (do
        grantedOr .io
        cowExtrefRoot (.index [⟨lo, physKey recs 0, recs.take half⟩,
          ⟨hi, physKey recs half, recs.drop half⟩]))
        fun v => ignore (freeBlocks hi 1) (ignore (freeBlocks lo 1) v)
      modify fun v => { v with acFsAllocCount := v.acFsAllocCount + 2 }
  | _ => fail .inval

/-- `extref_split_leaf`: the upper half of a leaf in a node of its own, which the root may have no
room for. -/
def extrefSplitLeaf (start : Nat) : VolOp Unit := do
  grantedOr .nomem
  match ← extrefDescend start with
  | (.index kids, slot) =>
    let recs := (Extref.index kids).recs slot
    if recs.length < 2 then fail .inval
    else do
      let half := recs.length / 2
      let hi ← allocBlocks 1
      onFail (do
        grantedOr .io
        grantedOr .noAlloc) (ignore (freeBlocks hi 1))
      extrefSettle (.index (kids.insertIdx (slot + 1) ⟨hi, physKey recs half, recs.drop half⟩)) slot
        (recs.take half)
      modify fun v => { v with acFsAllocCount := v.acFsAllocCount + 1 }
  | _ => fail .inval

def insertPhysRun (pv : PhysRun) (recs : List PhysRun) : List PhysRun :=
  recs.takeWhile (·.start ≤ pv.start) ++ pv :: recs.dropWhile (·.start ≤ pv.start)

/-- One turn of the loop of `extref_insert_pv`; `full` is what to do about a node without room. -/
def extrefInsertOnce (pv : PhysRun) (full : Extref → VolOp Unit) : VolOp Unit := do
  let (tree, slot) ← extrefDescend pv.start
  if ← granted then extrefSettle tree slot (insertPhysRun pv (tree.recs slot)) else full tree

/-- A full node divides or splits. -/
def extrefMakeRoom (start : Nat) : Extref → VolOp Unit
  | .index _ => extrefSplitLeaf start
  | _ => extrefGrowLevel

def extrefInsertLoop (pv : PhysRun) : Nat → VolOp Unit
  | 0 => extrefInsertOnce pv fun _ => fail .noAlloc
  | tries + 1 => extrefInsertOnce pv fun tree => do
    extrefMakeRoom pv.start tree
    extrefInsertLoop pv tries

def extrefInsertPv (pv : PhysRun) : VolOp Unit := do
  grantedOr .nomem
  extrefInsertLoop pv 2

/-- A leaf with nothing in it leaves the tree; a root left with no child is its own leaf again. -/
def extrefDrop (kids : List ExtrefLeaf) (slot : Nat) : VolOp Unit := do
  freeBlocks (((kids[slot]?).map ExtrefLeaf.bno).getD 0) 1
  cowExtrefRoot (if 1 < kids.length then .index (kids.eraseIdx slot) else .leaf [])
  modify fun v => { v with acFsAllocCount := v.acFsAllocCount - 1 }

/-- `extref_shrink`, of a run that has lost all its blocks. -/
def extrefShrink (start : Nat) : VolOp Unit := do
  grantedOr .nomem
  let (tree, slot) ← extrefDescend start
  match (tree.recs slot).find? (·.start = start) with
  | none => fail .notFound
  | some pv =>
    if pv.refcnt ≠ 1 then fail .noAlloc
    else
      let recs := (tree.recs slot).eraseP (·.start = start)
      match tree with
      | .index kids => if recs.isEmpty then extrefDrop kids slot else extrefSettle tree slot recs
      | _ => extrefSettle tree slot recs

/-- The key of a block belongs in another leaf. -/
def Extref.elsewhere (slot start : Nat) : Extref → Bool
  | .index kids => extrefSlot kids start ≠ slot
  | _ => false

/-- `extref_move`: within one leaf the record is re-sorted, across two it goes out of one and into
the other. -/
def extrefMove (oldStart newStart blocks : Nat) : VolOp Unit := do
  grantedOr .nomem
  let (tree, slot) ← extrefDescend oldStart
  match (tree.recs slot).find? (·.start = oldStart) with
  | none => fail (if (tree.recs slot).isEmpty then .inval else .notFound)
  | some pv =>
    let moved := { pv with start := newStart }
    if pv.len ≠ blocks then fail .inval
    else if tree.elsewhere slot newStart then do
      extrefShrink oldStart
      extrefInsertPv moved
    else
      extrefSettle tree slot (insertPhysRun moved ((tree.recs slot).eraseP (·.start = oldStart)))

/-! ### Writing -/

/-- What a write of `buf` at `wlo` up to `whi` makes of a byte. -/
def rewritten (buf : Nat → UInt8) (wlo whi i : Nat) (old : UInt8) : UInt8 :=
  if wlo ≤ i ∧ i < whi then buf (i - wlo) else old

variable (el : FileRun)

/-- One turn of the loop of `extent_relocate` that copies the run: a block is read whole and written
whole, and the window decides which bytes are replaced on the way. -/
def copyBlock (first : Nat) (buf : Nat → UInt8) (wlo whi b : Nat) : VolOp Unit := do
  grantedOr .io
  grantedOr .io
  modify fun v => { v with
    data := Function.update v.data (first + b) fun j =>
      rewritten buf wlo whi (el.logical + b * apfsBlockSize + j) (v.data (el.phys + b) j) }

def copyBlocks (first : Nat) (buf : Nat → UInt8) (wlo whi : Nat) : List Nat → VolOp Unit
  | [] => pure ()
  | b :: rest => do
    copyBlock el first buf wlo whi b
    copyBlocks first buf wlo whi rest

/-- The record of a run that moved, found by its key. -/
def FileRun.moved (first : Nat) (r : FileRun) : FileRun :=
  if r.id = el.id ∧ r.logical = el.logical then { r with phys := first } else r

/-- How a write fails: it refuses the range itself, or reading or moving a run fails. -/
inductive PwriteFail where
  | refused
  | failed (rv : Err)
  deriving DecidableEq

def orFail {α : Type} (x : VolOp α) : Act Vol PwriteFail α := fun v =>
  match x v with
  | (.ok a, v') => (.ok a, v')
  | (.error e, v') => (.error (.failed e), v')

/-- The run copied, and the leaf; the old leaf is given back. Where this fails the fresh run goes
back. -/
def relocateLeaf (first : Nat) (buf : Nat → UInt8) (wlo whi : Nat) : VolOp Nat :=
  onFail (do
    copyBlocks el first buf wlo whi (List.range el.blocks)
    grantedOr .io
    let old ← read fun v => v.place (.catalogNode el.leaf)
    nodeCow old) (ignore (freeBlocks first el.blocks))

def extentRelocate (buf : Nat → UInt8) (wlo whi : Nat) : VolOp Unit := do
  if el.blocks = 0 ∨ 0xFFFFFFFF < el.blocks then fail .inval
  else do
    let first ← allocBlocks el.blocks
    let newLeaf ← relocateLeaf el first buf wlo whi
    extrefMove el.phys first el.blocks
    spineUpdate el.leaf newLeaf
    modify fun v => { v with runs := v.runs.map (el.moved first) }
    freeBlocks el.phys el.blocks

/-- The loop of `fs_apfs_pwrite`, from a file offset on, with so many extents left to move. -/
def pwriteLoop (id off stop : Nat) (buf : Nat → UInt8) : Nat → Nat → Act Vol PwriteFail Unit
  | 0, pos => if pos < stop then fail .refused else pure ()
  | more + 1, pos =>
    if pos < stop then do
      orFail (grantedOr .io)
      match ← read fun v => v.runs.find? (·.covers id pos) with
      | none => fail .refused
      | some el =>
        if el.phys = 0 then fail .refused
        else do
          orFail (extentRelocate el buf off stop)
          pwriteLoop id off stop buf more (el.logical + el.len)
    else pure ()

/-- The end of a range, a word. -/
def rangeEnd (off len : Nat) : Nat := (off + len) % 2 ^ 64

/-- `fs_apfs_pwrite`, of a mounted volume: the bytes put. -/
def fsApfsPwrite (id size off : Nat) (buf : Nat → UInt8) (len : Nat) : Act Vol PwriteFail Nat := do
  if len = 0 then pure 0
  else if size ≤ off ∨ size < rangeEnd off len then fail .refused
  else do
    orFail (grantedOr .nomem)
    pwriteLoop id off (rangeEnd off len) buf apfsWriteExtentsMax off
    pure len

/-- A byte of a file as `fs_apfs_pread` finds it: zero in a hole and where there is no record. -/
def Vol.byteAt (id i : Nat) : UInt8 :=
  match v.runs.reverse.find? (·.covers id i) with
  | none => 0
  | some r =>
    if r.phys = 0 then 0
    else v.data (r.phys + (i - r.logical) / apfsBlockSize) ((i - r.logical) % apfsBlockSize)

end Style9.Apfs.Runs
