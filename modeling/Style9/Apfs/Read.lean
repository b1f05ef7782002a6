import Style9.Apfs.Key
import Style9.Lib.Bisect

/-!
# Reading the volume

`fs_apfs_read_block`, object-map lookups and the three ways the catalog is read: a scan from
a key, the walk of the whole tree, and the descent to the leaf a key belongs in. Interior
nodes name their children by virtual oid, so every step down goes through the object map.
Interpreting a sound block as an object it is not is an error here.
-/
namespace Style9.Apfs

open Style9.Lib

/-! ### Blocks -/

/-- A raw block, or one whose Fletcher-64 does not match, is refused by `fs_apfs_read_block`. -/
def Block.sealed : Block → Bool
  | .bits _ | .data _ | .torn => false
  | _ => true

def readAs {α : Type} (pick : Block → Option α) (disk : Nat → Block) (bno : Nat) : Except Err α :=
  if (disk bno).sealed then
    match pick (disk bno) with
    | some a => .ok a
    | none => .error .inval
  else .error .cksum

def Block.asNode : Block → Option BtNode
  | .node n => some n
  | _ => none

def Block.asOmapNode : Block → Option OmapNode
  | .omapNode n => some n
  | _ => none

def readNode (disk : Nat → Block) (bno : Nat) : Except Err BtNode := readAs Block.asNode disk bno

def readOmapNode (disk : Nat → Block) (bno : Nat) : Except Err OmapNode :=
  readAs Block.asOmapNode disk bno

@[simp] theorem readNode_ok_iff {disk : Nat → Block} {bno : Nat} {n : BtNode} :
    readNode disk bno = .ok n ↔ disk bno = .node n := by
  unfold readNode readAs
  cases disk bno <;> simp [Block.sealed, Block.asNode]

/-! ### Object maps -/

/-- One entry of an object-map node considered by a lookup: the newest version seen so far
and the block it leads to. -/
def omapConsider (leaf : Bool) (oid xid : Nat) (best : Nat × Nat) (k : OmapEnt) : Nat × Nat :=
  if xid < k.okXid then best          -- newer than this checkpoint
  else if leaf then
    if k.okOid ≠ oid ∨ k.okXid < best.1 then best else (k.okXid, k.ovPaddr)
  else if oid < k.okOid then best else (best.1, k.ovPaddr)

/-- Where one node sends a lookup; zero for nowhere. -/
def omapNext (node : OmapNode) (oid xid : Nat) : Nat :=
  (node.ents.foldl (omapConsider node.leaf oid xid) (0, 0)).2

def omapDescend (disk : Nat → Block) (oid xid : Nat) : Nat → Nat → Except Err Nat
  | 0, _ => .error .inval
  | fuel + 1, treeBno =>
    match readOmapNode disk treeBno with
    | .error e => .error e
    | .ok node =>
      if omapNext node oid xid = 0 then .error .inval
      else if node.leaf then .ok (omapNext node oid xid)
      else omapDescend disk oid xid fuel (omapNext node oid xid)

/-- `fs_apfs_omap_lookup`: a descent of at most sixteen levels. -/
def omapLookup (disk : Nat → Block) (treeBno oid xid : Nat) : Except Err Nat :=
  omapDescend disk oid xid 16 treeBno

/-! ### What a read descends from -/

/-- Everything a read of the catalog depends on: the blocks, the object map and the
transaction to look nodes up with, and the order of this volume's keys. -/
structure Reader where
  disk : Nat → Block
  omap : Nat
  xid : Nat
  hashed : Bool

def Reader.child (r : Reader) (e : Ent) : Except Err Nat :=
  omapLookup r.disk r.omap e.val.oid r.xid

/-! ### Searching a node -/

/-- The last entry whose separator is not above the key, or the first. -/
def nodeChildFor (hashed : Bool) (ents : List Ent) (key : Bytes) : Nat :=
  bisect (fun i => (jkeyCmp hashed (ents.getD i default).key key).isLE) ents.length 0
    ents.length - 1

def nodeLower (hashed : Bool) (ents : List Ent) (key : Bytes) : Nat :=
  bisect (fun i => jkeyCmp hashed (ents.getD i default).key key == .lt) ents.length 0 ents.length

/-! ### Scans -/

/-- What a callback is handed: a record and the leaf it lies in. -/
structure CatRec where
  key : Bytes
  val : Val
  bno : Nat
  deriving DecidableEq

/-- A callback over an accumulator; `false` stops the scan. -/
abbrev RecFn (σ : Type) := CatRec → σ → σ × Bool

/-- The callback's accumulator and whether it has stopped the scan. -/
structure Visit (σ : Type) where
  acc : σ
  stopped : Bool

def scanLeaf {σ : Type} (fn : RecFn σ) (bno : Nat) : List Ent → Visit σ → Visit σ
  | [], v => v
  | e :: rest, v =>
    if v.stopped then v
    else
      let out := fn ⟨e.key, e.val, bno⟩ v.acc
      scanLeaf fn bno rest ⟨out.1, !out.2⟩

/-- The children of an index node from the first one wanted; the key prunes only that one. -/
def scanIndex {σ : Type} (child : Ent → Except Err Nat)
    (down : Nat → Option Bytes → Visit σ → Bool × Visit σ) (key : Option Bytes) :
    List Ent → Visit σ → Bool × Visit σ
  | [], v => (true, v)
  | e :: rest, v =>
    if v.stopped then (true, v)
    else
      match child e with
      | .error _ => (false, v)
      | .ok bno =>
        match down bno key v with
        | (true, v') => scanIndex child down none rest v'
        | (false, v') => (false, v')

/-- Where a scan enters a node. -/
def scanFirst (hashed : Bool) (node : BtNode) : Option Bytes → Nat
  | none => 0
  | some key =>
    if node.leaf then nodeLower hashed node.ents key else nodeChildFor hashed node.ents key

/-- `btree_scan` below `fuel` more levels. -/
def scanFrom {σ : Type} (r : Reader) (fn : RecFn σ) :
    Nat → Nat → Option Bytes → Visit σ → Bool × Visit σ
  | 0, _, _, v => (false, v)
  | fuel + 1, bno, key, v =>
    match readNode r.disk bno with
    | .error _ => (false, v)
    | .ok node =>
      let wanted := node.ents.drop (scanFirst r.hashed node key)
      if node.leaf then (true, scanLeaf fn bno wanted v)
      else scanIndex r.child (scanFrom r fn fuel) key wanted v

/-- `btree_scan` from depth zero; it refuses to go below depth eight. -/
def btreeScan {σ : Type} (r : Reader) (bno : Nat) (key : Option Bytes) (fn : RecFn σ) (acc : σ) :
    Bool × Visit σ :=
  scanFrom r fn 9 bno key ⟨acc, false⟩

/-- `btree_walk`: every record, in order. -/
def btreeWalk {σ : Type} (r : Reader) (bno : Nat) (fn : RecFn σ) (acc : σ) : Bool × Visit σ :=
  btreeScan r bno none fn acc

/-! ### The leaf a key belongs in -/

def homeFrom (r : Reader) (key : Bytes) : Nat → Nat → Except Err Nat
  | 0, _ => .error .io
  | fuel + 1, bno =>
    match readNode r.disk bno with
    | .error e => .error e
    | .ok node =>
      if node.leaf then .ok bno
      else if node.ents.isEmpty then .error .io
      else
        match r.child (node.ents.getD (nodeChildFor r.hashed node.ents key) default) with
        | .error e => .error e
        | .ok next => homeFrom r key fuel next

/-- `leaf_home`: the descent, stopped at the leaf. -/
def leafHome (r : Reader) (root : Nat) (key : Bytes) : Except Err Nat :=
  homeFrom r key apfsTreeMaxDepth root

/-- `struct leaf_find`, without the key it is asked about. -/
structure LeafFind where
  lfBno : Option Nat
  lfFirst : Option Nat
  deriving DecidableEq

/-- The callback by which a walk answers what `leaf_home` answers by descent. -/
def leafFind (hashed : Bool) (key : Bytes) : RecFn LeafFind := fun rec lf =>
  ({ lfBno := if (jkeyCmp hashed rec.key key).isLE then some rec.bno else lf.lfBno
     lfFirst := if lf.lfFirst.isNone then some rec.bno else lf.lfFirst }, true)

/-- The leaf a walk with `leaf_find` settles on. -/
def LeafFind.leaf (lf : LeafFind) : Option Nat := lf.lfBno.or lf.lfFirst

end Style9.Apfs
