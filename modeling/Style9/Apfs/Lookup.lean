import Style9.Apfs.Descent
import Style9.Apfs.Names
import Style9.Kern.Paths

/-!
# Looking a path up

`fs_apfs_lookup` descends on the key of each component and looks at the first record it is handed,
or walks the whole tree for a name that has no key. Where every entry is filed under the key of its
name, both find the same.
-/
namespace Style9.Apfs

open Style9.Lib List

def apfsRootDirIno : Nat := 2
def apfsDtDir : Nat := 4
def apfsDrecValSize : Nat := 18

/-- The bytes of a value that is not of one of the other kinds. -/
def Val.raw : Val → Bytes
  | .other bytes => bytes
  | _ => []

/-- `ds_found` and `ds_is_dir` of `struct dirent_search`. -/
structure Found where
  dsFound : Nat
  dsIsDir : Bool
  deriving DecidableEq

/-- The record is the entry of this name. -/
def direntHit (hashed : Bool) (parent : Nat) (name : Bytes) (rec : CatRec) : Bool :=
  jType rec.key = apfsTypeDirRec ∧ jId rec.key = parent ∧ apfsDrecValSize ≤ rec.val.raw.length ∧
    drecName hashed rec.key = some name

/-- Anything else stops a scan that was keyed. -/
def direntMatch (keyed : Bool) (hit : CatRec → Bool) : RecFn Found := fun rec ds =>
  if hit rec then (⟨rdLe 8 rec.val.raw 0, rdLe 2 rec.val.raw 16 % 16 = apfsDtDir⟩, false)
    else (ds, !keyed)

/-- What the scan for one component gives. -/
def direntResult : Bool × Visit Found → Except Err Found
  | (ok, v) => if !ok then .error .io else if v.acc.dsFound = 0 then .error .notFound else .ok v.acc

/-- The search for one component: a descent on its key if it has one. -/
def direntSearch (r : Reader) (root oid : Nat) (comp : Bytes) : Except Err Found :=
  direntResult (match drecKey r.hashed oid comp with
    | some key =>
      btreeScan r root (some key) (direntMatch true (direntHit r.hashed oid comp)) ⟨0, false⟩
    | none => btreeWalk r root (direntMatch false (direntHit r.hashed oid comp)) ⟨0, false⟩)

/-- The loop over the components of a path; a file has no children. -/
def lookupPath (search : Nat → Bytes → Except Err Found) (path : Bytes) : Except Err Found :=
  (Kern.Paths.components path).foldlM
    (fun ds comp => if !ds.dsIsDir then .error .notFound
      else search ds.dsFound comp) ⟨apfsRootDirIno, true⟩

def fsApfsLookup (r : Reader) (root : Nat) : Bytes → Except Err Found :=
  lookupPath (direntSearch r root)

/-- The search without keys. -/
def direntWalk (r : Reader) (root oid : Nat) (comp : Bytes) : Except Err Found :=
  direntResult (btreeWalk r root (direntMatch false (direntHit r.hashed oid comp)) ⟨0, false⟩)

/-- Every entry with a name that has a key is filed under it. -/
def Filed (hashed : Bool) (recs : List CatRec) : Prop :=
  ∀ rec ∈ recs, jType rec.key = apfsTypeDirRec → ∀ name key, drecName hashed rec.key = some name →
    drecKey hashed (jId rec.key) name = some key → rec.key = key

variable {hit below upTo : CatRec → Bool} {recs : List CatRec}

theorem feed_miss (v : Found) (none : ∀ rec ∈ recs, hit rec = false) :
    (feed (direntMatch false hit) recs ⟨v, false⟩).acc = v := by
  induction recs with
  | nil => rfl
  | cons rec rest ih =>
    obtain ⟨miss, none⟩ := forall_mem_cons.mp none
    simpa [feed, direntMatch, miss] using ih none

/-- The entry of a name is the first record that is not below its key. -/
theorem feed_keyed (v : Found) (before : recs.Pairwise fun a b => upTo b = true → below a = true)
    (entry : ∀ rec ∈ recs, hit rec = true → below rec = false ∧ upTo rec = true) :
    (feed (direntMatch true hit) (recs.dropWhile below) ⟨v, false⟩).acc =
      (feed (direntMatch false hit) recs ⟨v, false⟩).acc := by
  induction recs with
  | nil => rfl
  | cons rec rest ih =>
  obtain ⟨first, before⟩ := pairwise_cons.mp before
  obtain ⟨here, later⟩ := forall_mem_cons.mp entry
  cases under : below rec with
  | true =>
    have miss : hit rec = false := by grind
    simpa [dropWhile, under, feed, direntMatch, miss] using ih before later
  | false =>
  have none : ∀ other ∈ rest, hit other = false := by grind
  cases found : hit rec with
  | true => simp [dropWhile, under, feed, direntMatch, found, feed_stopped]
  | false => simpa [dropWhile, under, feed, direntMatch, found, feed_stopped]
    using (feed_miss v none).symm

/-- A lookup that descends on the keys of the names finds what a walk over the whole tree finds, for
every path. -/
theorem lookup_eq_walk (r : Reader) {n : Nat} (t : Tree n) (depth : n < 9) (stored : t.Stored r)
    (exact : t.Exact)
    (sorted : t.recs.IsChain fun a b => jkeyCmp r.hashed a.key b.key = .lt)
    (filed : Filed r.hashed t.recs)
    (path : Bytes) : fsApfsLookup r t.bno path = lookupPath (direntWalk r t.bno) path := by
  suffices same : direntSearch r t.bno = direntWalk r t.bno by rw [fsApfsLookup, same]
  funext oid comp
  unfold direntSearch direntWalk
  cases built : drecKey r.hashed oid comp with
  | none => rfl
  | some key =>
  have cut := cut_of_sorted sorted (drecKey_ordered built)
  have entry : ∀ rec ∈ t.recs, direntHit r.hashed oid comp rec = true →
      recBelow r.hashed key rec = false ∧ recUpTo r.hashed key rec = true := by
    intro rec member hit
    obtain ⟨type, rfl, -, name⟩ := of_decide_eq_true hit
    rw [recBelow, recUpTo, filed rec member type comp key name built, jkeyCmp_self]
    exact ⟨rfl, rfl⟩
  simp only [btreeWalk, btreeScan, scanFrom_none r _ t stored 9 depth,
    scanFrom_some r _ key t stored exact cut 9 depth,
    direntResult, feed_keyed _ cut.before entry]

theorem filed_of_key {hashed : Bool}
    (own : ∀ rec ∈ recs,
      (drecName hashed rec.key).bind (drecKey hashed (jId rec.key)) = some rec.key) :
    Filed hashed recs := by
  intro rec member _ name key named built
  have same := own rec member
  rw [named, Option.bind_some, built] at same
  exact (Option.some.inj same).symm

/-- The record of a name in a directory. -/
def nameEnt (dir : Nat) (name : Bytes) (ino type : Nat) : Ent :=
  ⟨drecBytes false dir (name.length + 1) (name ++ [0]),
    .other (leBytes 16 ino ++ leBytes 2 type), 0, 0⟩

def dirLeaf : Tree 0 := (⟨11, [nameEnt 2 [97] 5 4, nameEnt 2 [98] 6 8]⟩ : LeafShape)

def dirLeafAfter : Tree 0 := (⟨12, [nameEnt 2 [99] 7 8, nameEnt 5 [120] 8 8]⟩ : LeafShape)

/-- The root has a directory `a` and files `b` and `c`, and `a` has a file `x`. -/
def dirTree : Tree 1 :=
  (⟨10, [({ nameEnt 2 [97] 0 0 with val := .child 101 }, dirLeaf),
    ({ nameEnt 2 [99] 0 0 with val := .child 102 }, dirLeafAfter)]⟩ : IndexShape (Tree 0))

def dirReader : Reader where
  disk
    | 10 => .node { (default : BtNode) with leaf := false, ents := dirTree.ents }
    | 11 => .node { (default : BtNode) with leaf := true, ents := dirLeaf.ents }
    | 12 => .node { (default : BtNode) with leaf := true, ents := dirLeafAfter.ents }
    | _ => .omapNode { (default : OmapNode) with
        leaf := true, ents := [⟨101, 1, 11, 0, 0⟩, ⟨102, 1, 12, 0, 0⟩] }
  omap := 20
  xid := 1
  hashed := false

/-- The path `/a/x`: the first name is in one leaf, the second in the other behind another name. -/
theorem lookup_eq_walk_two :
    lookupPath (direntWalk dirReader 10) [47, 97, 47, 120] = .ok ⟨8, false⟩ ∧
    fsApfsLookup dirReader 10 [47, 97, 47, 120] =
      lookupPath (direntWalk dirReader 10) [47, 97, 47, 120] := by
  refine ⟨by decide +kernel, lookup_eq_walk dirReader dirTree (by decide) ?_ ?_
    (by decide +kernel) (filed_of_key (by decide +kernel)) _⟩
  · refine ⟨⟨_, rfl, rfl, rfl⟩, forall_mem_cons.mpr ⟨⟨by decide +kernel, _, rfl, rfl, rfl⟩, ?_⟩⟩
    exact forall_mem_singleton.mpr ⟨by decide +kernel, _, rfl, rfl, rfl⟩
  · exact ⟨by simp [dirTree, Tree.kids],
      forall_mem_cons.mpr ⟨⟨rfl, trivial⟩, forall_mem_singleton.mpr ⟨rfl, trivial⟩⟩⟩

end Style9.Apfs
