import Style9.Apfs.Rewrite

/-!
# Committing an edit of several leaves

A writer names the leaves of the catalog it will touch, reads them all, edits them in memory and
commits. The commit goes through its list in order: a leaf that still holds records is copied, one
that has emptied is given back. What `edit_moved` says afterwards is whether a copy was begun, and
by that the writers tell a commit that was refused from one that broke.
-/
namespace Style9.Apfs.Runs

open Style9.Lib Act List Prod

/-- One leaf of an edit: its block and its oid, its copy once there is one (zero before, in the
source), and whether it has left the tree. -/
structure EditLeaf where
  leBno : Nat
  leOid : Nat
  leNew : Option Nat
  leGone : Bool
  deriving DecidableEq

/-- `struct leaf_edit`; `leRoot` is the slot of the root, or past the end. -/
structure LeafEdit where
  leaves : List EditLeaf
  leRoot : Nat

variable (ne : LeafEdit)

def editMoved : Bool := ne.leaves.any (·.leNew.isSome)

/-- A volume with its catalog. Where the catalog's root is, `ac_root_tree_bno`, is the place of its
oid; `omapRoom` is how many more entries the object map can hold. -/
structure Cat where
  vol : Vol
  acRootTreeOid : Nat
  omapRoom : Nat
  acNumFiles : Nat

abbrev CatOp : Type → Type := Act Cat Err

def onVol {ε α : Type} (x : Act Vol ε α) : Act Cat ε α :=
  fun c => ((x c.vol).1, { c with vol := (x c.vol).2 })

abbrev EditOp : Type → Type := Act (LeafEdit × Cat) Err

def onCat {α : Type} (x : CatOp α) : EditOp α := fun s => ((x s.2).1, s.1, (x s.2).2)

/-! ### The commit -/

def EditLeaf.Named (v : Vol) (leaf : EditLeaf) : Prop :=
  .catalogNode leaf.leOid ∈ v.slots ∧ leaf.leBno = v.place (.catalogNode leaf.leOid) ∧
    leaf.leNew = none

/-- What `edit_reindex` makes of an edit: all in memory, it may refuse, let parents join, and take
emptied leaves out of the tree. -/
structure Reindex where
  run : Vol → LeafEdit → Except Err LeafEdit
  named : ∀ {v ne ne'}, run v ne = .ok ne' → (∀ leaf ∈ ne.leaves, leaf.Named v) →
    ∀ leaf ∈ ne'.leaves, leaf.Named v

/-- A leaf copied; the copy is in the edit from the moment it has a block. -/
def copyLeaf (i : Nat) (leaf : EditLeaf) : EditOp Unit := do
  let new ← onCat (onVol (allocBlocks 1))
  modify fun s =>
    ({ s.1 with leaves := s.1.leaves.modify i fun leaf => { leaf with leNew := some new } }, s.2)
  onCat (onVol (copyOver new leaf.leBno))

/-- One turn of the loop. -/
def editCopyOne (i : Nat) : EditOp Unit := do
  match ← read fun s => s.1.leaves[i]? with
  | none => pure ()
  | some leaf => if leaf.leGone then onCat (onVol (freeBlocks leaf.leBno 1)) else copyLeaf i leaf

def editCopy : List Nat → EditOp Unit
  | [] => pure ()
  | i :: rest => do
    editCopyOne i
    editCopy rest

/-- `spine_update_n`: the object map has to know what moved and what is gone, and to have room for
what is new, before its node and the objects above it are copied. -/
def spineUpdateN (moved : List (Nat × Nat)) (gone : List Nat)
    (new : List (Nat × Nat)) : CatOp Unit := do
  let known ← read fun c => (moved.map fst ++ gone).all fun oid => .catalogNode oid ∈ c.vol.slots
  let room ← read Cat.omapRoom
  if !known then fail .notFound
  else if room + gone.length < new.length then fail .noAlloc
  else do
    let path ← read fun c => c.vol.spinePath (moved.map fst)
    let moves ← onVol (cowAll path)
    modify fun c => { c with
      omapRoom := room + gone.length - new.length
      vol := { c.vol.publish (moves ++ (moved ++ new).map fun move =>
        (.catalogNode move.1, move.2)) with
        slots := (c.vol.slots.filter fun slot => !(gone.map Slot.catalogNode).contains slot) ++
          new.map fun move => .catalogNode move.1 } }

/-- What the object map is told of the leaves. -/
def LeafEdit.moved : List (Nat × Nat) :=
  ne.leaves.filterMap fun leaf => leaf.leNew.map fun new => (leaf.leOid, new)

def LeafEdit.gone : List Nat := (ne.leaves.filter (·.leGone)).map (·.leOid)

/-- The root, by its new place from now on; one that was not part of the edit is copied for its
counts alone. -/
def editRoot : CatOp (List (Nat × Nat)) := do
  let oid ← read Cat.acRootTreeOid
  match ne.leaves[ne.leRoot]? with
  | some root => do
    modify fun c => { c with vol := c.vol.publish [(.catalogNode oid, root.leNew.getD 0)] }
    pure []
  | none => do
    onVol (grantedOr .io)
    let old ← read fun c => c.vol.place (.catalogNode oid)
    let new ← onVol (nodeCow old)
    modify fun c => { c with vol := c.vol.publish [(.catalogNode oid, new)] }
    pure [(oid, new)]

/-- What `edit_commit` does once the leaves are copied. -/
def editFinish : EditOp Unit := do
  let ne ← read fst
  onCat do
    let root ← editRoot ne
    modify fun c =>
      { c with vol := { c.vol with acFsAllocCount := c.vol.acFsAllocCount - ne.gone.length } }
    spineUpdateN (ne.moved ++ root) ne.gone []

def editCommit (reindex : Reindex) : EditOp Unit := do
  let ne ← lift fun s => reindex.run s.2.vol s.1
  modify fun s => (ne, s.2)
  editCopy (range ne.leaves.length)
  editFinish

/-! ### Refused before anything moved -/

/-- Nothing but what is still to be granted or refused is different. -/
def Cat.Untouched (c c' : Cat) : Prop :=
  ∃ grants refuse, c' = { c with vol := { c.vol with grants := grants, refuse := refuse } }

variable {c c' : Cat} {ne ne' : LeafEdit} {e : Err}

theorem allocBlocks_untouched {n : Nat} {v v' : Vol} (run : allocBlocks n v = (.error e, v')) :
    v' = { v with grants := v'.grants } := by
  unfold allocBlocks at run
  split at run
  · split at run
    · cases run
    · cases run; rfl
  · cases run; rfl
  · cases run; rfl

theorem onCat_keeps {α : Type} (P : LeafEdit → Prop) (x : CatOp α) :
    (onCat x).Keeps fun s => P s.1 := fun _ holds => holds

theorem copyLeaf_cases {i : Nat} {leaf : EditLeaf} {s s' : LeafEdit × Cat} {out : Except Err Unit}
    (bound : i < s.1.leaves.length)
    (run : copyLeaf i leaf s = (out, s')) :
    editMoved s'.1 = true ∨ out ≠ .ok () ∧ s'.1 = s.1 ∧ s.2.Untouched s'.2 := by
  rcases bind_cases run with ⟨e, refused, rfl⟩ | ⟨new, t, taken, run⟩
  · obtain ⟨failed, rfl⟩ := Prod.mk.inj refused
    have same := allocBlocks_untouched (Prod.ext failed rfl)
    refine .inr ⟨fun wrong => (by cases wrong), rfl, (allocBlocks 1 s.2.vol).2.grants,
      s.2.vol.refuse, ?_⟩
    exact congrArg (fun v => { s.2 with vol := v }) same
  -- From here on the leaf has its copy, however the rest ends.
  obtain ⟨-, rfl⟩ := mk.inj taken
  obtain ⟨-, rfl⟩ := mk.inj run
  left
  have copied : (s.1.leaves.modify i fun leaf => { leaf with leNew := some new })[i]? =
      some { s.1.leaves[i] with leNew := some new } := by
    rw [getElem?_modify, getElem?_eq_getElem bound]
    simp
  exact any_eq_true.mpr ⟨_, mem_of_getElem? copied, rfl⟩

theorem editCopyOne_moved (i : Nat) : (editCopyOne i).Keeps fun s => editMoved s.1 = true := by
  intro s moved
  unfold editCopyOne
  rw [read_bind]
  cases found : s.1.leaves[i]? with
  | none => exact moved
  | some leaf =>
  dsimp only
  split
  · exact moved
  rcases copied : copyLeaf i leaf s with ⟨out, s'⟩
  rcases copyLeaf_cases (List.getElem?_eq_some_iff.mp found).1 copied with copied | ⟨-, same, -⟩
  · exact copied
  · exact same ▸ moved

theorem editCopy_moved (slots : List Nat) :
    (editCopy slots).Keeps fun s => editMoved s.1 = true := by
  induction slots with
  | nil => exact .pure ()
  | cons i rest ih => exact (editCopyOne_moved i).bind fun _ => ih

theorem editFinish_moved : editFinish.Keeps fun s => editMoved s.1 = true :=
  (Act.Keeps.read _).bind fun _ => onCat_keeps (editMoved · = true) _

/-- A commit whose first leaf still holds a record, and that fails without `edit_moved`, has changed
nothing: it failed in the reindex or for want of its first block. -/
theorem editCommit_untouched {reindex : Reindex}
    (survives : ∀ {ne'}, reindex.run c.vol ne = .ok ne' → ∃ first rest, ne'.leaves = first :: rest ∧
      first.leGone = false)
    (run : editCommit reindex (ne, c) = (.error e, ne', c')) (still : editMoved ne' = false) :
    c.Untouched c' := by
  rcases bind_error run with failed | ⟨ne₁, s₁, lifted, run⟩
  · -- The reindex refuses; it has touched the copies in memory only.
    obtain ⟨-, same⟩ := mk.inj failed
    cases same
    exact ⟨_, _, rfl⟩
  obtain ⟨indexed, rfl⟩ := lift_ok_iff.mp lifted
  obtain ⟨first, rest, leaves, stays⟩ := survives indexed
  rw [modify_bind, leaves, length_cons, range_succ_eq_map, editCopy, bind_assoc] at run
  have head : editCopyOne 0 (ne₁, c) = copyLeaf 0 first (ne₁, c) := by
    unfold editCopyOne
    rw [read_bind]
    simp [leaves, stays]
  have bound : 0 < ne₁.leaves.length := by simp [leaves]
  rcases copied : copyLeaf 0 first (ne₁, c) with ⟨out, s₂⟩
  rcases copyLeaf_cases bound copied with moved | ⟨failed, -, same⟩
  · -- A copy was begun, and nothing takes it out of the edit again.
    rcases bind_cases run with ⟨e', stopped, -⟩ | ⟨_, s₃, done, run⟩
    · cases (head.trans copied).symm.trans stopped
      exact absurd moved (by simp [still])
    · cases (head.trans copied).symm.trans done
      have kept := ((editCopy_moved _).bind fun _ => editFinish_moved).error moved run
      exact absurd kept (by simp [still])
  rcases bind_cases run with ⟨e', stopped, -⟩ | ⟨_, s₃, done, -⟩
  · cases (head.trans copied).symm.trans stopped
    exact same
  · cases (head.trans copied).symm.trans done
    exact absurd rfl failed

/-- A commit that fails while `edit_moved` still says no, of an edit whose first leaf keeps a
record, leaves queues, bitmap, object map, root and counters as they were. -/
theorem edit_commit_refused_whole (reindex : Reindex) (c c' : Cat) (ne ne' : LeafEdit) (e : Err)
    (survives : ∀ {ne'}, reindex.run c.vol ne = .ok ne' → ∃ first rest, ne'.leaves = first :: rest ∧
      first.leGone = false)
    (run : editCommit reindex (ne, c) = (.error e, ne', c')) (still : editMoved ne' = false) :
    c'.vol.queue = c.vol.queue ∧ c'.vol.used = c.vol.used ∧ c'.vol.slots = c.vol.slots ∧
      c'.vol.place = c.vol.place ∧
      c'.vol.acFsAllocCount = c.vol.acFsAllocCount ∧ c'.acNumFiles = c.acNumFiles := by
  obtain ⟨grants, refuse, rfl⟩ := editCommit_untouched survives run still
  exact ⟨rfl, rfl, rfl, rfl, rfl, rfl⟩

/-- The reindex of an edit in which some slots have lost their last record: the root above them
joins the edit, and stops naming them. -/
def dropping (gone : List Nat) (root : Nat) : Reindex where
  run v ne :=
    if .catalogNode root ∈ v.slots then .ok {
      leaves := (ne.leaves.mapIdx fun i leaf => { leaf with leGone := gone.contains i }) ++
        [⟨v.place (.catalogNode root), root, none, false⟩]
      leRoot := ne.leaves.length }
    else .error .notFound
  named := by
    intro v ne ne' indexed named leaf member
    split at indexed
    next known =>
      cases indexed
      rcases mem_append.mp member with listed | joined
      · obtain ⟨i, bound, rfl⟩ := mem_mapIdx.mp listed
        exact named ne.leaves[i] (getElem_mem bound)
      · cases mem_singleton.mp joined
        exact ⟨known, rfl, rfl⟩
    · cases indexed

/-- A full volume, whose catalog has two leaves under the root at block 49. -/
def fullCat : Cat where
  vol := { twoBlocks 21 [⟨20, 2, 1⟩] [20, 21, 49, 57] [] with
    slots := [.catalogNode 2, .catalogNode 8] ++ smallSlots
    place := fun slot => if slot = .catalogNode 8 then 57 else if slot = .catalogNode 2 then 49 else
      (twoBlocks 21 [] [] []).place slot }
  acRootTreeOid := 2
  omapRoom := 0
  acNumFiles := 1

/-- A leaf that stays is first: no block, and nothing is queued. -/
theorem edit_commit_refused_whole_full :
    ∃ ne' c', editCommit (dropping [1] 2) (⟨[⟨50, 7, none, false⟩, ⟨57, 8, none, false⟩], 9⟩,
      fullCat) = (.error .noAlloc, ne', c') ∧ editMoved ne' = false ∧
        c'.vol.queue = fullCat.vol.queue := by
  have run := run_out (show (editCommit (dropping [1] 2)
    (⟨[⟨50, 7, none, false⟩, ⟨57, 8, none, false⟩], 9⟩, fullCat)).1 = .error .noAlloc
    by decide +kernel)
  have still : editMoved (editCommit (dropping [1] 2)
    (⟨[⟨50, 7, none, false⟩, ⟨57, 8, none, false⟩], 9⟩, fullCat)).2.1 = false := by decide +kernel
  refine ⟨_, _, run, still,
    (edit_commit_refused_whole _ _ _ _ _ _ (fun {ne'} indexed => ?_) run still).1⟩
  have known : Slot.catalogNode 2 ∈ fullCat.vol.slots := by decide
  simp only [dropping, if_pos known] at indexed
  cases indexed
  exact ⟨_, _, rfl, rfl⟩

/-- The leaf that has emptied is first: it is queued, the next finds no block, and `edit_moved` says
that nothing moved. -/
theorem emptied_leaf_queued_unmoved :
    ∃ ne' c', editCommit (dropping [0] 2) (⟨[⟨57, 8, none, false⟩, ⟨50, 7, none, false⟩], 9⟩,
      fullCat) = (.error .noAlloc, ne', c') ∧ editMoved ne' = false ∧ fullCat.vol.queue = [] ∧
        c'.vol.queue = [57] :=
  ⟨_, _, run_out (by decide +kernel), by decide +kernel, by decide +kernel, by decide +kernel⟩

end Style9.Apfs.Runs
