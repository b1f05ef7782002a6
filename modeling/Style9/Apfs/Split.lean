import Style9.Apfs.Edits

/-!
# Splitting a node of the catalog

A full node is divided: its upper half becomes a new object, the parent gains a separator, the root
counts one node more and the object map learns of all of them. A full parent is split first, and a
full root gives the tree another level. Room in the parent is asked for before a block is taken;
room in the object map is not.
-/
namespace Style9.Apfs.Runs

open Style9.Lib Act Function

/-! ### The tree -/

/-- A node as a split reads it: its flags, its level, and of each record the length of the key and,
above the leaves, the oid of the child. -/
structure TreeNode where
  root : Bool
  leaf : Bool
  level : Nat
  recs : List (Nat × Nat)

def TreeNode.keyLen (n : TreeNode) (i : Nat) : Nat := (n.recs.map Prod.fst).getD i 0

/-- Where a node is cut; zero asks for the middle. -/
def TreeNode.half (n : TreeNode) (cut : Nat) : Nat :=
  if cut ≠ 0 ∧ cut < n.recs.length then cut else n.recs.length / 2

/-- A volume with the nodes of its catalog by their oids; the block of a node is where the object
map has it. `roomy` says what the coming calls of `leaf_has_room` find. -/
structure CatTree where
  cat : Cat
  node : Nat → TreeNode
  acNextOid : Nat
  roomy : List Bool

abbrev TreeOp : Type → Type := Act CatTree Err

def onTree {α : Type} (x : CatOp α) : TreeOp α :=
  fun t => ((x t.cat).1, { t with cat := (x t.cat).2 })

/-- `path_walk`: the oids from a node down to the one wanted. A child the object map does not know
ends the search. -/
def pathWalk (node : Nat → TreeNode) (slots : List Slot) (want : Nat) :
    Nat → Nat → Option (List Nat)
  | 0, _ => none
  | depth + 1, oid =>
    if oid = want then some [oid]
    else if (node oid).leaf then none
    else (((node oid).recs.takeWhile fun r => .catalogNode r.2 ∈ slots).findSome? fun r =>
      pathWalk node slots want depth r.2).map (oid :: ·)

variable (t : CatTree)

def CatTree.pathTo (want : Nat) : Option (List Nat) :=
  pathWalk t.node t.cat.vol.slots want apfsTreeMaxDepth t.cat.acRootTreeOid

def CatTree.acRootTreeBno : Nat := t.cat.vol.place (.catalogNode t.cat.acRootTreeOid)

def leafHasRoom : TreeOp Bool := fun t =>
  match t.roomy with
  | room :: rest => (.ok room, { t with roomy := rest })
  | [] => (.ok true, t)

/-! ### The calls -/

/-- The halves of a node built, and written to blocks of their own; where this fails the blocks go
back. -/
def placeHalves : VolOp (Nat × Nat) := do
  grantedOr .noAlloc
  let lo ← allocBlocks 1
  let hi ← onFail (allocBlocks 1) (ignore (freeBlocks lo 1))
  onFail (grantedOr .io) fun v => ignore (freeBlocks hi 1) (ignore (freeBlocks lo 1) v)
  pure (lo, hi)

variable (oid : Nat)

def freeNode : CatOp Unit := do
  let old ← read fun c => c.vol.place (.catalogNode oid)
  onVol (freeBlocks old 1)

def cowNode : CatOp (Nat × Nat) := do
  let old ← read fun c => c.vol.place (.catalogNode oid)
  let new ← onVol (nodeCow old)
  pure (oid, new)

/-- The volume owns so many nodes more, which its superblock says, and the object map is told. -/
def announce (more : Nat) (moved new : List (Nat × Nat)) : CatOp Unit := do
  modify fun c => { c with vol := { c.vol with acFsAllocCount := c.vol.acFsAllocCount + more } }
  spineUpdateN moved [] new

/-- The root's records in two new nodes, and the root a level higher over them with its flags as
they were. -/
def CatTree.deeper : CatTree :=
  let n := t.node t.cat.acRootTreeOid
  let half := n.recs.length / 2
  let top := { n with
    level := n.level + 1, recs := [(n.keyLen 0, t.acNextOid), (n.keyLen half, t.acNextOid + 1)] }
  { t with
    node := update (update (update t.node t.cat.acRootTreeOid top)
      t.acNextOid { n with root := false, recs := n.recs.take half })
      (t.acNextOid + 1) { n with root := false, recs := n.recs.drop half }
    acNextOid := t.acNextOid + 2 }

def treeGrow : TreeOp Unit := do
  onTree (onVol (grantedOr .nomem))
  onTree (onVol (grantedOr .io))
  let t ← read id
  let root := t.cat.acRootTreeOid
  if !(t.node root).root then fail .inval
  else if apfsTreeMaxDepth < (t.node root).level + 2 then fail .noAlloc
  else if (t.node root).recs.length < 2 ∨ t.acNextOid = 0 then fail .inval
  else do
    let halves ← onTree (onVol placeHalves)
    let top ← onTree (cowNode root)
    onTree (announce 2 [top] [(t.acNextOid, halves.1), (t.acNextOid + 1, halves.2)])
    modify CatTree.deeper

structure SplitPlan where
  half : Nat
  parent : Nat
  underRoot : Bool

/-- A node that is not to be divided: it has too little, or its separator has no length. -/
def TreeNode.unfit (n : TreeNode) (half : Nat) : Bool :=
  decide (n.recs.length < 2 ∨ n.keyLen half = 0 ∨ apfsBlockSize < n.keyLen half)

/-- One turn of the loop of `node_split_at`; `full` is what to do about a parent without room. There
is no plan where the node is the root and the tree has grown instead. -/
def lookForRoom (full : Nat → Bool → TreeOp (Option SplitPlan)) (oid cut : Nat) :
    TreeOp (Option SplitPlan) := do
  onTree (onVol (grantedOr .io))
  let t ← read id
  let n := t.node oid
  if n.root then do
    treeGrow
    pure none
  else if n.unfit (n.half cut) then fail .inval
  else do
    onTree (onVol (grantedOr .notFound))
    match (t.pathTo oid).map List.reverse with
    | some (_ :: parent :: above) => do
      onTree (onVol (grantedOr .io))
      if ← leafHasRoom then pure (some ⟨n.half cut, parent, above.isEmpty⟩)
      else full parent above.isEmpty
    | _ => fail .notFound

def findRoom (split : Nat → TreeOp Unit) (oid cut : Nat) : Nat → TreeOp (Option SplitPlan)
  | 0 => lookForRoom (fun _ _ => fail .noAlloc) oid cut
  | tries + 1 => lookForRoom (fun parent underRoot =>
      (if underRoot then treeGrow else split parent) >>= fun _ =>
        findRoom split oid cut tries) oid cut

/-- The upper half under a new oid, and its separator in the parent behind the lower half's. -/
def CatTree.divided (plan : SplitPlan) : CatTree :=
  let n := t.node oid
  let par := t.node plan.parent
  let place := par.recs.findIdx (·.2 = oid) + 1
  { t with
    node := update (update (update t.node plan.parent
      { par with recs := par.recs.insertIdx place (n.keyLen plan.half, t.acNextOid) })
      oid { n with recs := n.recs.take plan.half })
      t.acNextOid { n with recs := n.recs.drop plan.half }
    acNextOid := t.acNextOid + 1 }

/-- The parent with the separator, the root with its count, and all of it told to the object map. -/
def insertUpper (plan : SplitPlan) (new : Nat) (halves : Nat × Nat) : CatOp Unit := do
  onVol (grantedOr .noAlloc)
  let par ← cowNode plan.parent
  let root ← read Cat.acRootTreeOid
  if plan.underRoot then announce 1 [par, (oid, halves.1)] [(new, halves.2)]
  else do
    onVol (grantedOr .io)
    let top ← cowNode root
    announce 1 [par, (oid, halves.1), top] [(new, halves.2)]

/-- What `node_split_at` does once there is room above. -/
def divide (plan : SplitPlan) : TreeOp Unit := do
  let new ← read CatTree.acNextOid
  if new = 0 then fail .inval
  else do
    let halves ← onTree (onVol placeHalves)
    onTree (freeNode oid)
    onTree (insertUpper oid plan new halves)
    modify (·.divided oid plan)

/-- `node_split_at`, with so many levels through which a parent may be split in turn. -/
def nodeSplitAt : Nat → Nat → Nat → TreeOp Unit
  | 0, _, _ => fail .notFound
  | levels + 1, oid, cut => do
    onTree (onVol (grantedOr .nomem))
    match ← findRoom (nodeSplitAt levels · 0) oid cut 2 with
    | none => pure ()
    | some plan => divide oid plan

/-! ### Requests that are refused -/

section Requests

variable (v : Vol) (n : Nat)

/-- One of the next requests is refused. -/
def Vol.denies : Bool := (v.refuse.take n).any id

def Vol.skip : Vol := { v with refuse := v.refuse.drop n }

/-- The next allocations, of a block each, land on blocks that are free. -/
def sparesFrom : (Nat → Bool) → List (Option Nat) → Nat → Bool
  | _, _, 0 => true
  | used, some b :: rest, n + 1 =>
    !used b && sparesFrom (fun c => used c || (decide (b ≤ c) && decide (c < b + 1))) rest n
  | _, _, _ + 1 => false

def Vol.spares : Bool := sparesFrom v.used v.grants n

end Requests

def CatTree.skip (n : Nat) (t : CatTree) : CatTree :=
  { t with cat := { t.cat with vol := t.cat.vol.skip n } }

def CatTree.looked (t : CatTree) : CatTree := { t with roomy := t.roomy.tail }

/-- `tree_grow` is refused before it gives the root's block back: one of its first six requests is
(memory, the root read, the halves built, then written, the root's copy written, a place in the free
queue), there are not three blocks, or the root is not one that grows. -/
def CatTree.growRefused (t : CatTree) : Bool :=
  let n := t.node t.cat.acRootTreeOid
  t.cat.vol.denies 6 || !t.cat.vol.spares 3 || !n.root ||
    decide (apfsTreeMaxDepth < n.level + 2 ∨ n.recs.length < 2 ∨ t.acNextOid = 0)

/-- The same for a split that has found room above: the halves built, and written, and a place in
the queue. -/
def CatTree.divideRefused (t : CatTree) : Bool :=
  t.cat.vol.denies 3 || !t.cat.vol.spares 2 || decide (t.acNextOid = 0)

/-- The same for `node_split_at` as a whole: memory, the node, the path to it and its parent read;
where the parent is full, the growth or the split that is to make room is refused. -/
def splitRefused : Nat → Nat → Nat → CatTree → Bool
  | 0, _, _, _ => true
  | levels + 1, oid, cut, t =>
    let n := t.node oid
    t.cat.vol.denies 2 ||
      if n.root then (t.skip 2).growRefused
      else n.unfit (n.half cut) || t.cat.vol.denies 4 ||
        match (t.pathTo oid).map List.reverse with
        | some (_ :: parent :: above) =>
          if t.roomy.head?.getD true then (t.skip 4).divideRefused
          else if above.isEmpty then ((t.skip 4).looked).growRefused
          else splitRefused levels parent 0 (t.skip 4).looked
        | _ => true

variable {v₀ v v' : Vol} {α : Type}

theorem Vol.denies_add (v : Vol) (m n : Nat) :
    v.denies (m + n) = (v.denies m || (v.skip m).denies n) := by
  unfold Vol.denies Vol.skip
  rw [List.take_add, List.any_append]

theorem Vol.skip_skip (v : Vol) (m n : Nat) : (v.skip m).skip n = v.skip (m + n) := by
  simp [Vol.skip, List.drop_drop]

theorem granted_eq (v : Vol) : granted v = (.ok (!v.denies 1), v.skip 1) := by
  obtain ⟨runs, extref, slots, place, spinePath, used, queue, data, count, grants, refuse⟩ := v
  cases refuse with
  | nil => rfl
  | cons refused rest => simp [granted, Vol.denies, Vol.skip]

theorem grantedOr_ends (e : Err) (v : Vol) :
    (grantedOr e).Ends v (fun _ v' => v.denies 1 = false ∧ v' = v.skip 1) fun _ v' =>
      v.denies 1 = true ∧ v' = v.skip 1 := by
  have run : grantedOr e v = (if (!v.denies 1) = true then pure () else fail e : VolOp Unit)
    (v.skip 1) := bind_of_ok (granted_eq v)
  refine .congr run ?_
  cases denied : v.denies 1 with
  | false => exact .pure ⟨rfl, rfl⟩
  | true => exact .of_error rfl ⟨rfl, rfl⟩

theorem allocBlocks_ends (v : Vol) :
    (allocBlocks 1).Ends v
      (fun b v' => v.used b = false ∧ v'.refuse = v.refuse ∧ ∀ n, v.spares (n + 1) = v'.spares n)
      fun _ _ => ∀ n, v.spares (n + 1) = false := by
  constructor
  · rintro _ b v' rfl run
    unfold allocBlocks at run
    split at run
    next granted =>
      split at run
      next unused =>
        cases run
        simp only [List.range'_one, List.all_cons, List.all_nil, Bool.and_true] at unused
        refine ⟨by simpa using unused, rfl, fun n => ?_⟩
        unfold Vol.spares
        rw [granted, sparesFrom, unused, Bool.true_and]
        rfl
      · cases run
    · cases run
    · cases run
  · rintro s e v' rfl run n
    unfold Vol.spares
    rcases granted : s.grants with _ | ⟨_ | b, rest⟩
    · rfl
    · rfl
    cases used : s.used b with
    | true => simp [sparesFrom, used]
    | false => simp [allocBlocks, granted, used] at run

/-! ### Refused before a node is given back -/

/-- What was in use still is, and no block of it has come into the queues. -/
structure Calm (v v' : Vol) : Prop where
  place : v'.place = v.place
  slots : v'.slots = v.slots
  count : v'.acFsAllocCount = v.acFsAllocCount
  taken : ∀ b, v.used b = true → v'.used b = true ∧ v'.queue.count b = v.queue.count b

theorem Calm.refl (v : Vol) : Calm v v := ⟨rfl, rfl, rfl, fun _ used => ⟨used, rfl⟩⟩

theorem Calm.patient : Patient (Calm v₀) := fun _ _ calm => { calm with }

theorem allocBlocks_calm : (allocBlocks 1).Keeps (Calm v₀) := by
  intro v calm
  unfold allocBlocks
  split
  · split
    · exact ⟨calm.place, calm.slots, calm.count,
        fun b used => (calm.taken b used).imp_left fun here => by
        simp [Vol.take, here]⟩
    · exact { calm with }
  · exact { calm with }
  · exact calm

theorem Calm.fresh {b : Nat} (calm : Calm v₀ v) (unused : v.used b = false) :
    v₀.used b = false := by
  by_contra used
  cases unused.symm.trans (calm.taken b (by simpa using used)).1

theorem freeBlocks_calm {b : Nat} (fresh : v₀.used b = false) :
    (freeBlocks b 1).Keeps (Calm v₀) := by
  refine (grantedOr_keeps Calm.patient _).bind fun _ => .modify fun v calm =>
    ⟨calm.place, calm.slots, calm.count,
      fun b' used => (calm.taken b' used).imp_right fun same => ?_⟩
  have other : b' ≠ b := by
    rintro rfl
    cases fresh.symm.trans used
  simp [List.count_append, same, Ne.symm other]

/-- Two blocks for the halves, or nothing. -/
theorem placeHalves_ends (calm : Calm v₀ v) :
    placeHalves.Ends v
      (fun _ v' => Calm v₀ v' ∧ v.denies 2 = false ∧ v'.refuse = v.refuse.drop 2 ∧
        ∀ n, v.spares (n + 2) = v'.spares n)
      fun _ v' => Calm v₀ v' ∧ (v.denies 2 = true ∨ ∀ n, v.spares (n + 2) = false) := by
  have more (w : Vol) : w.denies 2 = (w.denies 1 || (w.skip 1).denies 1) := w.denies_add 1 1
  refine .bind ((grantedOr_ends _ v).mono (fun _ _ asked => asked) fun _ t refused => ?_) ?_
  · exact ⟨refused.2 ▸ { calm with }, .inl (by rw [more, refused.1, Bool.true_or])⟩
  rintro _ _ ⟨built, rfl⟩
  have calm₀ : Calm v₀ (v.skip 1) := { calm with }
  refine .bind (Q := fun lo t => Calm v₀ t ∧ v₀.used lo = false ∧ t.refuse = v.refuse.drop 1 ∧
    ∀ n, v.spares (n + 1) = t.spares n) ⟨?_, ?_⟩ ?_
  · rintro _ lo t rfl run
    obtain ⟨unused, refuse, spares⟩ := (allocBlocks_ends _).ok rfl run
    exact ⟨allocBlocks_calm.ok calm₀ run, calm₀.fresh unused, refuse, spares⟩
  · rintro _ e t rfl run
    exact ⟨allocBlocks_calm.error calm₀ run,
      .inr fun n => (allocBlocks_ends _).error rfl run (n + 1)⟩
  rintro lo t ⟨calm₁, freshLo, refuse₁, spares₁⟩
  have freedLo := freeBlocks_calm freshLo
  refine .bind (Q := fun hi t => Calm v₀ t ∧ v₀.used hi = false ∧ t.refuse = v.refuse.drop 1 ∧
    ∀ n, v.spares (n + 2) = t.spares n) ⟨?_, ?_⟩ ?_
  · rintro _ hi u rfl run
    obtain ⟨unused, refuse, spares⟩ := (allocBlocks_ends _).ok rfl (onFail_ok run)
    exact ⟨(allocBlocks_calm.onFail freedLo).ok calm₁ run, calm₁.fresh unused, refuse.trans refuse₁,
      fun n => (spares₁ (n + 1)).trans (spares n)⟩
  · rintro _ e u rfl run
    refine ⟨(allocBlocks_calm.onFail freedLo).error calm₁ run, .inr fun n => ?_⟩
    rcases took : allocBlocks 1 _ with ⟨e' | hi, w⟩
    · exact (spares₁ (n + 1)).trans ((allocBlocks_ends _).error rfl took n)
    · rw [onFail, took] at run
      cases run
  rintro hi u ⟨calm₂, freshHi, refuse₂, spares₂⟩
  have freedHi := freeBlocks_calm freshHi
  have denied : u.denies 1 = (v.skip 1).denies 1 := by rw [Vol.denies, refuse₂]; rfl
  refine .bind ((grantedOr_ends .io u).onFail fun _ w refused => ?_) ?_
  · rw [refused.2]
    refine ⟨freedHi _ (freedLo _ { calm₂ with }), .inl ?_⟩
    rw [more, ← denied, refused.1, Bool.or_true]
  rintro _ _ ⟨written, rfl⟩
  refine .pure ⟨{ calm₂ with }, ?_, ?_, spares₂⟩
  · rw [more, built, ← denied, written]
    rfl
  · rw [Vol.skip, refuse₂]
    simp

/-! ### After a node was given back -/

/-- The tree as the object map has it, and no block back out of the queues. -/
structure Queued (v v' : Vol) : Prop where
  place : v'.place = v.place
  slots : v'.slots = v.slots
  queue : ∀ b, v.queue.count b ≤ v'.queue.count b

variable {c : Cat} {t t' t₀ : CatTree} {root : Nat}

theorem Queued.refl (v : Vol) : Queued v v := ⟨rfl, rfl, fun _ => le_rfl⟩

theorem grantedOr_later (e : Err) : (grantedOr e).Keeps (Queued v₀) :=
  grantedOr_keeps (fun _ _ later => { later with }) e

theorem freeBlocks_later (b n : Nat) : (freeBlocks b n).Keeps (Queued v₀) :=
  (grantedOr_later _).bind fun _ => .modify fun v later => { later with
    queue := fun b' => (later.queue b').trans (by simp [List.count_append]) }

theorem nodeCow_later (old : Nat) : (nodeCow old).Keeps (Queued v₀) := by
  refine Act.Keeps.bind (fun v later => ?_) fun new => Act.Keeps.bind ?_ fun _ => .pure _
  · unfold allocBlocks
    split
    · split <;> exact { later with }
    · exact { later with }
    · exact later
  · exact ((grantedOr_later _).onFail (freeBlocks_later new 1)).bind fun _ => freeBlocks_later old 1

theorem cowAll_later (path : List Slot) : (cowAll path).Keeps (Queued v₀) := by
  induction path with
  | nil => exact .pure []
  | cons slot rest ih =>
    exact (Act.Keeps.read _).bind fun old => (nodeCow_later old).bind fun _ =>
      ih.bind fun _ => .pure _

/-- The same of a volume with its catalog, whose root keeps its oid. -/
def Cat.Since (v₀ : Vol) (root : Nat) (c : Cat) : Prop := Queued v₀ c.vol ∧ c.acRootTreeOid = root

theorem onVol_since {x : VolOp α} (keeps : x.Keeps (Queued v₀)) :
    (onVol x).Keeps (Cat.Since v₀ root) :=
  fun c since => since.imp_left (keeps c.vol)

theorem cowNode_since (oid : Nat) : (cowNode oid).Keeps (Cat.Since v₀ root) :=
  (Act.Keeps.read _).bind fun old => (onVol_since (nodeCow_later old)).bind fun _ => .pure _

/-- What the object map is told is told all at once, at the end. -/
theorem announce_since (more : Nat) (moved new : List (Nat × Nat)) (since : c.Since v₀ root) :
    (announce more moved new).Ends c (fun _ _ => True) fun _ => Cat.Since v₀ root := by
  refine .congr (modify_bind _ _ _) ?_
  have since' : Cat.Since v₀ root { c with vol := { c.vol with
      acFsAllocCount := c.vol.acFsAllocCount + more } } := ⟨{ since.1 with }, since.2⟩
  refine .read_bind (.read_bind ?_)
  split
  · exact .of_error rfl since'
  split
  · exact .of_error rfl since'
  refine .read_bind (.bind ((onVol_since (cowAll_later _)).ends since') fun moves c since => ?_)
  exact .of_ok rfl trivial

theorem insertUpper_since (oid : Nat) (plan : SplitPlan) (new : Nat) (halves : Nat × Nat)
    (since : c.Since v₀ root) :
    (insertUpper oid plan new halves).Ends c (fun _ _ => True) fun _ => Cat.Since v₀ root := by
  refine .bind ((onVol_since (grantedOr_later _)).ends since) fun _ c since => ?_
  refine .bind ((cowNode_since _).ends since) fun par c since => .read_bind ?_
  split
  · exact announce_since 1 _ _ since
  refine .bind ((onVol_since (grantedOr_later _)).ends since) fun _ c since => ?_
  exact .bind ((cowNode_since _).ends since) fun top c since => announce_since 1 _ _ since

/-! ### Nothing changed -/

/-- No node that is in the tree has been queued, and the root, the volume's count of blocks and the
next oid are what they were. -/
def Unmoved (t t' : CatTree) : Prop :=
  (∀ oid, (t'.pathTo oid).isSome → t'.cat.vol.queue.count (t'.cat.vol.place (.catalogNode oid)) =
    t.cat.vol.queue.count (t'.cat.vol.place (.catalogNode oid))) ∧
  t'.acRootTreeBno = t.acRootTreeBno ∧ t'.cat.vol.acFsAllocCount = t.cat.vol.acFsAllocCount ∧
    t'.acNextOid = t.acNextOid

/-- The blocks of the nodes in the tree are in use. -/
def CatTree.Live (t : CatTree) : Prop :=
  ∀ oid, (t.pathTo oid).isSome → t.cat.vol.used (t.cat.vol.place (.catalogNode oid)) = true

/-- The tree is as it was. -/
structure Intact (t t' : CatTree) : Prop where
  node : t'.node = t.node
  next : t'.acNextOid = t.acNextOid
  root : t'.cat.acRootTreeOid = t.cat.acRootTreeOid
  calm : Calm t.cat.vol t'.cat.vol

theorem Intact.pathTo (intact : Intact t t') : t'.pathTo = t.pathTo := by
  unfold CatTree.pathTo
  rw [intact.node, intact.root, intact.calm.slots]

theorem Intact.unmoved (intact : Intact t t') (live : t.Live) : Unmoved t t' := by
  refine ⟨fun oid reached => ?_, ?_, intact.calm.count, intact.next⟩
  · rw [intact.pathTo] at reached
    rw [intact.calm.place]
    exact (intact.calm.taken _ (live oid reached)).2
  · unfold CatTree.acRootTreeBno
    rw [intact.root, intact.calm.place]

/-- A node given back while the tree still has it. -/
theorem moved_of_queued {oid : Nat} (live : t.Live) (reached : (t.pathTo oid).isSome)
    (intact : Intact t t₀) (node : t'.node = t₀.node)
    (since : t'.cat.Since { t₀.cat.vol with
      queue := t₀.cat.vol.queue ++ [t₀.cat.vol.place (.catalogNode oid)] } t₀.cat.acRootTreeOid) :
    ¬ Unmoved t t' := by
  intro unmoved
  have path : t'.pathTo = t.pathTo := by
    unfold CatTree.pathTo
    rw [node, intact.node, since.2, intact.root, since.1.slots, intact.calm.slots]
  have place : t'.cat.vol.place = t.cat.vol.place := since.1.place.trans intact.calm.place
  have queued := since.1.queue (t₀.cat.vol.place (.catalogNode oid))
  have before := (intact.calm.taken _ (live oid reached)).2
  have same := unmoved.1 oid (by rw [path]; exact reached)
  rw [place] at same
  rw [List.count_append, List.count_singleton_self, intact.calm.place, before] at queued
  omega

/-! ### The calls -/

/-- What a call comes to: a refused one fails with the tree as it was; one that is not makes a new
oid, or fails with something moved. -/
def Judged (refused : Bool) (x : TreeOp α) (t : CatTree) : Prop :=
  x.Ends t (fun _ t' => refused = false ∧ t.acNextOid < t'.acNextOid) fun _ t' =>
    if refused then Intact t t' else ¬ Unmoved t t'

theorem refused_at {refused : Bool} (yes : refused = true) (intact : Intact t t') :
    if refused then Intact t t' else ¬ Unmoved t t' := by
  rw [if_pos yes]
  exact intact

theorem moved_at {refused : Bool} (no : refused = false) (moved : ¬ Unmoved t t') :
    if refused then Intact t t' else ¬ Unmoved t t' := by
  simpa [no] using moved

def CatTree.withVol (t : CatTree) (v : Vol) : CatTree := { t with cat := { t.cat with vol := v } }

theorem onTree_ends {x : CatOp α} {Q : α → CatTree → Prop} {E : Err → CatTree → Prop}
    (ends : x.Ends t.cat (fun a c => Q a { t with cat := c }) fun e c => E e { t with cat := c }) :
    (onTree x).Ends t Q E := by
  rcases run : x t.cat with ⟨e | a, c⟩
  · exact .of_error (by rw [onTree, run]) (ends.error rfl run)
  · exact .of_ok (by rw [onTree, run]) (ends.ok rfl run)

theorem onVol_ends {x : VolOp α} {Q : α → Cat → Prop} {E : Err → Cat → Prop}
    (ends : x.Ends c.vol (fun a v => Q a { c with vol := v }) fun e v => E e { c with vol := v }) :
    (onVol x).Ends c Q E := by
  rcases run : x c.vol with ⟨e | a, v⟩
  · exact .of_error (by rw [onVol, run]) (ends.error rfl run)
  · exact .of_ok (by rw [onVol, run]) (ends.ok rfl run)

theorem asked_bind {Q : α → CatTree → Prop} {E : CatTree → Prop} {f : Unit → TreeOp α} {e : Err}
    (refused : t.cat.vol.denies 1 = true → E (t.skip 1))
    (rest : t.cat.vol.denies 1 = false → (f ()).Ends (t.skip 1) Q fun _ => E) :
    (onTree (onVol (grantedOr e)) >>= f).Ends t Q fun _ => E := by
  refine .bind (Q := fun _ t' => t.cat.vol.denies 1 = false ∧ t' = t.skip 1)
    (onTree_ends (onVol_ends ((grantedOr_ends e _).mono ?_ ?_))) ?_
  · rintro _ _ ⟨no, rfl⟩
    exact ⟨no, rfl⟩
  · rintro _ _ ⟨yes, rfl⟩
    exact refused yes
  · rintro _ _ ⟨no, rfl⟩
    exact rest no

theorem freeBlocks_ends (b : Nat) (v : Vol) :
    (freeBlocks b 1).Ends v
      (fun _ v' => v.denies 1 = false ∧ v' = { v.skip 1 with queue := v.queue ++ [b] })
      fun _ v' => v.denies 1 = true ∧ v' = v.skip 1 := by
  refine .bind (grantedOr_ends _ v) ?_
  rintro _ _ ⟨no, rfl⟩
  exact .of_ok rfl ⟨no, rfl⟩

theorem Vol.denies_two (v : Vol) : v.denies 2 = (v.denies 1 || (v.skip 1).denies 1) :=
  v.denies_add 1 1

theorem denies_eq (n : Nat) (same : v'.refuse = v.refuse) : v'.denies n = v.denies n := by
  unfold Vol.denies
  rw [same]

/-- A node copied, and its old block in the queue; or nothing of it. -/
theorem nodeCow_ends (old : Nat) (calm : Calm v₀ v) :
    (nodeCow old).Ends v
      (fun _ v' => v.denies 2 = false ∧ v.spares 1 = true ∧
        ∃ u, Calm v₀ u ∧ v' = { u with queue := u.queue ++ [old] })
      fun _ v' => Calm v₀ v' ∧ (v.denies 2 = true ∨ v.spares 1 = false) := by
  refine .bind (Q := fun new t => Calm v₀ t ∧ v₀.used new = false ∧ t.refuse = v.refuse ∧
    v.spares 1 = true) ⟨?_, ?_⟩ ?_
  · rintro _ new t rfl run
    obtain ⟨unused, refuse, spares⟩ := (allocBlocks_ends _).ok rfl run
    exact ⟨allocBlocks_calm.ok calm run, calm.fresh unused, refuse,
      (spares 0).trans (by simp [Vol.spares, sparesFrom])⟩
  · rintro _ e t rfl run
    exact ⟨allocBlocks_calm.error calm run, .inr ((allocBlocks_ends _).error rfl run 0)⟩
  rintro new t ⟨calm₁, fresh, refuse, spares⟩
  have first := denies_eq 1 refuse
  have second : (t.skip 1).denies 1 = (v.skip 1).denies 1 :=
    denies_eq 1 (congrArg (List.drop 1) refuse)
  refine .bind (Q := fun _ v' => v.denies 2 = false ∧
    ∃ u, Calm v₀ u ∧ v' = { u with queue := u.queue ++ [old] })
    (.bind ((grantedOr_ends .io t).onFail fun _ w refused => ?_) ?_) ?_
  · rw [refused.2]
    refine ⟨freeBlocks_calm fresh _ { calm₁ with }, .inl ?_⟩
    rw [v.denies_two, ← first, refused.1, Bool.true_or]
  · rintro _ _ ⟨written, rfl⟩
    refine (freeBlocks_ends old _).mono ?_ ?_
    · rintro _ _ ⟨no, rfl⟩
      refine ⟨?_, (t.skip 1).skip 1, { calm₁ with }, rfl⟩
      rw [v.denies_two, ← first, ← second, written, no]
      rfl
    · rintro _ _ ⟨yes, rfl⟩
      refine ⟨{ calm₁ with }, .inl ?_⟩
      rw [v.denies_two, ← second, yes, Bool.or_true]
  rintro _ _ ⟨granted, queued⟩
  exact .pure ⟨granted, spares, queued⟩

theorem Intact.skip (t : CatTree) (n : Nat) : Intact t (t.skip n) :=
  ⟨rfl, rfl, rfl, rfl, rfl, rfl, fun _ used => ⟨used, rfl⟩⟩

theorem pathTo_root (t : CatTree) : (t.pathTo t.cat.acRootTreeOid).isSome := by
  simp [CatTree.pathTo, apfsTreeMaxDepth, pathWalk]

theorem CatTree.growRefused_iff : t.growRefused = true ↔
    t.cat.vol.denies 2 = true ∨ (t.cat.vol.skip 2).denies 2 = true ∨
      (t.cat.vol.skip 4).denies 2 = true ∨ t.cat.vol.spares 3 = false ∨
      (t.node t.cat.acRootTreeOid).root = false ∨
      apfsTreeMaxDepth < (t.node t.cat.acRootTreeOid).level + 2 ∨
      (t.node t.cat.acRootTreeOid).recs.length < 2 ∨ t.acNextOid = 0 := by
  have six : t.cat.vol.denies 6 = (t.cat.vol.denies 2 || (t.cat.vol.skip 2).denies 2 ||
      (t.cat.vol.skip 4).denies 2) := by
    rw [t.cat.vol.denies_add 4 2, t.cat.vol.denies_add 2 2]
  simp only [CatTree.growRefused, six, Bool.or_eq_true, Bool.not_eq_true', decide_eq_true_eq,
    or_assoc]

/-- From where a node's block is in the queue a call comes to its end with a new oid, or stops with
the node in the queue. -/
theorem committed {x : CatOp Unit} {f : CatTree → CatTree} {oid : Nat} {u : Vol} {refused : Bool}
    (live : t.Live) (reached : (t.pathTo oid).isSome) (admitted : refused = false)
    (calm : Calm t.cat.vol u)
    (tells : ∀ v₀ root c, Cat.Since v₀ root c →
      x.Ends c (fun _ _ => True) fun _ => Cat.Since v₀ root)
    (grows : ∀ t, t.acNextOid < (f t).acNextOid) :
    Act.Ends (do onTree x; modify f)
      (t.withVol { u with queue := u.queue ++ [u.place (.catalogNode oid)] })
      (fun _ t' => refused = false ∧ t.acNextOid < t'.acNextOid)
      fun _ t' => if refused then Intact t t' else ¬ Unmoved t t' := by
  have ends := tells { u with queue := u.queue ++ [u.place (.catalogNode oid)] }
    t.cat.acRootTreeOid { t.cat with vol := { u with
      queue := u.queue ++ [u.place (.catalogNode oid)] } } ⟨.refl _, rfl⟩
  refine .bind (Q := fun _ t' => t'.acNextOid = t.acNextOid)
    (onTree_ends (ends.mono (fun _ _ _ => rfl) fun _ c since => ?_)) fun _ t' same => ?_
  · have intact : Intact t (t.withVol u) := ⟨rfl, rfl, rfl, calm⟩
    exact moved_at admitted (moved_of_queued live reached intact rfl since)
  · exact .of_ok rfl ⟨admitted, same ▸ grows t'⟩

theorem CatTree.skip_skip (t : CatTree) (m n : Nat) : (t.skip m).skip n = t.skip (m + n) := by
  simp only [CatTree.skip, Vol.skip_skip]

theorem treeGrow_judged (live : t.Live) : Judged t.growRefused treeGrow t := by
  have refuses {t'} (intact : Intact t t') (why : t.growRefused = true) := refused_at why intact
  refine asked_bind (fun refused => ?_) fun first => ?_
  · refine refuses (.skip t 1) (CatTree.growRefused_iff.mpr (.inl ?_))
    rw [Vol.denies_two, refused, Bool.true_or]
  refine asked_bind (fun refused => ?_) fun second => ?_
  · refine refuses (t.skip_skip 1 1 ▸ .skip t 2) (CatTree.growRefused_iff.mpr (.inl ?_))
    rw [Vol.denies_two, first]
    exact refused
  rw [CatTree.skip_skip]
  have asked : t.cat.vol.denies 2 = false := by
    rw [Vol.denies_two, first]
    exact second
  refine .read_bind ?_
  dsimp only [id]
  have still : (t.skip 2).node (t.skip 2).cat.acRootTreeOid = t.node t.cat.acRootTreeOid := rfl
  rw [still, show (t.skip 2).acNextOid = t.acNextOid from rfl]
  split
  next other =>
    exact .of_error rfl (refuses (.skip t 2) (CatTree.growRefused_iff.mpr (by simp_all)))
  next atop =>
  split
  next deep =>
    exact .of_error rfl (refuses (.skip t 2) (CatTree.growRefused_iff.mpr (by simp [deep])))
  next shallow =>
  split
  next few => exact .of_error rfl (refuses (.skip t 2) (CatTree.growRefused_iff.mpr (by simp_all)))
  next enough =>
  -- The halves.
  refine .bind (Q := fun _ t₁ => ∃ v, t₁ = t.withVol v ∧ Calm t.cat.vol v ∧
    (t.cat.vol.skip 2).denies 2 = false ∧ v.refuse = (t.cat.vol.skip 4).refuse ∧
    t.cat.vol.spares 3 = v.spares 1)
    (onTree_ends (onVol_ends ((placeHalves_ends (Intact.skip t 2).calm).mono ?_ ?_))) ?_
  · rintro _ v ⟨calm, granted, refuse, spares⟩
    exact ⟨v, rfl, calm, granted, refuse.trans (by simp [CatTree.skip, Vol.skip]), spares 1⟩
  · rintro _ v ⟨calm, refused⟩
    refine refuses ⟨rfl, rfl, rfl, calm⟩ (CatTree.growRefused_iff.mpr ?_)
    rcases refused with denied | spares
    · exact .inr (.inl denied)
    · exact .inr (.inr (.inr (.inl (spares 1))))
  rintro halves _ ⟨v, rfl, calm, granted, refuse, spares⟩
  -- The root's copy, and its old block given back.
  refine .bind (Q := fun _ t₁ => t.growRefused = false ∧ ∃ u, Calm t.cat.vol u ∧
    t₁ = t.withVol { u with queue := u.queue ++ [u.place (.catalogNode t.cat.acRootTreeOid)] })
    (onTree_ends (.read_bind (.bind (onVol_ends ((nodeCow_ends _ calm).mono ?_ ?_))
      fun new c holds => .pure holds))) ?_
  · rintro _ _ ⟨denies, spared, u, calm', rfl⟩
    refine ⟨Bool.eq_false_iff.mpr fun wrong => ?_, u, calm', ?_⟩
    · rw [CatTree.growRefused_iff] at wrong
      rw [denies_eq 2 refuse] at denies
      simp_all
      omega
    · simp only [CatTree.withVol, calm'.place, calm.place]
      rfl
  · rintro _ w ⟨calm', refused⟩
    refine refuses ⟨rfl, rfl, rfl, calm'⟩ (CatTree.growRefused_iff.mpr ?_)
    rcases refused with denied | short
    · rw [denies_eq 2 refuse] at denied
      exact .inr (.inr (.inl denied))
    · exact .inr (.inr (.inr (.inl (spares.trans short))))
  rintro top _ ⟨admitted, u, calm', rfl⟩
  exact committed live (pathTo_root t) admitted calm' (fun _ _ _ => announce_since 2 _ _) fun t =>
    by
    simp [CatTree.deeper]

theorem CatTree.divideRefused_iff : t.divideRefused = true ↔
    t.cat.vol.denies 2 = true ∨ (t.cat.vol.skip 2).denies 1 = true ∨ t.cat.vol.spares 2 = false ∨
      t.acNextOid = 0 := by
  simp only [CatTree.divideRefused, t.cat.vol.denies_add 2 1, Bool.or_eq_true, Bool.not_eq_true',
    decide_eq_true_eq, or_assoc]

theorem divide_judged {oid : Nat} (plan : SplitPlan) (live : t.Live)
    (reached : (t.pathTo oid).isSome) :
    Judged t.divideRefused (divide oid plan) t := by
  refine .read_bind ?_
  split
  next none =>
    exact .of_error rfl (refused_at (CatTree.divideRefused_iff.mpr (by simp [none])) (.skip t 0))
  next some =>
  refine .bind (Q := fun _ t₁ => ∃ v, t₁ = t.withVol v ∧ Calm t.cat.vol v ∧
    t.cat.vol.denies 2 = false ∧ v.refuse = (t.cat.vol.skip 2).refuse ∧ t.cat.vol.spares 2 = true)
    (onTree_ends (onVol_ends ((placeHalves_ends (.refl _)).mono ?_ ?_))) ?_
  · rintro _ v ⟨calm, granted, refuse, spares⟩
    exact ⟨v, rfl, calm, granted, refuse, (spares 0).trans (by simp [Vol.spares, sparesFrom])⟩
  · rintro _ v ⟨calm, refused⟩
    refine refused_at (CatTree.divideRefused_iff.mpr ?_) ⟨rfl, rfl, rfl, calm⟩
    exact refused.imp_right fun spares => .inr (.inl (spares 0))
  rintro halves _ ⟨v, rfl, calm, granted, refuse, spares⟩
  refine .bind (Q := fun _ t₁ => t.divideRefused = false ∧ ∃ u, Calm t.cat.vol u ∧
    t₁ = t.withVol { u with queue := u.queue ++ [u.place (.catalogNode oid)] })
    (onTree_ends (.read_bind (onVol_ends ((freeBlocks_ends _ _).mono ?_ ?_)))) ?_
  · rintro _ _ ⟨denies, rfl⟩
    refine ⟨Bool.eq_false_iff.mpr fun wrong => ?_, v.skip 1, { calm with }, rfl⟩
    rw [CatTree.divideRefused_iff] at wrong
    have denies : (t.cat.vol.skip 2).denies 1 = false := denies_eq 1 refuse ▸ denies
    simp_all
  · rintro _ _ ⟨denied, rfl⟩
    have denied : (t.cat.vol.skip 2).denies 1 = true := denies_eq 1 refuse ▸ denied
    exact refused_at (CatTree.divideRefused_iff.mpr (.inr (.inl denied)))
      ⟨rfl, rfl, rfl, { calm with }⟩
  rintro _ _ ⟨admitted, u, calm', rfl⟩
  exact committed live reached admitted calm' (fun _ _ _ => insertUpper_since oid plan _ _) fun t =>
    Nat.lt_succ_self _

/-! ### Oids are never given back -/

variable {n : Nat}

theorem onTree_next (x : CatOp α) : (onTree x).Keeps (n ≤ ·.acNextOid) := fun _ le => le

theorem treeGrow_next : treeGrow.Keeps (n ≤ ·.acNextOid) := by
  refine (onTree_next _).bind fun _ => (onTree_next _).bind fun _ =>
    (Act.Keeps.read _).bind fun t => ?_
  dsimp only
  split
  · exact .fail _
  split
  · exact .fail _
  split
  · exact .fail _
  exact (onTree_next _).bind fun _ => (onTree_next _).bind fun _ => (onTree_next _).bind fun _ =>
    .modify fun t le => Nat.le_add_right_of_le le

theorem lookForRoom_next {full : Nat → Bool → TreeOp (Option SplitPlan)}
    (keeps : ∀ parent underRoot, (full parent underRoot).Keeps (n ≤ ·.acNextOid)) (oid cut : Nat) :
    (lookForRoom full oid cut).Keeps (n ≤ ·.acNextOid) := by
  refine (onTree_next _).bind fun _ => (Act.Keeps.read _).bind fun t => ?_
  dsimp only
  split
  · exact treeGrow_next.bind fun _ => .pure _
  split
  · exact .fail _
  refine (onTree_next _).bind fun _ => ?_
  split
  · refine (onTree_next _).bind fun _ => Act.Keeps.bind (fun t le => ?_) fun room => ?_
    · unfold leafHasRoom
      split <;> exact le
    · split
      · exact .pure _
      · exact keeps _ _
  · exact .fail _

theorem findRoom_next {split : Nat → TreeOp Unit}
    (keeps : ∀ oid, (split oid).Keeps (n ≤ ·.acNextOid))
    (oid cut tries : Nat) : (findRoom split oid cut tries).Keeps (n ≤ ·.acNextOid) := by
  induction tries with
  | zero => exact lookForRoom_next (fun _ _ => .fail _) oid cut
  | succ tries ih =>
  refine lookForRoom_next (fun parent underRoot => Act.Keeps.bind ?_ fun _ => ih) oid cut
  split
  · exact treeGrow_next
  · exact keeps parent

theorem divide_next (oid : Nat) (plan : SplitPlan) : (divide oid plan).Keeps (n ≤ ·.acNextOid) := by
  refine (Act.Keeps.read _).bind fun new => ?_
  split
  · exact .fail _
  exact (onTree_next _).bind fun _ => (onTree_next _).bind fun _ => (onTree_next _).bind fun _ =>
    .modify fun t le => Nat.le_add_right_of_le le

theorem nodeSplitAt_next (levels oid cut : Nat) :
    (nodeSplitAt levels oid cut).Keeps (n ≤ ·.acNextOid) := by
  induction levels generalizing oid cut with
  | zero => exact .fail _
  | succ levels ih =>
  refine (onTree_next _).bind fun _ => (findRoom_next (fun parent => ih parent 0) oid cut 2).bind
    fun plan => ?_
  cases plan with
  | none => exact .pure ()
  | some plan => exact divide_next oid plan

/-! ### A split and the splits above it -/

variable {r : Bool}

/-- A call judged from where a few requests were made and a parent was looked at. -/
theorem Judged.before {x : TreeOp α} (refuse roomy : List Bool)
    (judged : Judged r x { t with
      cat := { t.cat with vol := { t.cat.vol with refuse := refuse } }, roomy := roomy }) :
    x.Ends
      { t with cat := { t.cat with vol := { t.cat.vol with refuse := refuse } }, roomy := roomy }
      (fun _ t' => r = false ∧ t.acNextOid < t'.acNextOid)
      fun _ t' => if r then Intact t t' else ¬ Unmoved t t' := by
  refine Act.Ends.mono judged (fun _ _ holds => holds) fun _ t' judged => ?_
  cases r with
  | true => exact ⟨judged.node, judged.next, judged.root, { judged.calm with }⟩
  | false => exact judged

/-- Once a split above was finished, the call has changed something. -/
theorem grown_ends {x : TreeOp α} (no : r = false) (grew : t.acNextOid < t₀.acNextOid)
    (keeps : x.Keeps (t.acNextOid + 1 ≤ ·.acNextOid)) :
    x.Ends t₀ (fun _ t' => r = false ∧ t.acNextOid < t'.acNextOid)
      fun _ t' => if r then Intact t t' else ¬ Unmoved t t' := by
  refine (keeps.ends grew).mono (fun _ _ more => ⟨no, more⟩) fun _ t' more => moved_at no ?_
  rintro ⟨-, -, -, same⟩
  omega

theorem leafHasRoom_eq (t : CatTree) :
    leafHasRoom t = (.ok (t.roomy.head?.getD true), t.looked) := by
  obtain ⟨cat, node, next, roomy⟩ := t
  cases roomy <;> rfl

/-- What is known when room was found: a split above was finished, or the parent had room. -/
def Found (r : Bool) (oid : Nat) (t : CatTree) (plan : Option SplitPlan) (t' : CatTree) : Prop :=
  r = false ∧ t.acNextOid < t'.acNextOid ∨
    plan.isSome ∧ t' = (t.skip 4).looked ∧ r = t'.divideRefused ∧ (t.pathTo oid).isSome

/-- The next turn, after room was made above. -/
theorem Judged.then_findRoom {levels oid cut tries : Nat} {x : TreeOp Unit}
    (judged : Judged r x (t.skip 4).looked) :
    (x >>= fun _ => findRoom (nodeSplitAt levels · 0) oid cut tries).Ends (t.skip 4).looked
      (Found r oid t) fun _ t' => if r then Intact t t' else ¬ Unmoved t t' := by
  refine .bind (judged.before (t := t) _ _) fun _ _ ⟨no, grew⟩ => ?_
  exact (grown_ends no grew (findRoom_next (nodeSplitAt_next levels · 0) _ _ _)).mono
    (fun _ _ grew => .inl grew) fun _ _ judged => judged

theorem findRoom_judged {levels oid cut : Nat} (live : t.Live) (first : t.cat.vol.denies 1 = false)
    (above : ∀ parent t, CatTree.Live t →
      Judged (splitRefused levels parent 0 t) (nodeSplitAt levels parent 0) t) :
    (findRoom (nodeSplitAt levels · 0) oid cut 2).Ends (t.skip 1)
      (Found (splitRefused (levels + 1) oid cut t) oid t)
      fun _ t' => if splitRefused (levels + 1) oid cut t then Intact t t' else ¬ Unmoved t t' := by
  have next (k : Nat) : (t.skip k).skip 1 = t.skip (k + 1) := t.skip_skip k 1
  have two := t.cat.vol.denies_add 1 1
  have three := t.cat.vol.denies_add 2 1
  have four := t.cat.vol.denies_add 3 1
  refine asked_bind (fun refused => ?_) fun second => ?_
  · refine refused_at ?_ (next 1 ▸ .skip t 2)
    have denied : (t.cat.vol.skip 1).denies 1 = true := refused
    simp [splitRefused, two, denied]
  rw [next]
  replace second : (t.cat.vol.skip 1).denies 1 = false := second
  rw [first, second] at two
  refine .read_bind ?_
  dsimp only [id]
  rw [show (t.skip 2).node = t.node from rfl, show (t.skip 2).pathTo = t.pathTo from rfl]
  split
  next atop =>
    have same : splitRefused (levels + 1) oid cut t = (t.skip 2).growRefused := by
      simp [splitRefused, two, atop]
    rw [same]
    have judged := (treeGrow_judged (t := t.skip 2) live).before (t := t) _ _
    exact .bind judged fun _ _ grew => .pure (.inl grew)
  next below =>
  split
  next unfit =>
    refine .of_error rfl (refused_at ?_ (.skip t 2))
    simp [splitRefused, below, unfit]
  next fit =>
  refine asked_bind (fun refused => ?_) fun third => ?_
  · refine refused_at ?_ (next 2 ▸ .skip t 3)
    have denied : (t.cat.vol.skip 2).denies 1 = true := refused
    simp [splitRefused, below, four, three, denied]
  rw [next]
  replace third : (t.cat.vol.skip 2).denies 1 = false := third
  rw [two, third] at three
  split
  next parent above' path =>
    refine asked_bind (fun refused => ?_) fun fourth => ?_
    · refine refused_at ?_ (next 3 ▸ .skip t 4)
      have denied : (t.cat.vol.skip 3).denies 1 = true := refused
      simp [splitRefused, below, four, denied]
    rw [next]
    replace fourth : (t.cat.vol.skip 3).denies 1 = false := fourth
    rw [three, fourth] at four
    have reached : (t.pathTo oid).isSome := by
      cases known : t.pathTo oid with
      | none => simp [known] at path
      | some _ => rfl
    refine .congr (bind_of_ok (leafHasRoom_eq _)) ?_
    rw [show (t.skip 4).roomy = t.roomy from rfl]
    split
    next room =>
      refine .pure (.inr ⟨rfl, rfl, ?_, reached⟩)
      simp [splitRefused, two, below, fit, four, path, room]
      rfl
    next full =>
    split
    next atRoot =>
      have same : splitRefused (levels + 1) oid cut t = (t.skip 4).looked.growRefused := by
        simp [splitRefused, two, below, fit, four, path, full, atRoot]
      rw [same]
      exact (treeGrow_judged (t := (t.skip 4).looked) live).then_findRoom
    next inside =>
      have same : splitRefused (levels + 1) oid cut t =
          splitRefused levels parent 0 (t.skip 4).looked := by
        simp [splitRefused, two, below, fit, four, path, full, inside]
      rw [same]
      exact (above parent (t.skip 4).looked live).then_findRoom
  next lost =>
    refine .of_error rfl (refused_at ?_ (.skip t 3))
    simp [splitRefused, below]

theorem nodeSplitAt_judged {levels oid cut : Nat} (live : t.Live) :
    Judged (splitRefused levels oid cut t) (nodeSplitAt levels oid cut) t := by
  induction levels generalizing oid cut t with
  | zero => exact .of_error rfl (refused_at rfl (.skip t 0))
  | succ levels ih =>
  refine asked_bind (fun refused => ?_) fun first => ?_
  · refine refused_at ?_ (.skip t 1)
    simp [splitRefused, t.cat.vol.denies_add 1 1, refused]
  refine .bind (findRoom_judged live first fun parent t live => ih live) ?_
  rintro plan t₁ (⟨no, grew⟩ | ⟨found, rfl, same, reached⟩)
  · refine grown_ends no grew ?_
    cases plan with
    | none => exact .pure ()
    | some plan => exact divide_next oid plan
  · obtain ⟨plan, rfl⟩ := Option.isSome_iff_exists.mp found
    rw [same]
    exact (divide_judged (t := (t.skip 4).looked) plan live reached).before (t := t) _ _

/-- A split, or a growth, that fails has changed nothing just where it was refused before it gave a
block back. -/
theorem node_split_refused_whole (levels oid cut : Nat) (t t' : CatTree) (rv : Err)
    (live : t.Live) :
    (nodeSplitAt levels oid cut t = (.error rv, t') →
      (Unmoved t t' ↔ splitRefused levels oid cut t = true)) ∧
    (treeGrow t = (.error rv, t') → (Unmoved t t' ↔ t.growRefused = true)) := by
  have decides {r : Bool} (judged : if r then Intact t t' else ¬ Unmoved t t') :
      Unmoved t t' ↔ r = true := by
    cases r with
    | true => exact iff_of_true (judged.unmoved live) rfl
    | false => exact iff_of_false judged Bool.false_ne_true
  exact ⟨fun run => decides ((nodeSplitAt_judged live).error rfl run),
    fun run => decides ((treeGrow_judged live).error rfl run)⟩

/-- The full volume with its two leaves under the root, and what the allocator has left. -/
def fullTree (grants : List (Option Nat)) : CatTree where
  cat := { fullCat with vol := { fullCat.vol with grants := grants } }
  node oid := if oid = 2 then ⟨true, false, 1, [(8, 7), (8, 8)]⟩
    else ⟨false, true, 0, [(8, 0), (8, 0)]⟩
  acNextOid := 1030
  roomy := []

theorem fullTree_live (grants : List (Option Nat)) : (fullTree grants).Live := by
  intro oid _
  by_cases eight : oid = 8
  · subst eight
    rfl
  by_cases two : oid = 2
  · subst two
    rfl
  · simp [fullTree, fullCat, twoBlocks, eight, two]

/-- No block for the upper half: the lower half's goes back, and nothing else does. -/
theorem node_split_refused_whole_half :
    ∃ t', nodeSplitAt 8 7 0 (fullTree [some 60]) = (.error .noAlloc, t') ∧
      t'.cat.vol.queue = [60] ∧ Unmoved (fullTree [some 60]) t' := by
  have run := run_out (show (nodeSplitAt 8 7 0 (fullTree [some 60])).1 = .error .noAlloc by
    decide +kernel)
  exact ⟨_, run, by decide +kernel, ((node_split_refused_whole 8 7 0 _ _ _ (fullTree_live _)).1
    run).mpr (by decide +kernel)⟩

/-- Room in the parent and blocks for all, and no slot in the object map: the leaf and the root it
hangs under are queued, and the volume counts a block that it does not have. -/
theorem split_queues_live_nodes :
    ∃ t', nodeSplitAt 8 7 0 (fullTree [some 60, some 61, some 62]) = (.error .noAlloc, t') ∧
      t'.pathTo 7 = some [2, 7] ∧ t'.cat.vol.place (.catalogNode 7) = 50 ∧ t'.acRootTreeBno = 49 ∧
      t'.cat.vol.queue = [50, 49] ∧ (fullTree []).cat.vol.acFsAllocCount = 9 ∧
      t'.cat.vol.acFsAllocCount = 10 :=
  ⟨_, run_out (by decide +kernel), by decide +kernel, by decide +kernel, by decide +kernel,
    by decide +kernel, by decide +kernel, by decide +kernel⟩

end Style9.Apfs.Runs
