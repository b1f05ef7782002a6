import Style9.Apfs.Tree

/-!
# A keyed descent is the whole walk, entered part-way

On an exact, strictly sorted tree `btree_scan` from a key hands its callback the records of
`btree_walk` from the first one not below the key, and `leaf_home` names the leaf that a walk
with `leaf_find` settles on. The order `jkey_cmp` only places a key that is long enough for
the rule of its type; for a shorter one several separators compare equal and the descent
skips records.
-/
namespace Style9.Apfs

open Style9.Lib List

variable {σ : Type} {n : Nat} {hashed : Bool}

/-! ### Handing records to a callback -/

/-- Hand records to a callback until it stops. -/
def feed (fn : RecFn σ) : List CatRec → Visit σ → Visit σ
  | [], v => v
  | rec :: rest, v => if v.stopped then v else feed fn rest ⟨(fn rec v.acc).1, !(fn rec v.acc).2⟩

theorem feed_stopped (fn : RecFn σ) (recs : List CatRec) (v : Visit σ)
    (stopped : v.stopped = true) :
    feed fn recs v = v := by
  cases recs with
  | nil => rfl
  | cons rec rest => rw [feed, if_pos stopped]

theorem feed_append (fn : RecFn σ) (xs ys : List CatRec) (v : Visit σ) :
    feed fn (xs ++ ys) v = feed fn ys (feed fn xs v) := by
  induction xs generalizing v with
  | nil => rfl
  | cons rec rest ih =>
    cases stopped : v.stopped with
    | true =>
      rw [feed_stopped fn _ v stopped, feed_stopped fn _ v stopped, feed_stopped fn _ v stopped]
    | false => simp only [cons_append, feed, stopped, ih, Bool.false_eq_true, if_false]

theorem scanLeaf_eq_feed (fn : RecFn σ) (bno : Nat) (ents : List Ent) (v : Visit σ) :
    scanLeaf fn bno ents v = feed fn (ents.map fun e => ⟨e.key, e.val, bno⟩) v := by
  induction ents generalizing v with
  | nil => rfl
  | cons e rest ih => simp only [scanLeaf, map_cons, feed, ih]

variable (r : Reader)

/-- The children of an index node, once each is known to hand on its own records. The key
reaches only the first. -/
theorem scanIndex_cons (fn : RecFn σ)
    (down : Nat → Option Bytes → Visit σ → Bool × Visit σ) (key : Option Bytes)
    (kid : Ent × Tree n) (rest : List (Ent × Tree n)) (first : List CatRec)
    (here : r.child kid.1 = .ok kid.2.bno)
    (entered : ∀ v, down kid.2.bno key v = (true, feed fn first v))
    (found : ∀ k ∈ rest, r.child k.1 = .ok k.2.bno)
    (walked : ∀ k ∈ rest, ∀ v, down k.2.bno none v = (true, feed fn k.2.recs v)) (v : Visit σ) :
    scanIndex r.child down key ((kid :: rest).map Prod.fst) v =
      (true, feed fn (first ++ rest.flatMap fun k => k.2.recs) v) := by
  induction rest generalizing kid key first v with
  | nil =>
    cases stopped : v.stopped with
    | true => simp [scanIndex, stopped, feed_stopped]
    | false => simp [scanIndex, stopped, here, entered]
  | cons next rest ih =>
  cases stopped : v.stopped with
  | true => simp [scanIndex, stopped, feed_stopped]
  | false =>
  rw [map_cons, scanIndex, if_neg (by simp [stopped]), here]
  simp only [entered]
  rw [ih none next next.2.recs (found next mem_cons_self) (walked next mem_cons_self)
    (fun k member => found k (mem_cons_of_mem _ member)) (fun k member =>
      walked k (mem_cons_of_mem _ member))]
  rw [flatMap_cons, feed_append fn first]

theorem scanFrom_none (fn : RecFn σ) (t : Tree n) (stored : t.Stored r)
    (fuel : Nat) (enough : n < fuel) (v : Visit σ) :
    scanFrom r fn fuel t.bno none v = (true, feed fn t.recs v) := by
  induction n generalizing fuel v with
  | zero =>
    obtain ⟨node, block, leaf, ents⟩ := stored
    cases fuel with
    | zero => omega
    | succ fuel =>
      simp only [scanFrom, readNode_ok_iff.mpr block, leaf, ents, scanFirst, drop_zero,
        if_true, scanLeaf_eq_feed, Tree.recs_zero, Tree.ents]
  | succ n ih =>
  obtain ⟨⟨node, block, leaf, ents⟩, below⟩ := stored
  cases fuel with
  | zero => omega
  | succ fuel =>
  simp only [scanFrom, readNode_ok_iff.mpr block, leaf, ents, scanFirst, drop_zero,
    Tree.recs_succ, Tree.ents, Bool.false_eq_true, if_false]
  cases kids : t.kids with
  | nil => rfl
  | cons kid rest =>
  have walked : ∀ k ∈ kid :: rest, ∀ v, scanFrom r fn fuel k.2.bno none v =
      (true, feed fn k.2.recs v) :=
    fun k member => ih k.2 (below k (kids ▸ member)).2 fuel (by omega)
  exact scanIndex_cons r fn _ none kid rest kid.2.recs
    (below kid (by simp [kids])).1 (walked kid mem_cons_self)
    (fun k member => (below k (by simp [kids, member])).1)
    (fun k member => walked k (mem_cons_of_mem _ member)) v

/-! ### The two searches of a node -/

/-- The record's key is strictly below `key`. -/
def recBelow (hashed : Bool) (key : Bytes) (rec : CatRec) : Bool :=
  jkeyCmp hashed rec.key key == .lt

/-- The record's key is not above `key`. -/
def recUpTo (hashed : Bool) (key : Bytes) (rec : CatRec) : Bool := (jkeyCmp hashed rec.key key).isLE

theorem cut_of_sorted {key : Bytes} {recs : List CatRec}
    (sorted : recs.IsChain fun a b => jkeyCmp hashed a.key b.key = .lt)
    (long : Ordered hashed key) : Cut (recBelow hashed key) (recUpTo hashed key) recs where
  weaken rec _ strict := by
    simp only [recBelow, beq_iff_eq] at strict
    simp [recUpTo, strict]
  before := by
    have pairs : recs.Pairwise fun a b => jkeyCmp hashed a.key b.key = .lt := by
      have trans : Trans (fun a b : CatRec => jkeyCmp hashed a.key b.key = .lt)
        (fun a b : CatRec => jkeyCmp hashed a.key b.key = .lt)
        (fun a b : CatRec => jkeyCmp hashed a.key b.key = .lt) := ⟨jkeyCmp_lt_trans⟩
      exact isChain_iff_pairwise.mp sorted
    refine pairs.imp ?_
    intro a b less upTo
    simpa [recBelow] using jkeyCmp_lt_of_lt_of_isLE long less upTo

theorem drop_nodeLower (hashed : Bool) (key : Bytes) (bno : Nat) (ents : List Ent)
    (cut : Cut (recBelow hashed key) (recUpTo hashed key) (ents.map fun e => ⟨e.key, e.val, bno⟩)) :
    (ents.drop (nodeLower hashed ents key)).map (fun e => (⟨e.key, e.val, bno⟩ : CatRec)) =
      (ents.map fun e => ⟨e.key, e.val, bno⟩).dropWhile (recBelow hashed key) := by
  let below : Ent → Bool := fun e => jkeyCmp hashed e.key key == .lt
  have closed : ents.Pairwise fun x y => below y = true → below x = true := by
    have pairs := pairwise_map.mp cut.before
    refine pairs.imp_of_mem ?_
    intro x y _ memberY earlier strict
    exact earlier (cut.weaken ⟨y.key, y.val, bno⟩ (mem_map_of_mem memberY) strict)
  obtain ⟨front, back, rfl, all, none⟩ := exists_split_of_prefix closed
  have place : nodeLower hashed (front ++ back) key = front.length :=
    bisect_append below front back all none
  have keep : (back.map fun e => (⟨e.key, e.val, bno⟩ : CatRec)).dropWhile (recBelow hashed key) =
      back.map fun e => ⟨e.key, e.val, bno⟩ := by
    cases back with
    | nil => rfl
    | cons b rest =>
      have above : recBelow hashed key ⟨b.key, b.val, bno⟩ = false := none b mem_cons_self
      simp [above]
  rw [place, drop_left, map_append, dropWhile_append_of_pos, keep]
  intro rec member
  obtain ⟨e, inFront, rfl⟩ := mem_map.mp member
  exact all e inFront

/-- An index is entered at the last child whose separator is not above the key: nothing after
it starts at or under the key, and if anything stands before it, it starts at or under. -/
theorem nodeChildFor_split (hashed : Bool) (key : Bytes) (kids : List (Ent × Tree n))
    (some : kids ≠ [])
    (closed : (kids.map Prod.fst).Pairwise fun x y =>
      (jkeyCmp hashed y.key key).isLE = true → (jkeyCmp hashed x.key key).isLE = true) :
    ∃ front kid back, kids = front ++ kid :: back ∧
      nodeChildFor hashed (kids.map Prod.fst) key = front.length ∧
      (front ≠ [] → (jkeyCmp hashed kid.1.key key).isLE = true) ∧
      ∀ k ∈ back, (jkeyCmp hashed k.1.key key).isLE = false := by
  obtain ⟨front, back, rfl, all, none⟩ := exists_split_of_prefix (pairwise_map.mp closed)
  have place : nodeChildFor hashed ((front ++ back).map Prod.fst) key = front.length - 1 := by
    rw [nodeChildFor, map_append, bisect_append (fun e : Ent => (jkeyCmp hashed e.key key).isLE),
      length_map]
    · exact fun x member => by obtain ⟨k, inside, rfl⟩ := mem_map.mp member; exact all k inside
    · exact fun x member => by obtain ⟨k, inside, rfl⟩ := mem_map.mp member; exact none k inside
  rcases eq_nil_or_concat front with rfl | ⟨front, kid, rfl⟩
  · cases back with
    | nil => exact absurd rfl some
    | cons kid back =>
      exact ⟨[], kid, back, rfl, place, fun h => absurd rfl h,
        fun k member => none k (mem_cons_of_mem _ member)⟩
  · refine ⟨front, kid, back, by simp, by simpa using place, fun _ => all kid (by simp), none⟩

theorem Tree.Exact.split {t : Tree (n + 1)} {key : Bytes}
    (exact : t.Exact) (cut : Cut (recBelow hashed key) (recUpTo hashed key) t.recs) :
    ∃ front kid back, t.kids = front ++ kid :: back ∧
      nodeChildFor hashed t.ents key = front.length ∧
      (front ≠ [] → ∃ rec later, kid.2.recs = rec :: later ∧ recUpTo hashed key rec = true) ∧
      (∀ k ∈ front, ∀ rec ∈ k.2.recs, recBelow hashed key rec = true) ∧
      ∀ k ∈ back, ∀ rec ∈ k.2.recs, recUpTo hashed key rec = false := by
  obtain ⟨parts, across⟩ := Cut.flatMap_iff.mp cut
  have closed : (t.kids.map Prod.fst).Pairwise fun x y =>
      (jkeyCmp hashed y.key key).isLE = true → (jkeyCmp hashed x.key key).isLE = true := by
    refine pairwise_map.mpr (across.imp_of_mem ?_)
    intro x y memberX memberY earlier upTo
    obtain ⟨recX, laterX, recsX, keyX⟩ := exact.kid_head memberX
    obtain ⟨recY, laterY, recsY, keyY⟩ := exact.kid_head memberY
    have strict := earlier recX (by simp [recsX]) recY (by simp [recsY]) (by rwa [recUpTo, keyY])
    have weak := (parts x memberX).weaken recX (by simp [recsX]) strict
    rwa [recUpTo, keyX] at weak
  obtain ⟨front, kid, back, kids, place, starts, above⟩ :=
    nodeChildFor_split hashed key t.kids exact.1 closed
  have member : ∀ k, k ∈ front ∨ k = kid ∨ k ∈ back → k ∈ t.kids := by
    intro k inside; rw [kids]; simpa using inside
  obtain ⟨rec, later, records, filed⟩ := exact.kid_head (member kid (by simp))
  refine ⟨front, kid, back, kids, place, ?_, ?_, ?_⟩
  · exact fun some => ⟨rec, later, records, by rw [recUpTo, filed]; exact starts some⟩
  · intro k inFront x inK
    have upTo : recUpTo hashed key rec = true := by
      rw [recUpTo, filed]; exact starts (ne_nil_of_mem inFront)
    rw [kids, pairwise_append] at across
    exact across.2.2 k inFront kid (by simp) x inK rec (by simp [records]) upTo
  intro k inBack
  obtain ⟨first, rest, recordsK, filedK⟩ := exact.kid_head (member k (by simp [inBack]))
  have cutK := parts k (member k (by simp [inBack]))
  rw [recordsK] at cutK ⊢
  exact cutK.above_of_head (by rw [recUpTo, filedK]; exact above k inBack)

/-- The scan from a key hands on the records of the walk from the first one not below it. -/
theorem scanFrom_some (fn : RecFn σ) (key : Bytes) (t : Tree n)
    (stored : t.Stored r) (exact : t.Exact)
    (cut : Cut (recBelow r.hashed key) (recUpTo r.hashed key) t.recs)
    (fuel : Nat) (enough : n < fuel) (v : Visit σ) : scanFrom r fn fuel t.bno (some key) v =
      (true, feed fn (t.recs.dropWhile (recBelow r.hashed key)) v) := by
  induction n generalizing fuel v with
  | zero =>
    obtain ⟨node, block, leaf, ents⟩ := stored
    cases fuel with
    | zero => omega
    | succ fuel =>
      simp only [scanFrom, readNode_ok_iff.mpr block, leaf, ents, scanFirst, if_true,
        scanLeaf_eq_feed, Tree.recs_zero, Tree.ents]
      rw [drop_nodeLower r.hashed key t.bno t.leafEnts cut]
  | succ n ih =>
  obtain ⟨⟨node, block, leaf, ents⟩, below⟩ := stored
  obtain ⟨front, kid, back, kids, place, -, under, above⟩ := exact.split cut
  have parts := (Cut.flatMap_iff.mp cut).1
  have member : ∀ k ∈ kid :: back, k ∈ t.kids := by
    intro k inside; rw [kids]; exact mem_append_right _ inside
  cases fuel with
  | zero => omega
  | succ fuel =>
  have wanted : t.ents.drop front.length = (kid :: back).map Prod.fst := by
    rw [Tree.ents, kids, map_append, drop_left' (length_map _)]
  simp only [scanFrom, readNode_ok_iff.mpr block, leaf, ents, scanFirst, place, wanted,
    Bool.false_eq_true, if_false]
  have chosen := member kid mem_cons_self
  rw [scanIndex_cons r fn _ (some key) kid back (kid.2.recs.dropWhile (recBelow r.hashed key))
    (below kid chosen).1
    (fun v => ih kid.2 (below kid chosen).2 (exact.2 kid chosen).2 (parts kid chosen) fuel
      (by omega) v)
    (fun k inside => (below k (member k (mem_cons_of_mem _ inside))).1) (fun k inside v =>
      scanFrom_none r fn k.2
      (below k (member k (mem_cons_of_mem _ inside))).2 fuel (by omega) v)]
  -- left of the chosen child everything is below the key, right of it nothing is
  have dropped : t.recs.dropWhile (recBelow r.hashed key) =
      kid.2.recs.dropWhile (recBelow r.hashed key) ++ back.flatMap fun k => k.2.recs := by
    rw [Tree.recs_succ, kids, flatMap_append, flatMap_cons]
    refine dropWhile_append_mid ?_ ?_
    · intro rec inside
      obtain ⟨k, inFront, inK⟩ := mem_flatMap.mp inside
      exact under k inFront rec inK
    intro rec inside
    obtain ⟨k, inBack, inK⟩ := mem_flatMap.mp inside
    have above := above k inBack rec inK
    by_contra strict
    have weak := (parts k (member k (mem_cons_of_mem _ inBack))).weaken rec inK
      (by simpa using strict)
    rw [above] at weak
    exact Bool.false_ne_true weak
  rw [dropped]

/-! ### The leaf a key belongs in -/

/-- The whole-walk rule: the last record not above the key, or the first of all. -/
def homeRec (hashed : Bool) (key : Bytes) (recs : List CatRec) : Option CatRec :=
  (recs.filter (recUpTo hashed key)).getLast?.or recs.head?

theorem feed_leafFind (hashed : Bool) (key : Bytes) (recs : List CatRec) (lf : LeafFind) :
    feed (leafFind hashed key) recs ⟨lf, false⟩ =
      ⟨{ lfBno := ((recs.filter (recUpTo hashed key)).getLast?.map CatRec.bno).or lf.lfBno
         lfFirst := lf.lfFirst.or (recs.head?.map CatRec.bno) }, false⟩ := by
  induction recs generalizing lf with
  | nil => simp [feed]
  | cons rec rest ih =>
  have step : feed (leafFind hashed key) (rec :: rest) ⟨lf, false⟩ =
      feed (leafFind hashed key) rest ⟨(leafFind hashed key rec lf).1, false⟩ := rfl
  rw [step, ih]
  cases first : lf.lfFirst <;> cases upTo : (jkeyCmp hashed rec.key key).isLE <;>
    simp [leafFind, recUpTo, first, upTo, getLast?_cons]

theorem walk_leafFind (key : Bytes) (t : Tree n) (stored : t.Stored r) (depth : n < 9) :
    ((btreeWalk r t.bno (leafFind r.hashed key) ⟨none, none⟩).2.acc).leaf =
      (homeRec r.hashed key t.recs).map CatRec.bno := by
  rw [btreeWalk, btreeScan, scanFrom_none r _ t stored 9 depth, feed_leafFind]
  simp only [LeafFind.leaf, homeRec, Option.or_none, Option.none_or]
  cases (t.recs.filter (recUpTo r.hashed key)).getLast? <;> simp

/-- The descent stops at the leaf of the whole-walk rule; a tree without records has one
leaf, its root. -/
theorem homeFrom_eq (key : Bytes) (t : Tree n) (stored : t.Stored r)
    (exact : t.Exact) (cut : Cut (recBelow r.hashed key) (recUpTo r.hashed key) t.recs)
    (fuel : Nat) (enough : n < fuel) : homeFrom r key fuel t.bno =
      .ok (((homeRec r.hashed key t.recs).map CatRec.bno).getD t.bno) := by
  induction n generalizing fuel with
  | zero =>
    obtain ⟨node, block, leaf, ents⟩ := stored
    cases fuel with
    | zero => omega
    | succ fuel =>
    have settled : ∀ rec ∈ homeRec r.hashed key t.recs, rec.bno = t.bno := by
      intro rec found
      have member : rec ∈ t.recs := by
        rw [homeRec, Option.mem_def, Option.or_eq_some_iff] at found
        rcases found with last | ⟨-, head⟩
        · exact mem_of_mem_filter (mem_of_mem_getLast? last)
        · exact mem_of_mem_head? head
      obtain ⟨e, -, rfl⟩ := mem_map.mp member
      rfl
    simp only [homeFrom, readNode_ok_iff.mpr block, leaf, if_true]
    cases found : homeRec r.hashed key t.recs with
    | none => rfl
    | some rec => simp [settled rec found]
  | succ n ih =>
  obtain ⟨⟨node, block, leaf, ents⟩, below⟩ := stored
  obtain ⟨front, kid, back, kids, place, starts, -, above⟩ := exact.split cut
  have member : kid ∈ t.kids := by simp [kids]
  cases fuel with
  | zero => omega
  | succ fuel =>
  have chosen : t.ents.getD front.length default = kid.1 := by
    simp [Tree.ents, kids]
  have nonempty : t.ents.isEmpty = false := by simp [Tree.ents, kids]
  simp only [homeFrom, readNode_ok_iff.mpr block, leaf, ents, nonempty, place, chosen,
    (below kid member).1, Bool.false_eq_true, if_false]
  rw [ih kid.2 (below kid member).2 (exact.2 kid member).2 ((Cut.flatMap_iff.mp cut).1 kid member)
    fuel (by omega)]
  obtain ⟨rec, later, records, -⟩ := exact.kid_head member
  -- the last record not above the key lies in the chosen child, or there is none at all
  have none : (back.flatMap fun k => k.2.recs).filter (recUpTo r.hashed key) = [] := by
    refine filter_eq_nil_iff.mpr ?_
    intro x inside
    obtain ⟨k, inBack, inK⟩ := mem_flatMap.mp inside
    simp [above k inBack x inK]
  have same : homeRec r.hashed key t.recs = homeRec r.hashed key kid.2.recs := by
    rw [homeRec, homeRec, Tree.recs_succ, kids, flatMap_append, flatMap_cons,
      filter_append, filter_append, none, append_nil]
    cases front with
    | nil => simp [records]
    | cons k rest =>
      obtain ⟨x, later', recs', upTo⟩ := starts (by simp)
      simp [recs', upTo, getLast?_append, getLast?_cons]
  have settled : ∃ x, homeRec r.hashed key kid.2.recs = some x := by
    rw [homeRec, records]
    cases ((rec :: later).filter (recUpTo r.hashed key)).getLast? with
    | none => exact ⟨rec, rfl⟩
    | some x => exact ⟨x, rfl⟩
  obtain ⟨x, found⟩ := settled
  rw [same, found]
  rfl

/-! ### The two readings agree -/

/-- The callback that collects every record and never stops. -/
def collect : RecFn (List CatRec) := fun rec seen => (seen ++ [rec], true)

theorem feed_collect (recs seen : List CatRec) :
    feed collect recs ⟨seen, false⟩ = ⟨seen ++ recs, false⟩ := by
  induction recs generalizing seen with
  | nil => simp [feed]
  | cons rec rest ih =>
    have step : feed collect (rec :: rest) ⟨seen, false⟩ =
        feed collect rest ⟨seen ++ [rec], false⟩ := rfl
    rw [step, ih, append_assoc, singleton_append]

/-- **Keyed descent equals the whole walk**: for a key the order can place, present or not,
    the scan yields the walk from the first record not below the key, and `leaf_home` names
    the leaf of the walk's rule. -/
theorem keyed_descent_eq_walk (r : Reader) {n : Nat} (t : Tree n) (depth : n < apfsTreeMaxDepth)
    (stored : t.Stored r) (exact : t.Exact)
    (sorted : t.recs.IsChain fun a b => jkeyCmp r.hashed a.key b.key = .lt)
    (key : Bytes) (long : Ordered r.hashed key) :
    ∃ walk leaf, btreeWalk r t.bno collect [] = (true, ⟨walk, false⟩) ∧
      walk = t.recs ∧
      btreeScan r t.bno (some key) collect [] =
        (true, ⟨walk.dropWhile fun rec => jkeyCmp r.hashed rec.key key == .lt, false⟩) ∧
      leafHome r t.bno key = .ok leaf ∧
      (walk ≠ [] → ((btreeWalk r t.bno (leafFind r.hashed key) ⟨none, none⟩).2.acc).leaf =
        some leaf) ∧
      (walk = [] → leaf = t.bno) := by
  have depth : n < 8 := depth
  have cut := cut_of_sorted sorted long
  refine ⟨t.recs, ((homeRec r.hashed key t.recs).map CatRec.bno).getD t.bno, ?_, rfl, ?_, ?_,
    ?_, ?_⟩
  · rw [btreeWalk, btreeScan, scanFrom_none r _ t stored 9 (by omega), feed_collect, nil_append]
  · rw [btreeScan, scanFrom_some r _ key t stored exact cut 9 (by omega), feed_collect, nil_append]
    rfl
  · exact homeFrom_eq r key t stored exact cut apfsTreeMaxDepth depth
  · intro some
    rw [walk_leafFind r key t stored (by omega), homeRec]
    cases (t.recs.filter (recUpTo r.hashed key)).getLast? with
    | some rec => rfl
    | none =>
      cases records : t.recs with
      | nil => exact absurd records some
      | cons rec rest => rfl
  · intro empty
    rw [empty]
    rfl

/-- A run of one block of file 5. -/
def runEnt (logical phys : Nat) : Ent :=
  ⟨extentKey 5 logical, .fileExtent ⟨4096, 0, phys, 0⟩, 0, 0⟩

/-- Two leaves, each with one run of file 5, under one index node. -/
def twoRunsTree : Tree 1 :=
  (⟨10, [(⟨extentKey 5 0, .child 101, 0, 0⟩, (⟨11, [runEnt 0 200]⟩ : LeafShape)),
    (⟨extentKey 5 4096, .child 102, 0, 0⟩, (⟨12, [runEnt 4096 300]⟩ : LeafShape))]⟩ :
    IndexShape LeafShape)

/-- A device that holds `twoRunsTree`, with the object map in block 7. -/
def twoRunsReader : Reader where
  disk
    | 7 => .omapNode { (default : OmapNode) with
        leaf := true, ents := [⟨101, 1, 11, 0, 0⟩, ⟨102, 1, 12, 0, 0⟩] }
    | 10 => .node { (default : BtNode) with
        leaf := false
        ents := [⟨extentKey 5 0, .child 101, 0, 0⟩, ⟨extentKey 5 4096, .child 102, 0, 0⟩] }
    | 11 => .node { (default : BtNode) with
        leaf := true, ents := [runEnt 0 200] }
    | 12 => .node { (default : BtNode) with
        leaf := true, ents := [runEnt 4096 300] }
    | _ => .torn
  omap := 7
  xid := 1
  hashed := true

theorem twoRunsTree_stored : twoRunsTree.Stored twoRunsReader := by
  refine ⟨⟨_, rfl, rfl, rfl⟩, ?_⟩
  intro kid member
  rcases mem_cons.mp member with rfl | member
  · exact ⟨rfl, ⟨_, rfl, rfl, rfl⟩⟩
  · rw [mem_singleton.mp member]
    exact ⟨rfl, ⟨_, rfl, rfl, rfl⟩⟩

theorem twoRunsTree_exact : twoRunsTree.Exact := by
  refine ⟨cons_ne_nil _ _, ?_⟩
  intro kid member
  rcases mem_cons.mp member with rfl | member
  · exact ⟨rfl, trivial⟩
  · rw [mem_singleton.mp member]
    exact ⟨rfl, trivial⟩

theorem twoRunsTree_sorted :
    twoRunsTree.recs.IsChain fun a b => jkeyCmp twoRunsReader.hashed a.key b.key = .lt := by
  decide

/-- The descent on a key that falls between the two leaves' records. -/
theorem keyed_descent_between_runs :
    ∃ walk leaf, btreeWalk twoRunsReader 10 collect [] = (true, ⟨walk, false⟩) ∧
      walk = twoRunsTree.recs ∧
      btreeScan twoRunsReader 10 (some (extentKey 5 100)) collect [] = (true,
        ⟨walk.dropWhile fun rec => jkeyCmp true rec.key (extentKey 5 100) == .lt, false⟩) ∧
      leafHome twoRunsReader 10 (extentKey 5 100) = .ok leaf ∧
      (walk ≠ [] → ((btreeWalk twoRunsReader 10 (leafFind true (extentKey 5 100))
        ⟨none, none⟩).2.acc).leaf = some leaf) ∧
      (walk = [] → leaf = 10) :=
  keyed_descent_eq_walk twoRunsReader twoRunsTree (by decide) twoRunsTree_stored
    twoRunsTree_exact twoRunsTree_sorted (extentKey 5 100) (by decide)

/-- A file-extent key without its offset compares equal to both separators: the descent takes
the second leaf, and the scan misses the first record although it is not below the key. -/
theorem short_key_scan_skips : twoRunsTree.Stored twoRunsReader ∧ twoRunsTree.Exact ∧
      (twoRunsTree.recs.IsChain fun a b => jkeyCmp twoRunsReader.hashed a.key b.key = .lt) ∧
      (btreeScan twoRunsReader twoRunsTree.bno (some (jKey apfsTypeFileExtent 5)) collect
        []).2.acc ≠
        (btreeWalk twoRunsReader twoRunsTree.bno collect []).2.acc.dropWhile
          fun rec => jkeyCmp twoRunsReader.hashed rec.key (jKey apfsTypeFileExtent 5) == .lt :=
  ⟨twoRunsTree_stored, twoRunsTree_exact, twoRunsTree_sorted, by decide⟩

end Style9.Apfs
