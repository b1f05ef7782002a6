import Style9.Apfs.Read

/-!
# Versions in an object map

An object map is sorted by oid and then by the transaction that wrote the entry, so the versions of
one object lie side by side and may straddle two leaves. A lookup wants the newest version that its
transaction can see. The descent of `fs_apfs_omap_lookup` skips every index entry newer than the
transaction before it looks at oids: the child behind such an entry is never entered, whatever else
is in it.
-/
namespace Style9.Apfs

open Style9.Lib List Nat

/-- The order of an object map: by oid, then by transaction. -/
def OmapEnt.Before (e e' : OmapEnt) : Prop :=
  e.okOid < e'.okOid ∨ e.okOid = e'.okOid ∧ e.okXid < e'.okXid

/-- A version of the object that the transaction can see. -/
def OmapEnt.Visible (oid xid : Nat) (e : OmapEnt) : Prop := e.okOid = oid ∧ e.okXid ≤ xid

/-- An entry of an index node, with the records below it. -/
structure OmapSep where
  ent : OmapEnt
  recs : List OmapEnt

/-- An entry of the node at hand, with the index entries of its child. -/
structure OmapKid extends OmapSep where
  seps : List OmapSep

def OmapKid.Filed (kid : OmapKid) : Prop :=
  ∃ first later, kid.recs = first :: later ∧ first.okOid = kid.ent.okOid ∧
    first.okXid = kid.ent.okXid

/-- A block is the top of an object map of so many index levels, with these records and these index
entries; each child is filed under its first key, and nothing is kept in block zero. -/
def OmapStored (disk : Nat → Block) : Nat → Nat → List OmapEnt → List OmapSep → Prop
  | 0, bno, recs, seps => seps = [] ∧ (∀ e ∈ recs, e.ovPaddr ≠ 0) ∧
      ∃ node, disk bno = .omapNode node ∧ node.leaf = true ∧ node.ents = recs
  | n + 1, bno, recs, seps =>
    ∃ node, ∃ kids : List OmapKid, disk bno = .omapNode node ∧ node.leaf = false ∧
      node.ents = kids.map (·.ent) ∧ recs = kids.flatMap (·.recs) ∧
      seps = kids.flatMap (fun kid => kid.toOmapSep :: kid.seps) ∧
      ∀ kid ∈ kids, kid.ent.ovPaddr ≠ 0 ∧ OmapStored disk n kid.ent.ovPaddr kid.recs kid.seps ∧
        kid.Filed

/-- The newest version the transaction can see. -/
structure Newest (recs : List OmapEnt) (oid xid : Nat) (e : OmapEnt) : Prop where
  member : e ∈ recs
  visible : e.Visible oid xid
  newest : ∀ e' ∈ recs, e'.Visible oid xid → e'.okXid ≤ e.okXid

/-- What a lookup is to answer: the block of the newest visible version, or an error when there is
none. -/
def Answers (recs : List OmapEnt) (oid xid : Nat) : Except Err Nat → Prop
  | .ok b => ∃ e, Newest recs oid xid e ∧ e.ovPaddr = b
  | .error _ => ∀ e ∈ recs, ¬ e.Visible oid xid

/-! ### One node -/

variable {oid xid n fuel bno b : Nat} {e : OmapEnt} {kid kid' : OmapKid} {recs recs' : List OmapEnt}
  {seps : List OmapSep}
  {disk : Nat → Block}

/-- An entry that an index node goes by. -/
def OmapKid.Fits (oid xid : Nat) (kid : OmapKid) : Prop := kid.ent.okXid ≤ xid ∧ kid.ent.okOid ≤ oid

/-- Where an index node sends a lookup: through the last entry that is neither newer nor of a
greater oid. -/
theorem omapConsider_index (oid xid : Nat) (kids : List OmapKid) :
    (((kids.map (·.ent)).foldl (omapConsider false oid xid) (0, 0)).2 = 0 ∧
      ∀ kid ∈ kids, ¬ kid.Fits oid xid) ∨
      ∃ early kid back, kids = early ++ kid :: back ∧ kid.Fits oid xid ∧
        (∀ kid' ∈ back, ¬ kid'.Fits oid xid) ∧
        ((kids.map (·.ent)).foldl (omapConsider false oid xid) (0, 0)).2 = kid.ent.ovPaddr := by
  induction kids using reverseRecOn with
  | nil => exact .inl ⟨rfl, nofun⟩
  | append_singleton kids last ih =>
  rw [map_append, foldl_append]
  generalize (kids.map (·.ent)).foldl (omapConsider false oid xid) (0, 0) = best at ih ⊢
  change (_ ∧ _) ∨ ∃ early kid back, _ ∧ _ ∧ _ ∧ (omapConsider false oid xid best last.ent).2 = _
  by_cases fits : last.Fits oid xid
  · refine .inr ⟨kids, last, [], rfl, fits, nofun, ?_⟩
    simp [omapConsider, not_lt.mpr fits.1, not_lt.mpr fits.2]
  have skipped : (omapConsider false oid xid best last.ent).2 = best.2 := by
    unfold OmapKid.Fits at fits
    simp only [omapConsider, Bool.false_eq_true, if_false]
    split
    · rfl
    · rw [if_pos (by omega)]
  rcases ih with ⟨zero, none⟩ | ⟨early, kid, back, rfl, fit, none, next⟩
  · refine .inl ⟨skipped.trans zero, fun kid member => ?_⟩
    rcases mem_append.mp member with before | here
    · exact none kid before
    · exact mem_singleton.mp here ▸ fits
  · refine .inr ⟨early, kid, back ++ [last], by simp, fit, fun kid' member => ?_,
      skipped.trans next⟩
    rcases mem_append.mp member with before | here
    · exact none kid' before
    · exact mem_singleton.mp here ▸ fits

theorem omapConsider_leaf (oid xid : Nat) (ents : List OmapEnt) (best : Nat × Nat) :
    (ents.foldl (omapConsider true oid xid) best = best ∧
        ∀ e ∈ ents, e.okOid = oid → e.okXid ≤ xid → e.okXid < best.1) ∨
      ∃ e ∈ ents, e.okOid = oid ∧ e.okXid ≤ xid ∧ best.1 ≤ e.okXid ∧
        ents.foldl (omapConsider true oid xid) best = (e.okXid, e.ovPaddr) ∧
        ∀ e' ∈ ents, e'.okOid = oid → e'.okXid ≤ xid → e'.okXid ≤ e.okXid := by
  induction ents generalizing best with
  | nil => exact .inl ⟨rfl, by simp⟩
  | cons e rest ih =>
  rw [foldl_cons]
  by_cases better : e.okOid = oid ∧ e.okXid ≤ xid ∧ best.1 ≤ e.okXid
  · obtain ⟨same, seen, newer⟩ := better
    have step : omapConsider true oid xid best e = (e.okXid, e.ovPaddr) := by
      simp [omapConsider, same, not_lt.mpr seen, not_lt.mpr newer]
    rw [step]
    right
    rcases ih (e.okXid, e.ovPaddr) with ⟨kept, older⟩ |
      ⟨best', member, same', seen', newer', kept, greatest⟩
    · refine ⟨e, mem_cons_self, same, seen, newer, kept, ?_⟩
      simp only [forall_mem_cons]
      exact ⟨fun _ _ => le_rfl, fun e' member' is see => (older e' member' is see).le⟩
    · refine ⟨best', mem_cons_of_mem _ member, same', seen', newer.trans newer', kept, ?_⟩
      simp only [forall_mem_cons]
      exact ⟨fun _ _ => newer', greatest⟩
  have step : omapConsider true oid xid best e = best := by
    simp only [omapConsider, if_true]
    split
    · rfl
    · rw [if_pos (by omega)]
  rw [step]
  rcases ih best with ⟨kept, older⟩ | ⟨best', member, same', seen', newer', kept, greatest⟩
  · refine .inl ⟨kept, ?_⟩
    simp only [forall_mem_cons]
    exact ⟨fun _ _ => by omega, older⟩
  · refine .inr ⟨best', mem_cons_of_mem _ member, same', seen', newer', kept, ?_⟩
    simp only [forall_mem_cons]
    exact ⟨fun _ _ => by omega, greatest⟩

theorem exists_newest (recs : List OmapEnt) (oid xid : Nat) :
    (∀ e ∈ recs, ¬ e.Visible oid xid) ∨ ∃ e, Newest recs oid xid e := by
  rcases omapConsider_leaf oid xid recs (0, 0) with ⟨-, older⟩ |
    ⟨e, member, same, seen, -, -, greatest⟩
  · exact .inl fun e member visible => not_lt_zero _ (older e member visible.1 visible.2)
  · exact .inr ⟨e, member, ⟨same, seen⟩, fun e' member' visible =>
      greatest e' member' visible.1 visible.2⟩

theorem Newest.unique {e' : OmapEnt} (sorted : recs.Pairwise OmapEnt.Before)
    (newest : Newest recs oid xid e)
    (newest' : Newest recs oid xid e') : e = e' := by
  by_contra other
  have apart : recs.Pairwise fun e e' => e.okOid ≠ e'.okOid ∨ e.okXid ≠ e'.okXid :=
    sorted.imp fun before => by unfold OmapEnt.Before at before; omega
  have : Std.Symm fun e e' : OmapEnt => e.okOid ≠ e'.okOid ∨ e.okXid ≠ e'.okXid :=
    ⟨fun _ _ => Or.imp Ne.symm Ne.symm⟩
  have differ := apart.forall newest.member newest'.member other
  have le := newest.newest e' newest'.member newest'.visible
  have ge := newest'.newest e newest.member newest.visible
  have same := newest.visible.1
  have same' := newest'.visible.1
  omega

theorem Newest.restrict (newest : Newest recs oid xid e) (part : recs' ⊆ recs)
    (member : e ∈ recs') :
    Newest recs' oid xid e :=
  ⟨member, newest.visible, fun e' inside => newest.newest e' (part inside)⟩

theorem OmapKid.recs_subset {kids : List OmapKid} (member : kid ∈ kids) :
    kid.recs ⊆ kids.flatMap (·.recs) :=
  fun _ inside => mem_flatMap.mpr ⟨kid, member, inside⟩

/-- The child after the one with the newest version begins with a newer one or another object. -/
theorem Newest.not_fits_after (newest : Newest recs oid xid e) (inside : e ∈ kid.recs)
    (part : kid'.recs ⊆ recs)
    (filed : kid'.Filed) (before : ∀ x ∈ kid.recs, ∀ y ∈ kid'.recs, x.Before y) :
    ¬ kid'.Fits oid xid := by
  rintro ⟨seen, low⟩
  obtain ⟨first, later, recs', name, written⟩ := filed
  have top : first ∈ kid'.recs := by simp [recs']
  have order := before e inside first top
  obtain ⟨same, -⟩ := newest.visible
  unfold OmapEnt.Before at order
  have older := newest.newest first (part top) ⟨by omega, by omega⟩
  omega

/-- If a version is visible before a child that holds one as well, the child's first record is one.
-/
theorem OmapKid.fits_of_visible_before {e' : OmapEnt} (visible : e.Visible oid xid)
    (inside : e ∈ kid.recs)
    (filed : kid.Filed) (sorted : kid.recs.Pairwise OmapEnt.Before) (visible' : e'.Visible oid xid)
    (before : ∀ y ∈ kid.recs, e'.Before y) : kid.Fits oid xid := by
  obtain ⟨first, later, recs', name, written⟩ := filed
  have order := before first (by simp [recs'])
  obtain ⟨same, seen⟩ := visible
  obtain ⟨same', -⟩ := visible'
  unfold OmapKid.Fits
  rw [recs'] at inside sorted
  rcases mem_cons.mp inside with rfl | further
  · unfold OmapEnt.Before at order
    omega
  · have within := (pairwise_cons.mp sorted).1 e further
    unfold OmapEnt.Before at order within
    omega

/-! ### A whole map -/

theorem OmapStored.sep_recs (stored : OmapStored disk n bno recs seps) {sep : OmapSep}
    (member : sep ∈ seps) :
    sep.recs ⊆ recs := by
  induction n generalizing bno recs seps with
  | zero =>
    rw [stored.1] at member
    cases member
  | succ n ih =>
  obtain ⟨node, kids, -, -, -, rfl, rfl, below⟩ := stored
  obtain ⟨kid, among, here⟩ := mem_flatMap.mp member
  rcases mem_cons.mp here with rfl | deeper
  · exact OmapKid.recs_subset among
  · exact fun e inside => OmapKid.recs_subset among (ih (below kid among).2.1 deeper inside)

/-- One level of the descent. -/
theorem OmapStored.step (oid xid fuel : Nat) (stored : OmapStored disk (n + 1) bno recs seps) :
    ∃ kids : List OmapKid,
    recs = kids.flatMap (·.recs) ∧ seps = kids.flatMap (fun kid => kid.toOmapSep :: kid.seps) ∧
    (∀ kid ∈ kids, OmapStored disk n kid.ent.ovPaddr kid.recs kid.seps ∧ kid.Filed) ∧
    ((∀ kid ∈ kids, ¬ kid.Fits oid xid) ∧ omapDescend disk oid xid (fuel + 1) bno = .error .inval ∨
      ∃ early kid back, kids = early ++ kid :: back ∧ kid.Fits oid xid ∧
        (∀ kid' ∈ back, ¬ kid'.Fits oid xid) ∧
        omapDescend disk oid xid (fuel + 1) bno =
          omapDescend disk oid xid fuel kid.ent.ovPaddr) := by
  obtain ⟨node, kids, block, inner, ents, rfl, rfl, below⟩ := stored
  refine ⟨kids, rfl, rfl, fun kid member => (below kid member).2, ?_⟩
  have next : omapNext node oid xid =
      ((kids.map (·.ent)).foldl (omapConsider false oid xid) (0, 0)).2 := by
    rw [omapNext, inner, ents]
  simp only [omapDescend, readOmapNode, readAs, block, Block.sealed, Block.asOmapNode, if_true,
    inner,
    Bool.false_eq_true, if_false, next]
  rcases omapConsider_index oid xid kids with ⟨zero, none⟩ |
    ⟨early, kid, back, split, fits, none, here⟩
  · exact .inl ⟨none, if_pos zero⟩
  · refine .inr ⟨early, kid, back, split, fits, none, ?_⟩
    rw [here, if_neg (below kid (by simp [split])).1]

theorem OmapStored.leaf (oid xid fuel : Nat) (stored : OmapStored disk 0 bno recs seps) :
    (∀ e ∈ recs, ¬ e.Visible oid xid) ∧ omapDescend disk oid xid (fuel + 1) bno = .error .inval ∨
      ∃ e, Newest recs oid xid e ∧ omapDescend disk oid xid (fuel + 1) bno = .ok e.ovPaddr := by
  obtain ⟨-, placed, node, block, leaf, rfl⟩ := stored
  simp only [omapDescend, readOmapNode, readAs, block, Block.sealed, Block.asOmapNode, leaf,
    if_true, omapNext]
  rcases omapConsider_leaf oid xid node.ents (0, 0) with ⟨kept, older⟩ |
    ⟨e, member, same, seen, -, kept, greatest⟩
  · rw [kept, if_pos rfl]
    exact .inl ⟨fun e member visible => not_lt_zero _ (older e member visible.1 visible.2), rfl⟩
  · rw [kept, if_neg (placed e member)]
    exact .inr ⟨e, ⟨member, ⟨same, seen⟩, fun e' inside visible =>
      greatest e' inside visible.1 visible.2⟩, rfl⟩

/-- Whatever is answered is a visible version. -/
theorem OmapStored.sound (stored : OmapStored disk n bno recs seps)
    (found : omapDescend disk oid xid fuel bno = .ok b) :
    ∃ e ∈ recs, e.Visible oid xid := by
  induction n generalizing fuel bno recs seps with
  | zero =>
    cases fuel with
    | zero => cases found
    | succ fuel =>
    rcases stored.leaf oid xid fuel with ⟨-, failed⟩ | ⟨e, newest, -⟩
    · rw [failed] at found
      cases found
    · exact ⟨e, newest.member, newest.visible⟩
  | succ n ih =>
  cases fuel with
  | zero => cases found
  | succ fuel =>
  obtain ⟨kids, rfl, -, below, ⟨-, failed⟩ | ⟨early, kid, back, rfl, -, -, next⟩⟩ :=
    stored.step oid xid fuel
  · rw [failed] at found
    cases found
  · have member : kid ∈ early ++ kid :: back := by simp
    obtain ⟨e, inside, visible⟩ := ih (below kid member).1 (next ▸ found)
    exact ⟨e, OmapKid.recs_subset member inside, visible⟩

/-- The child with the newest version is the one entered, or one that the descent has turned away
from. -/
theorem Newest.here_or_back {early back : List OmapKid}
    (newest : Newest ((early ++ kid :: back).flatMap (·.recs)) oid xid e)
    (sorted : ((early ++ kid :: back).flatMap (·.recs)).Pairwise OmapEnt.Before) (filed : kid.Filed)
    (fits : kid.Fits oid xid) (member : kid' ∈ early ++ kid :: back) (inside : e ∈ kid'.recs) :
    kid' = kid ∨ kid' ∈ back := by
  rcases mem_append.mp member with before | after
  · have across :=
      (pairwise_append.mp (pairwise_flatMap.mp sorted).2).2.2 kid' before kid mem_cons_self
    exact absurd fits (newest.not_fits_after inside (OmapKid.recs_subset (by simp)) filed across)
  · exact mem_cons.mp after

/-- A version that no newer index entry hides is found. -/
theorem OmapStored.finds (stored : OmapStored disk n bno recs seps)
    (sorted : recs.Pairwise OmapEnt.Before)
    (newest : Newest recs oid xid e) (shallow : n < fuel)
    (clear : ∀ sep ∈ seps, e ∈ sep.recs → sep.ent.okXid ≤ xid) :
    omapDescend disk oid xid fuel bno = .ok e.ovPaddr := by
  obtain ⟨fuel, rfl⟩ := exists_eq_succ_of_ne_zero (ne_of_gt (zero_lt_of_lt shallow))
  induction n generalizing fuel bno recs seps with
  | zero =>
    rcases stored.leaf oid xid fuel with ⟨none, -⟩ | ⟨e', newest', found⟩
    · exact absurd newest.visible (none e newest.member)
    · rw [newest.unique sorted newest']
      exact found
  | succ n ih =>
  obtain ⟨fuel, rfl⟩ :=
    exists_eq_succ_of_ne_zero (ne_of_gt (zero_lt_of_lt (lt_of_succ_lt_succ shallow)))
  obtain ⟨kids, rfl, rfl, below, chosen⟩ := stored.step oid xid (fuel + 1)
  obtain ⟨kid, member, inside⟩ := mem_flatMap.mp newest.member
  obtain ⟨deeper, filed⟩ := below kid member
  have order := (pairwise_flatMap.mp sorted).1 kid member
  have fits : kid.Fits oid xid := by
    refine ⟨clear kid.toOmapSep (mem_flatMap.mpr ⟨kid, member, mem_cons_self⟩) inside, ?_⟩
    obtain ⟨first, later, recs, name, -⟩ := filed
    have same := newest.visible.1
    rw [recs] at inside order
    rcases mem_cons.mp inside with rfl | further
    · omega
    · have before := (pairwise_cons.mp order).1 e further
      unfold OmapEnt.Before at before
      omega
  rcases chosen with ⟨none, -⟩ | ⟨early, kid', back, rfl, fits', none, next⟩
  · exact absurd fits (none kid member)
  rcases newest.here_or_back sorted (below kid' (by simp)).2 fits' member inside with rfl | after
  · rw [next]
    exact ih deeper order (newest.restrict (OmapKid.recs_subset member) inside)
      (fun sep among => clear sep (mem_flatMap.mpr ⟨kid, member, mem_cons_of_mem _ among⟩)) fuel
      (lt_of_succ_lt_succ shallow)
  · exact absurd fits (none kid after)

/-- A version that a newer index entry hides, or that lies too deep, is not found, and nothing else
is. -/
theorem OmapStored.fails (stored : OmapStored disk n bno recs seps)
    (sorted : recs.Pairwise OmapEnt.Before)
    (newest : Newest recs oid xid e)
    (hidden : fuel ≤ n ∨ ∃ sep ∈ seps, e ∈ sep.recs ∧ xid < sep.ent.okXid) (b : Nat) :
    omapDescend disk oid xid fuel bno ≠ .ok b := by
  induction fuel generalizing n bno recs seps with
  | zero => exact nofun
  | succ fuel ih =>
  cases n with
  | zero =>
    rcases hidden with deep | ⟨sep, member, -⟩
    · omega
    · rw [stored.1] at member
      cases member
  | succ n =>
  obtain ⟨kids, rfl, rfl, below, ⟨-, failed⟩ | ⟨early, kid, back, rfl, fits, none, next⟩⟩ :=
    stored.step oid xid fuel
  · rw [failed]
    exact nofun
  have here : kid ∈ early ++ kid :: back := by simp
  rw [next]
  -- the child with the version is not the one entered, or the version is hidden in it too
  have inner : ∀ kid' ∈ early ++ kid :: back, e ∈ kid'.recs →
      (kid' = kid → fuel ≤ n ∨ ∃ sep ∈ kid.seps, e ∈ sep.recs ∧ xid < sep.ent.okXid) →
      omapDescend disk oid xid fuel kid.ent.ovPaddr ≠ .ok b := by
    intro kid' member inside deeper found
    rcases newest.here_or_back sorted (below kid here).2 fits member inside with rfl | after
    · exact ih (below kid' member).1 ((pairwise_flatMap.mp sorted).1 kid' member)
        (newest.restrict (OmapKid.recs_subset member) inside) (deeper rfl) found
    · obtain ⟨e', inside', visible'⟩ := (below kid here).1.sound found
      have across := (pairwise_cons.mp (pairwise_append.mp (pairwise_flatMap.mp sorted).2).2.1).1
        kid' after e' inside'
      exact none kid' after
        (OmapKid.fits_of_visible_before newest.visible inside (below kid' member).2
        ((pairwise_flatMap.mp sorted).1 kid' member) visible' across)
  rcases hidden with deep | ⟨sep, member, inside, newer⟩
  · obtain ⟨kid', member, inside⟩ := mem_flatMap.mp newest.member
    exact inner kid' member inside fun _ => .inl (le_of_succ_le_succ deep)
  obtain ⟨kid', among, place⟩ := mem_flatMap.mp member
  rcases mem_cons.mp place with rfl | deeper
  · refine inner kid' among inside fun same => absurd fits.1 ?_
    rw [← same]
    exact not_le.mpr newer
  · refine inner kid' among ((below kid' among).1.sep_recs deeper inside) fun same =>
      .inr ⟨sep, ?_, inside, newer⟩
    rw [← same]
    exact deeper

/-- A lookup answers with the newest visible version, and fails only where there is none, exactly if
that version is below no index entry newer than the transaction and below at most fifteen levels. -/
theorem omapLookup_newest (disk : Nat → Block) (n root oid xid : Nat) (recs : List OmapEnt)
    (seps : List OmapSep)
    (stored : OmapStored disk n root recs seps) (sorted : recs.Pairwise OmapEnt.Before) :
    Answers recs oid xid (omapLookup disk root oid xid) ↔
      ∀ e, Newest recs oid xid e → n < 16 ∧ ∀ sep ∈ seps, e ∈ sep.recs → sep.ent.okXid ≤ xid := by
  unfold omapLookup
  constructor
  · intro answers e newest
    by_contra hidden
    have failed : ∀ b, omapDescend disk oid xid 16 root ≠ .ok b := stored.fails sorted newest (by
      by_contra clear
      push Not at clear
      exact hidden clear)
    cases found : omapDescend disk oid xid 16 root with
    | ok b => exact failed b found
    | error err =>
      rw [found] at answers
      exact answers e newest.member newest.visible
  · intro clear
    rcases exists_newest recs oid xid with none | ⟨e, newest⟩
    · cases found : omapDescend disk oid xid 16 root with
      | ok b =>
        obtain ⟨e, member, visible⟩ := stored.sound found
        exact absurd visible (none e member)
      | error err => exact none
    · obtain ⟨shallow, above⟩ := clear e newest
      rw [stored.finds sorted newest shallow above]
      exact ⟨e, newest, rfl⟩

/-! ### A map of two leaves -/

def twoLeafEnt (oid xid paddr : Nat) : OmapEnt :=
  { okOid := oid, okXid := xid, ovPaddr := paddr, koff := 0, voff := 0 }

def twoLeafNode (leaf : Bool) (ents : List OmapEnt) : Block :=
  .omapNode { (default : OmapNode) with leaf := leaf, ents := ents }

/-- Two leaves under one root; the second begins with an object written by transaction 9. -/
def twoLeaves : Nat → Block
  | 1 => twoLeafNode false [twoLeafEnt 1 5 10, twoLeafEnt 2 9 11]
  | 10 => twoLeafNode true [twoLeafEnt 1 5 100]
  | 11 => twoLeafNode true [twoLeafEnt 2 9 101, twoLeafEnt 3 4 102, twoLeafEnt 3 8 103]
  | _ => .torn

def twoLeafRecs : List OmapEnt :=
  [twoLeafEnt 1 5 100, twoLeafEnt 2 9 101, twoLeafEnt 3 4 102, twoLeafEnt 3 8 103]

def twoLeafKids : List OmapKid :=
  [⟨⟨twoLeafEnt 1 5 10, [twoLeafEnt 1 5 100]⟩, []⟩,
    ⟨⟨twoLeafEnt 2 9 11, [twoLeafEnt 2 9 101, twoLeafEnt 3 4 102, twoLeafEnt 3 8 103]⟩, []⟩]

theorem twoLeaves_stored :
    OmapStored twoLeaves 1 1 twoLeafRecs (twoLeafKids.map (·.toOmapSep)) := by
  refine ⟨_, twoLeafKids, rfl, rfl, rfl, rfl, rfl, ?_⟩
  simp only [twoLeafKids, forall_mem_cons]
  refine ⟨⟨by decide, ⟨rfl, by decide, _, rfl, rfl, rfl⟩, _, _, rfl, rfl, rfl⟩,
    ⟨by decide, ⟨rfl, by decide, _, rfl, rfl, rfl⟩, _, _, rfl, rfl, rfl⟩, by simp⟩

theorem twoLeaves_sorted : twoLeafRecs.Pairwise OmapEnt.Before := by
  simp [twoLeafRecs, twoLeafEnt, OmapEnt.Before]

/-- At transaction 9 every version is visible, and the newest of object 3 is found. -/
theorem omapLookup_newest_current : Answers twoLeafRecs 3 9 (omapLookup twoLeaves 1 3 9) ∧
    omapLookup twoLeaves 1 3 9 = .ok 103 := by
  refine ⟨(omapLookup_newest twoLeaves 1 1 3 9 twoLeafRecs _ twoLeaves_stored twoLeaves_sorted).mpr
    fun e _ => ⟨by decide, fun sep member _ => ?_⟩, by decide⟩
  simp only [twoLeafKids, map_cons, map_nil, mem_cons, not_mem_nil, or_false] at member
  rcases member with rfl | rfl <;> decide

/-- At transaction 7 the second leaf is hidden behind the object it begins with: the version of
object 3 that transaction 4 wrote is not found. -/
theorem omapLookup_hidden : OmapStored twoLeaves 1 1 twoLeafRecs (twoLeafKids.map (·.toOmapSep)) ∧
    twoLeafRecs.Pairwise OmapEnt.Before ∧ twoLeafEnt 3 4 102 ∈ twoLeafRecs ∧
    omapLookup twoLeaves 1 3 7 = .error .inval ∧
      ¬ Answers twoLeafRecs 3 7 (omapLookup twoLeaves 1 3 7) := by
  have failed : omapLookup twoLeaves 1 3 7 = .error .inval := by decide
  have visible : twoLeafEnt 3 4 102 ∈ twoLeafRecs := by decide
  refine ⟨twoLeaves_stored, twoLeaves_sorted, visible, failed, ?_⟩
  rw [failed]
  intro none
  exact none _ visible ⟨rfl, by decide⟩

end Style9.Apfs
