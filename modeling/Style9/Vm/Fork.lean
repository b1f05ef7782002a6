import Style9.Vm.Mapping

/-!
# Fork copies the memory

The child gets the parent's entries and, page by page, the parent's frames with the write bit
cleared on both sides. When it is done the child reads as the parent did, and the parent and
everyone else as before; when it fails half-way only the child has changed.
-/
namespace Style9.Vm

open Style9.Lib Memory Act Option

variable {s s₁ s' : Memory} {src dst va : Nat} {e e' : VmMapEntry} {l : Leaf} {prot : Prot}
  {held : Multiset Frame}
  {owned writable b : Bool}

/-- Two addresses read the same when their entries are alike and their frames the same, whatever
the protection. -/
theorem Memory.view_alike {t t' : Nat}
    (alike : Option.Rel (Alike va) (vmMapLookup (s.entries t) va) (vmMapLookup (s'.entries t') va))
    (leaf : (s'.leaf t' (vmAlignDown va)).map Leaf.pa = (s.leaf t (vmAlignDown va)).map Leaf.pa)
    (ram : s'.ram = s.ram) (objects : s'.objects = s.objects) : s'.view t' va = s.view t va := by
  unfold Memory.view
  generalize vmMapLookup (s.entries t) va = old at alike ⊢
  generalize vmMapLookup (s'.entries t') va = new at alike ⊢
  cases alike with
  | none => rfl
  | some alike =>
  dsimp only
  cases there : s'.leaf t' (vmAlignDown va) with
  | none =>
    rw [there] at leaf
    rw [map_eq_none_iff.mp leaf.symm, alike.lazy, alike.backing s']
    unfold Memory.backing
    rw [objects]
  | some l' =>
  rw [there] at leaf
  obtain ⟨l, present, same⟩ := map_eq_some_iff.mp leaf.symm
  rw [present]
  dsimp only
  rw [same, ram]

/-- What sharing pages can do to anyone but the child: clear write bits. -/
structure Sharing (dst : Nat) (s s' : Memory) : Prop where
  ram : s'.ram = s.ram
  objects : s'.objects = s.objects
  entries : ∀ x, s'.entries x = s.entries x
  frames : ∀ x ≠ dst, ∀ page, (s'.leaf x page).map Leaf.pa = (s.leaf x page).map Leaf.pa

theorem Sharing.refl (dst : Nat) (s : Memory) : Sharing dst s s :=
  ⟨rfl, rfl, fun _ => rfl, fun _ _ _ => rfl⟩

theorem Sharing.trans (first : Sharing dst s s₁) (second : Sharing dst s₁ s') : Sharing dst s s' :=
  ⟨second.ram.trans first.ram, second.objects.trans first.objects,
    fun x => (second.entries x).trans (first.entries x),
    fun x other page => (second.frames x other page).trans (first.frames x other page)⟩

theorem Sharing.view (sharing : Sharing dst s s') {x : Nat} (other : x ≠ dst) :
    s'.view x va = s.view x va :=
  view_alike (sharing.entries x ▸ AlikeAll.refl _ va) (sharing.frames x other _) sharing.ram
    sharing.objects

theorem Pmm.free_ref (p : Pmm) {f : Frame} (live : p.refs f ≠ 0) : (p.ref f).free f = p := by
  have count : (p.ref f).refs f - 1 = p.refs f := by
    rw [Pmm.refs_ref, if_pos rfl, Nat.add_sub_cancel]
  unfold Pmm.free
  rw [count, if_neg live]
  unfold Pmm.ref
  simp

theorem VmOk.exclusive_of_shared (ok : VmOk s held) (present : s.leaf src va = some l)
    (refs : ∀ g ≠ l.pa, s'.pmm.refs g = s.pmm.refs g)
    (leaf : ∀ x page l', s'.leaf x page = some l' → l'.prot.write = true →
      s.leaf x page = some l' ∧ ¬ (x = src ∧ page = va)) : Exclusive s' := by
  intro x page l' there write
  obtain ⟨old, apart⟩ := leaf x page l' there write
  have other : l'.pa ≠ l.pa := by
    intro same
    obtain ⟨rfl, rfl⟩ := (ok.alone old write).2 src va l present same.symm
    exact apart ⟨rfl, rfl⟩
  rw [refs _ other]
  exact ok.exclusive x page l' old write

/-- The shared leaf in the child, and in the parent if it could write. -/
def shareState (src dst va : Nat) (writable : Bool) (new : Leaf) (s : Memory) : Memory :=
  if writable then (s.setLeaf dst va new).setLeaf src va new else s.setLeaf dst va new

theorem shareState_leaf (apart : src ≠ dst) (new : Leaf) (x page : Nat) :
    (shareState src dst va writable new s).leaf x page = if x = dst ∧ page = va then some new
      else if writable = true ∧ x = src ∧ page = va then some new else s.leaf x page := by
  unfold shareState
  by_cases child : x = dst ∧ page = va
  · have parent : ¬ (x = src ∧ page = va) := fun here => apart (here.1.symm.trans child.1)
    cases writable <;> simp [child, Ne.symm apart]
  · cases writable <;> simp [child]

theorem shareState_sharing (apart : src ≠ dst) (present : s.leaf src va = some l) :
    Sharing dst s (shareState src dst va writable ⟨l.pa, prot⟩ s) := by
  refine ⟨?_, ?_, fun x => ?_, fun x other page => ?_⟩
  · unfold shareState
    split <;> rfl
  · unfold shareState
    split <;> rfl
  · unfold shareState
    split <;> simp
  rw [shareState_leaf apart, if_neg fun here => other here.1]
  split
  next here =>
    rw [here.2.1, here.2.2, present]
    rfl
  · rfl

theorem Owned.shareState (parent : Owned (s.setLeaf dst va ⟨l.pa, prot⟩) held)
    (apart : src ≠ dst) (present : s.leaf src va = some l) (backed : Backed s src va l e')
    (readonly : prot.write = false) :
    Owned (shareState src dst va writable ⟨l.pa, prot⟩ s) held := by
  unfold Vm.shareState
  split
  · have there : (s.setLeaf dst va ⟨l.pa, prot⟩).leaf src va = some l := by
      rw [leaf_setLeaf, if_neg fun here => apart here.1]
      exact present
    refine parent.protect there rfl (e := e')
      ⟨by rw [entries_setLeaf]; exact backed.found, backed.owned, backed.borrowed, ?_⟩
    · intro write
      rw [readonly] at write
      cases write
  · exact parent

/-- The owner a page taken for the child: what it does to the counts, that undoing it gives the
state back, and that the child's leaf then accounts for it. -/
theorem refOwned_spec (ok : VmOk s held) (aligned : va % vmPageSize = 0)
    (backed : Backed s src va l e) (child : vmMapLookup (s.entries dst) va = some e')
    (anon : e.vmeFlags.anon = owned) (anon' : e'.vmeFlags.anon = owned)
    (readonly : prot.write = false) (bare : s.leaf dst va = none)
    (run : refOwned owned l.pa s = (.ok (), s₁)) : ∃ p, s₁ = s.setPmm p ∧
      (∀ g ≠ l.pa, p.refs g = s.pmm.refs g) ∧
      (∀ {s₃ refuse}, freeOwned owned l.pa ((s.setPmm p).setRefuse refuse) = (.ok (), s₃) →
        s₃ = s.setRefuse refuse) ∧
      ∀ refuse, Owned (((s.setPmm p).setRefuse refuse).setLeaf dst va ⟨l.pa, prot⟩) held ∧
        Backed ((s.setPmm p).setRefuse refuse) src va l e := by
  have unset : prot.write = true → e'.vmeProt.write = true := by
    intro bit
    rw [readonly] at bit
    cases bit
  cases owned with
  | true =>
    obtain ⟨live, rfl⟩ := pmmPageRef_run run
    have counted : (s.pmm.ref l.pa).refs l.pa ≠ 0 := by
      rw [Pmm.refs_ref, if_pos rfl]
      omega
    refine ⟨_, rfl, fun g other => by rw [Pmm.refs_ref, if_neg other], ?_, fun refuse => ⟨?_, ?_⟩⟩
    · intro s₃ refuse freed
      obtain ⟨-, rfl⟩ := pmmFreePage_run freed
      change (s.setPmm ((s.pmm.ref l.pa).free l.pa)).setRefuse refuse = _
      rw [Pmm.free_ref _ live]
      rfl
    · exact ((ok.ref live).setRefuse refuse).place bare aligned (e := e')
        (.of_owned child anon' counted unset)
    · exact .of_owned backed.found anon counted backed.write
  | false =>
  cases run
  obtain ⟨kernel, reserved⟩ := backed.borrowed anon
  refine ⟨s.pmm, rfl, fun _ _ => rfl, ?_, fun refuse => ⟨?_, ?_⟩⟩
  · intro s₃ refuse freed
    cases freed
    rfl
  · refine (ok.toOwned.setRefuse refuse).borrow bare aligned (e := e')
      ⟨child, fun owns => ?_, fun _ => ⟨kernel, reserved⟩, unset⟩ kernel
    rw [anon'] at owns
    cases owns
  · exact { backed with }

theorem shareLeaf_spec (ok : VmOk s held) (apart : src ≠ dst)
    (aligned : va % vmPageSize = 0) (found : vmMapLookup (s.entries src) va = some e)
    (child : vmMapLookup (s.entries dst) va = some e') (anon : e.vmeFlags.anon = owned)
    (anon' : e'.vmeFlags.anon = owned) (readonly : prot.write = false)
    (write : e.vmeProt.write = true → writable = true) (bare : s.leaf dst va = none)
    (run : shareLeaf src dst owned writable prot va s = (.ok b, s')) :
    VmOk s' held ∧ Sharing dst s s' ∧ (∀ page ≠ va, s'.leaf dst page = s.leaf dst page) ∧
      (b = true → s'.leaf dst va = (s.leaf src va).map fun l => ⟨l.pa, prot⟩) := by
  unfold shareLeaf at run
  rw [read_bind] at run
  cases present : s.leaf src va with
  | none =>
    rw [present] at run
    cases run
    exact ⟨ok, .refl dst _, fun _ _ => rfl, fun _ => bare⟩
  | some l =>
  rw [present] at run
  obtain ⟨e₀, backed⟩ := ok.backed src va l present
  cases backed.found.symm.trans found
  obtain ⟨_, s₁, taken, run⟩ := bind_ok run
  obtain ⟨p, rfl, refs, back, place⟩ :=
    refOwned_spec ok aligned backed child anon anon' readonly bare taken
  have bare₁ := bare
  obtain ⟨refuse, granted | ⟨-, refused⟩⟩ := pmapEnter_run _ dst va ⟨l.pa, prot⟩
  · rw [bind_of_ok granted, if_pos rfl] at run
    obtain ⟨placed, backed₂⟩ := place refuse
    have refs₂ : ∀ g ≠ l.pa, ((s.setPmm p).setRefuse refuse).pmm.refs g = s.pmm.refs g := refs
    generalize start : (s.setPmm p).setRefuse refuse = s₂ at *
    have same : ∀ x page, s₂.leaf x page = s.leaf x page := by
      intro x page
      rw [← start]
      rfl
    obtain ⟨rfl, rfl⟩ : s' = shareState src dst va writable ⟨l.pa, prot⟩ s₂ ∧ b = true := by
      cases writable with
      | true =>
        have there : (s₂.setLeaf dst va ⟨l.pa, prot⟩).leaf src va = some l := by
          rw [leaf_setLeaf, if_neg fun here => apart here.1, same, present]
        rw [if_pos rfl, pmapEnter_present there] at run
        cases run
        exact ⟨rfl, rfl⟩
      | false =>
        cases run
        exact ⟨rfl, rfl⟩
    have present₂ := (same src va).trans present
    have first : Sharing dst s s₂ := by
      rw [← start]
      exact ⟨rfl, rfl, fun _ => rfl, fun _ _ _ => rfl⟩
    refine ⟨⟨placed.shareState apart present₂ backed₂ readonly, ?_⟩,
      first.trans (shareState_sharing apart present₂), fun page other => ?_, fun _ => ?_⟩
    · refine ok.exclusive_of_shared (l := l) present (fun g other => ?_) fun x page l' there bit =>
        ?_
      · rw [← refs₂ g other]
        unfold shareState
        split <;> rfl
      rw [shareState_leaf apart] at there
      split at there
      · cases there
        cases readonly.symm.trans bit
      split at there
      · cases there
        cases readonly.symm.trans bit
      next keeps =>
      rw [same] at there
      refine ⟨there, fun here => keeps ⟨?_, here⟩⟩
      rw [here.1, here.2, present] at there
      cases there
      exact write (backed.write bit)
    · rw [shareState_leaf apart, if_neg fun here => other here.2,
        if_neg fun here => other here.2.2, same]
    · rw [shareState_leaf apart, if_pos ⟨rfl, rfl⟩]
      rfl
  rw [bind_of_ok refused] at run
  obtain ⟨_, s₃, freed, run⟩ := bind_ok run
  cases run
  cases back freed
  exact ⟨ok.setRefuse refuse, ⟨rfl, rfl, fun _ => rfl, fun _ _ _ => rfl⟩, fun _ _ => rfl, nofun⟩

theorem shareLeaves_spec {pages : List Nat} (ok : VmOk s held) (apart : src ≠ dst)
    (distinct : pages.Nodup) (aligned : ∀ page ∈ pages, page % vmPageSize = 0)
    (found : ∀ page ∈ pages, ∃ e, vmMapLookup (s.entries src) page = some e ∧
      e.vmeFlags.anon = owned ∧ (e.vmeProt.write = true → writable = true))
    (child : ∀ page ∈ pages, vmMapLookup (s.entries dst) page = some e')
    (anon' : e'.vmeFlags.anon = owned) (readonly : prot.write = false)
    (bare : ∀ page ∈ pages, s.leaf dst page = none)
    (run : shareLeaves src dst owned writable prot pages s = (.ok b, s')) :
    VmOk s' held ∧ Sharing dst s s' ∧ (∀ page ∉ pages, s'.leaf dst page = s.leaf dst page) ∧
      (b = true → ∀ page ∈ pages, (s'.leaf dst page).map Leaf.pa =
        (s.leaf src page).map Leaf.pa) := by
  induction pages generalizing s with
  | nil =>
    cases run
    exact ⟨ok, .refl dst _, fun _ _ => rfl, fun _ _ member => nomatch member⟩
  | cons va rest ih =>
  obtain ⟨fresh, distinct⟩ := List.nodup_cons.mp distinct
  obtain ⟨b₁, s₁, first, run⟩ := bind_ok run
  obtain ⟨e, here, anon, write⟩ := found va (by simp)
  obtain ⟨ok₁, sharing₁, kept₁, shared₁⟩ := shareLeaf_spec ok apart (aligned va (by simp)) here
    (child va (by simp)) anon anon' readonly write (bare va (by simp)) first
  have other : ∀ page ∈ rest, page ≠ va := fun page member same => fresh (same ▸ member)
  cases b₁ with
  | false =>
    cases run
    exact ⟨ok₁, sharing₁, fun page outside => kept₁ page fun same => outside (by simp [same]),
      nofun⟩
  | true =>
  obtain ⟨ok₂, sharing₂, kept₂, shared₂⟩ := ih ok₁ distinct
    (fun page member => aligned page (by simp [member]))
    (fun page member => by rw [sharing₁.entries]; exact found page (by simp [member]))
    (fun page member => by rw [sharing₁.entries]; exact child page (by simp [member]))
    (fun page member => by rw [kept₁ page (other page member)]; exact bare page (by simp [member]))
    run
  refine ⟨ok₂, sharing₁.trans sharing₂, fun page outside => ?_, fun done page member => ?_⟩
  · rw [kept₂ page fun member => outside (by simp [member]), kept₁ page fun same =>
      outside (by simp [same])]
  rcases List.mem_cons.mp member with rfl | member
  · rw [kept₂ page fresh, shared₁ rfl, map_map]
    rfl
  · rw [shared₂ done page member, sharing₁.frames src apart]

/-- Sharing entries: the parent keeps its memory, and so does everyone but the child. -/
structure Kept (held : Multiset Frame) (dst : Nat) (s s' : Memory) : Prop where
  ram : ∀ f ∈ held, s'.ram f = s.ram f
  view : ∀ x ≠ dst, ∀ va, s'.view x va = s.view x va

theorem Kept.trans (first : Kept held dst s s₁) (second : Kept held dst s₁ s') :
    Kept held dst s s' :=
  ⟨fun f member => (second.ram f member).trans (first.ram f member),
    fun x other va => (second.view x other va).trans (first.view x other va)⟩

theorem Quiet.kept (quiet : Quiet held s s') : Kept held dst s s' :=
  ⟨quiet.ram, fun x _ va => quiet.view x va⟩

/-- Where an entry of the parent covers, the parent's map still answers alike. -/
def StandsFor (s : Memory) (src : Nat) (e : VmMapEntry) : Prop :=
  e.Ok ∧ ∀ va, e.Covers va → ∃ now, vmMapLookup (s.entries src) va = some now ∧ Alike va e now

theorem StandsFor.alike (stands : StandsFor s src e)
    (alike : AlikeAll (s.entries src) (s'.entries src)) :
    StandsFor s' src e := by
  refine ⟨stands.1, fun va covers => ?_⟩
  obtain ⟨now, found, first⟩ := stands.2 va covers
  have like := alike va
  rw [found] at like
  generalize later : vmMapLookup (s'.entries src) va = new at like
  cases like with
  | some second => exact ⟨_, rfl, first.trans second⟩

theorem markShared_spec (ok : VmOk s held) (apart : src ≠ dst)
    (run : markShared src writable va s = (.ok (), s')) : VmOk s' held ∧ Quiet held s s' ∧
      AlikeAll (s.entries src) (s'.entries src) ∧ s'.entries dst = s.entries dst ∧
      (∀ x page, s'.leaf x page = s.leaf x page) ∧ s'.ram = s.ram ∧ s'.objects = s.objects := by
  cases writable with
  | false =>
    cases run
    exact ⟨ok, .refl held _, .refl _, rfl, fun _ _ => rfl, rfl, rfl⟩
  | true =>
  unfold markShared at run
  rw [if_pos rfl] at run
  cases modify_ok_iff.mp run
  obtain ⟨ok', quiet⟩ := ok.markCow (t := src) va
  refine ⟨ok', quiet, ?_, ?_, fun x page => leaf_setEntries .., rfl, rfl⟩
  · rw [entries_setEntries, if_pos rfl]
    exact AlikeAll.markCow (ok.ranges src) va
  · rw [entries_setEntries, if_neg (Ne.symm apart)]

def childEntry (e : VmMapEntry) : VmMapEntry :=
  newEntry e.vmeStart (e.vmeEnd - e.vmeStart) e.vmeProt
    (if e.vmeProt.write then { e.vmeFlags with cow := true }
      else e.vmeFlags) e.vmeObject e.vmeOffset

theorem childEntry_alike (e : VmMapEntry) (va : Nat) : Alike va e (childEntry e) := by
  unfold childEntry newEntry
  split <;> exact ⟨rfl, rfl, rfl, rfl, rfl⟩

theorem childEntry_covers (ok : e.Ok) : (childEntry e).Covers va ↔ e.Covers va := by
  have := ok.nonempty
  have last : (childEntry e).vmeEnd = e.vmeEnd := by
    change e.vmeStart + (e.vmeEnd - e.vmeStart) = e.vmeEnd
    omega
  unfold VmMapEntry.Covers
  rw [last]
  rfl

theorem shareEntry_spec (ok : VmOk s held) (apart : src ≠ dst) (stands : StandsFor s src e)
    (run : shareEntry src dst e s = (.ok b, s')) :
    VmOk s' held ∧ Kept held dst s s' ∧ AlikeAll (s.entries src) (s'.entries src) ∧
      (b = true → ∀ va, s'.view dst va = if e.Covers va then s.view src va else s.view dst va) := by
  obtain ⟨b₁, s₁, enter, run⟩ := bind_ok run
  have like := childEntry_alike e 0
  obtain ⟨ok₁, result⟩ := vmMapEnterBacked_spec ok
    (fun write => like.anon.trans (stands.1.owned write))
    (fun lazy => like.anon.trans (stands.1.filled (like.lazy.symm.trans lazy))) enter
  cases b₁ with
  | false =>
    cases run
    obtain ⟨quiet, entries⟩ := result
    refine ⟨ok₁, quiet.kept, ?_, nofun⟩
    rw [entries]
    exact .refl _
  | true =>
  obtain ⟨-, entered⟩ := (if_pos rfl ▸ result : _ ∧ Entered dst (childEntry e) s s₁)
  obtain ⟨_, s₂, marked, run⟩ := bind_ok run
  obtain ⟨ok₂, quiet₂, alike₂, entries₂, leaf₂, ram₂, objects₂⟩ := markShared_spec ok₁ apart marked
  have covers : ∀ va, (childEntry e).Covers va ↔ e.Covers va := fun va => childEntry_covers stands.1
  have child : ∀ va, e.Covers va → vmMapLookup (s₂.entries dst) va = some (childEntry e) := by
    intro va inside
    rw [entries₂, entered.lookup, if_pos ((covers va).mpr inside)]
  have stands₂ : StandsFor s₂ src e := by
    refine StandsFor.alike (s := s₁) ⟨stands.1, fun va inside => ?_⟩ alike₂
    rw [entered.others src apart]
    exact stands.2 va inside
  have inside : ∀ page ∈ vmPages e.vmeStart e.vmeEnd, e.Covers page := fun page member =>
    ((mem_vmPages_iff stands.1.first).mp member).2
  have onPage : ∀ page ∈ vmPages e.vmeStart e.vmeEnd, page % vmPageSize = 0 := fun page member =>
    ((mem_vmPages_iff stands.1.first).mp member).1
  have bare : ∀ va, e.Covers va → s₂.leaf dst (vmAlignDown va) = none := by
    intro va inside
    rw [leaf₂, entered.leaf, entered.bare va ((covers va).mpr inside)]
  obtain ⟨ok₃, sharing, outside, shared⟩ := shareLeaves_spec ok₂ apart (vmPages_nodup ..) onPage
    (fun page member => by
      obtain ⟨now, found, alike⟩ := stands₂.2 page (inside page member)
      exact ⟨now, found, alike.anon, fun write => alike.prot ▸ write⟩)
    (fun page member => child page (inside page member)) like.anon
    (by split
        · rfl
        next fixed => exact Bool.eq_false_iff.mpr fixed)
    (fun page member => by
      have := bare page (inside page member)
      rwa [vmAlignDown_of_mod (onPage page member)] at this)
    run
  have kept : Kept held dst s s' := by
    refine ⟨fun f member => ?_, fun x other va => ?_⟩
    · rw [sharing.ram, ram₂, entered.ram]
    · rw [sharing.view other, quiet₂.view, entered.view fun here => other here.1]
  refine ⟨ok₃, kept, ?_, fun done va => ?_⟩
  · rw [sharing.entries, ← entered.others src apart]
    exact alike₂
  have page : vmAlignDown va ∈ vmPages e.vmeStart e.vmeEnd ↔ e.Covers va := by
    rw [mem_vmPages_iff stands.1.first, ← stands.1.covers_page]
    exact ⟨And.right, fun inside => ⟨vmAlignDown_mod va, inside⟩⟩
  split
  next here =>
    obtain ⟨now, found, alike⟩ := stands.2 va here
    refine view_alike ?_ ?_ (sharing.ram.trans (ram₂.trans entered.ram))
      (sharing.objects.trans (objects₂.trans entered.objects))
    · rw [sharing.entries, child va here, found]
      exact .some (alike.symm.trans (childEntry_alike e va))
    · rw [shared done _ (page.mpr here), leaf₂, entered.leaf]
  next away =>
  have same : s'.view dst va = s₂.view dst va := by
    refine view_congr (sharing.entries dst) (outside _ fun member => away (page.mp member))
      (fun _ _ => by rw [sharing.ram]) sharing.objects
  rw [same, quiet₂.view, entered.view fun here => away ((covers va).mp here.2)]

/-- The entries one after another: where one of them covers, the child reads as the parent. -/
theorem shareEntries_spec {es : List VmMapEntry} (ok : VmOk s held) (apart : src ≠ dst)
    (stands : ∀ e ∈ es, StandsFor s src e) (run : shareEntries src dst es s = (.ok b, s')) :
    VmOk s' held ∧ Kept held dst s s' ∧ (b = true → ∀ va,
      s'.view dst va = if ∃ e ∈ es, e.Covers va then s.view src va else s.view dst va) := by
  induction es generalizing s with
  | nil =>
    cases run
    refine ⟨ok, ⟨fun _ _ => rfl, fun _ _ _ => rfl⟩, fun _ va => ?_⟩
    rw [if_neg (by simp)]
  | cons e rest ih =>
  obtain ⟨b₁, s₁, first, run⟩ := bind_ok run
  obtain ⟨ok₁, kept₁, alike, shared₁⟩ := shareEntry_spec ok apart (stands e (by simp)) first
  cases b₁ with
  | false =>
    cases run
    exact ⟨ok₁, kept₁, nofun⟩
  | true =>
  obtain ⟨ok₂, kept₂, shared₂⟩ :=
    ih ok₁ (fun x member => (stands x (by simp [member])).alike alike) run
  refine ⟨ok₂, kept₁.trans kept₂, fun done va => ?_⟩
  rw [shared₂ done va, shared₁ rfl va, kept₁.view src apart]
  by_cases here : e.Covers va <;> by_cases later : ∃ x ∈ rest, x.Covers va <;> simp [here, later]

/-- A fork that succeeds gives a fresh child the parent's memory of that moment; either way
nobody else's changes. -/
theorem vmMapForkShare_spec (ok : VmOk s held) (apart : src ≠ dst) (fresh : s.entries dst = [])
    (run : vmMapForkShare src dst s = (.ok b, s')) :
    VmOk s' held ∧ Kept held dst s s' ∧ (b = true → ∀ va, s'.view dst va = s.view src va) := by
  have ranges := ok.ranges src
  obtain ⟨ok', kept, shared⟩ := shareEntries_spec ok apart (fun e member =>
    ⟨ranges.entry e member, fun va covers =>
      ⟨e, (vmMapLookup_some_iff ranges).mpr ⟨member, covers⟩, .refl va e⟩⟩) run
  refine ⟨ok', kept, fun done va => ?_⟩
  rw [shared done va]
  split
  · rfl
  next uncovered =>
    have outside :=
      (vmMapLookup_none_iff ranges).mpr fun e member covers => uncovered ⟨e, member, covers⟩
    rw [view_outside outside, view_outside (by rw [fresh]; rfl)]

end Style9.Vm
