import Style9.Lib.Hoare
import Style9.Vm.Payloads

/-!
# Ranges that come and go

Entering a range takes addresses that were free and leaves the others alone; dropping the pages
of a range gives up one owner of each frame, and a range released is gone while everything else of
the task stays.
-/
namespace Style9.Vm

open Style9.Lib Memory Multiset Act Nat

variable {s s' s₁ : Memory} {t va size offset x : Nat} {e ne : VmMapEntry} {held : Multiset Frame}
  {prot : Prot}
  {flags : VmeFlags} {obj : Option Nat} {b : Bool} {pages : List Nat} {es : List VmMapEntry}

/-! ### Entering a range -/

/-- A fresh entry: its range was free, and nothing else has changed. -/
structure Entered (t : Nat) (ne : VmMapEntry) (s s' : Memory) : Prop where
  pmm : s'.pmm = s.pmm
  ram : s'.ram = s.ram
  objects : s'.objects = s.objects
  leaf : ∀ x va, s'.leaf x va = s.leaf x va
  others : ∀ x ≠ t, s'.entries x = s.entries x
  lookup : ∀ va, vmMapLookup (s'.entries t) va =
    if ne.Covers va then some ne else vmMapLookup (s.entries t) va
  free : ∀ va, ne.Covers va → vmMapLookup (s.entries t) va = none
  bare : ∀ va, ne.Covers va → s.leaf t (vmAlignDown va) = none

/-- The entry a call to `vm_map_enter_backed` asks for. -/
def newEntry (va size : Nat) (prot : Prot) (flags : VmeFlags) (obj : Option Nat) (offset : Nat) :
    VmMapEntry :=
  { vmeStart := va, vmeEnd := va + size, vmeOffset := offset, vmeObject := obj, vmeProt := prot,
    vmeFlags := flags }

theorem VmOk.insertEntry (ok : VmOk s held) (fresh : ne.Ok)
    (free : ∀ e ∈ s.entries t, e.vmeEnd ≤ ne.vmeStart ∨ ne.vmeEnd ≤ e.vmeStart) :
    VmOk (s.setEntries t (vmEntryInsert ne (s.entries t))) held ∧
      Entered t ne s (s.setEntries t (vmEntryInsert ne (s.entries t))) := by
  have ranges := ok.ranges t
  have outside : ∀ x, ne.Covers x → vmMapLookup (s.entries t) x = none := by
    rintro x ⟨lower, upper⟩
    rw [vmMapLookup_none_iff ranges]
    intro e member covers
    have apart := free e member
    obtain ⟨first, last⟩ := covers
    omega
  have lookup : ∀ x, vmMapLookup (vmEntryInsert ne (s.entries t)) x =
      if ne.Covers x then some ne else vmMapLookup (s.entries t) x :=
    fun x => vmMapLookup_insert ranges fresh free
  refine ⟨⟨ok.toOwned.setEntries (ranges.insert fresh free) fun x l present => ?_,
    ok.exclusive.setEntries⟩, rfl, rfl, rfl, fun x va => leaf_setEntries .., ?_, ?_, outside, ?_⟩
  · -- a page that is there lies under an old entry
    obtain ⟨e, backed⟩ := ok.backed t x l present
    have apart : ¬ ne.Covers x := fun covers => by
      have none := outside x covers
      rw [backed.found] at none
      cases none
    rw [lookup, if_neg apart]
    exact AlikeAll.refl _ x
  · intro x other
    rw [entries_setEntries, if_neg other]
  · intro x
    rw [entries_setEntries, if_pos rfl]
    exact lookup x
  intro x covers
  by_contra there
  obtain ⟨l, present⟩ := Option.ne_none_iff_exists'.mp there
  obtain ⟨e, backed⟩ := ok.backed t _ l present
  have none := outside x covers
  rw [← vmMapLookup_page ranges, backed.found] at none
  cases none

/-- What `vm_map_enter_backed` checks. -/
structure Enterable (t va size : Nat) (s : Memory) : Prop where
  positive : 0 < size
  first : va % vmPageSize = 0
  whole : size % vmPageSize = 0
  low : (s.task t).tMap.vmLo ≤ va
  high : va + size ≤ (s.task t).tMap.vmHi
  free : vmRangeFree va (va + size) (s.entries t) = true

theorem Enterable.last (legal : Enterable t va size s) : (va + size) % vmPageSize = 0 := by
  have first := legal.first
  have whole := legal.whole
  unfold vmPageSize at *
  omega

/-- What `vm_map_enter_backed` leaves, whoever owns the frames under the range. -/
theorem vmMapEnterBacked_result (t va size : Nat) (prot : Prot) (flags : VmeFlags)
    (obj : Option Nat) (offset : Nat)
    (s : Memory) : ∃ b refuse, vmMapEnterBacked t va size prot flags obj offset s = (.ok b,
      if b then (s.setRefuse refuse).setEntries t
        (vmEntryInsert (newEntry va size prot flags obj offset) (s.entries t))
      else s.setRefuse refuse) ∧ (b = true → Enterable t va size s) := by
  unfold vmMapEnterBacked
  rw [read_bind]
  split
  · exact ⟨false, s.refuse, rfl, nofun⟩
  next legal =>
  obtain ⟨g, refuse, given⟩ := granted_run s
  rw [bind_of_ok given]
  split
  · exact ⟨false, refuse, rfl, nofun⟩
  split
  · exact ⟨false, refuse, rfl, nofun⟩
  next clear =>
  simp only [not_or, not_not, ne_eq, not_lt] at legal
  obtain ⟨positive, first, whole, low, high⟩ := legal
  rw [Bool.not_eq_true', Bool.not_eq_false] at clear
  exact ⟨true, refuse, rfl, fun _ => ⟨Nat.pos_of_ne_zero positive, first, whole, low, high, clear⟩⟩

theorem vmMapEnterBacked_run
    (run : vmMapEnterBacked t va size prot flags obj offset s = (.ok b, s')) :
    ∃ refuse, (s' = if b then (s.setRefuse refuse).setEntries t
      (vmEntryInsert (newEntry va size prot flags obj offset) (s.entries t))
        else s.setRefuse refuse) ∧
      (b = true → Enterable t va size s) := by
  obtain ⟨b', refuse, ran, legal⟩ := vmMapEnterBacked_result t va size prot flags obj offset s
  cases ran.symm.trans run
  exact ⟨refuse, rfl, legal⟩

theorem vmMapEnterBacked_legal (ranges : Ranges (s.entries t))
    (owned : prot.write = true → flags.anon = true)
    (filled : flags.lazy = true → flags.anon = true)
    (run : vmMapEnterBacked t va size prot flags obj offset s = (.ok true, s')) :
    (newEntry va size prot flags obj offset).Ok ∧
      ∀ e ∈ s.entries t, e.vmeEnd ≤ va ∨ va + size ≤ e.vmeStart := by
  obtain ⟨-, -, legal⟩ := vmMapEnterBacked_run run
  have legal := legal rfl
  exact ⟨⟨Nat.lt_add_of_pos_right legal.positive, legal.first, legal.last, owned, filled⟩,
    (vmRangeFree_iff ranges).mp legal.free⟩

theorem vmMapEnterBacked_spec (ok : VmOk s held) (owned : prot.write = true → flags.anon = true)
    (filled : flags.lazy = true → flags.anon = true)
    (run : vmMapEnterBacked t va size prot flags obj offset s = (.ok b, s')) : VmOk s' held ∧
      if b then (newEntry va size prot flags obj offset).Ok ∧
        Entered t (newEntry va size prot flags obj offset) s s'
      else Quiet held s s' ∧ ∀ x, s'.entries x = s.entries x := by
  obtain ⟨refuse, rfl, -⟩ := vmMapEnterBacked_run run
  have ok₁ := ok.setRefuse refuse
  cases b with
  | false => exact ⟨ok₁, .setRefuse held s refuse, fun _ => rfl⟩
  | true =>
  obtain ⟨fresh, free⟩ := vmMapEnterBacked_legal (ok.ranges t) owned filled run
  obtain ⟨ok₂, entered⟩ := ok₁.insertEntry fresh free
  exact ⟨ok₂, fresh, entered.pmm, entered.ram, entered.objects, entered.leaf, entered.others,
    entered.lookup,
    entered.free, entered.bare⟩

theorem Entered.cut_first (entered : Entered t ne s s') (ranges : Ranges (s'.entries t))
    (ok : ne.Ok) :
    Cut ne.vmeStart (s'.entries t) := by
  intro e member crossed
  have found := (vmMapLookup_some_iff ranges).mpr ⟨member, crossed.1.le, crossed.2⟩
  rw [entered.lookup, if_pos ⟨le_rfl, ok.nonempty⟩] at found
  cases found
  exact absurd crossed.1 (lt_irrefl _)

theorem Entered.cut_last (entered : Entered t ne s s') (ranges : Ranges (s'.entries t))
    (ok : ne.Ok) :
    Cut ne.vmeEnd (s'.entries t) := by
  intro e member crossed
  have nonempty := ok.nonempty
  have found : vmMapLookup (s'.entries t) (ne.vmeEnd - 1) = some e :=
    (vmMapLookup_some_iff ranges).mpr
    ⟨member, by obtain ⟨_, _⟩ := crossed; exact ⟨by omega, by omega⟩⟩
  rw [entered.lookup, if_pos ⟨by omega, by omega⟩] at found
  cases found
  exact absurd crossed.2 (lt_irrefl _)

theorem Entered.view (entered : Entered t ne s s') {a : Nat} (outside : ¬ (x = t ∧ ne.Covers a)) :
    s'.view x a = s.view x a := by
  by_cases here : x = t
  · subst here
    have apart : ¬ ne.Covers a := fun covers => outside ⟨rfl, covers⟩
    unfold Memory.view Memory.backing
    rw [entered.lookup, if_neg apart, entered.leaf, entered.objects, entered.ram]
  · exact view_congr (entered.others x here) (entered.leaf ..) (fun _ _ => by rw [entered.ram])
      entered.objects

theorem vmMapFindSpace_quiet {got : Option Nat} (ok : VmOk s held)
    (run : vmMapFindSpace t size s = (.ok got, s')) : VmOk s' held ∧ Quiet held s s' ∧
      ∀ x, s'.entries x = s.entries x := by
  unfold vmMapFindSpace at run
  rw [read_bind] at run
  generalize vmSpace (s.task t).tMap (vmAlignUp size) = hole at run
  cases hole with
  | none =>
    cases run
    exact ⟨ok, .refl held _, fun _ => rfl⟩
  | some va =>
  dsimp only at run
  cases run
  -- only the hint moves
  have entries :
      ∀ x, (s.setMap t { (s.task t).tMap with vmHint := va + vmAlignUp size }).entries x =
      s.entries x := by
    intro x
    rw [entries_setMap]
    split
    next same => rw [same]; rfl
    · rfl
  refine ⟨ok.congr rfl (mapped_setMap ..) (fun x va => leaf_setMap ..) entries, ?_, entries⟩
  refine ⟨fun x va => ?_, fun _ _ => rfl, fun x va here => ?_, fun _ _ one => one⟩
  · exact view_congr (entries x) (leaf_setMap ..) (fun _ _ => rfl) rfl
  · rwa [leaf_setMap]

/-! ### Dropping pages -/

structure Dropped (t : Nat) (pages : List Nat) (s s' : Memory) : Prop where
  ram : s'.ram = s.ram
  objects : s'.objects = s.objects
  entries : ∀ x, s'.entries x = s.entries x
  leaf : ∀ x va, s'.leaf x va = if x = t ∧ va ∈ pages then none else s.leaf x va

theorem Dropped.append {first later : List Nat} (before : Dropped t first s s₁)
    (after : Dropped t later s₁ s') : Dropped t (first ++ later) s s' := by
  refine ⟨after.ram.trans before.ram, after.objects.trans before.objects,
    fun x => (after.entries x).trans (before.entries x), fun x page => ?_⟩
  rw [after.leaf, before.leaf]
  by_cases here : x = t <;> by_cases early : page ∈ first <;> by_cases late : page ∈ later <;>
    simp [here, early, late]

theorem Dropped.nothing (t : Nat) (s : Memory) : Dropped t [] s s :=
  ⟨rfl, rfl, fun _ => rfl, fun x page => by simp⟩

theorem dropPage_spec (ok : VmOk s held) (run : dropPage t va s = (.ok (), s')) :
    VmOk s' held ∧ Dropped t [va] s s' := by
  unfold dropPage at run
  rw [read_bind] at run
  cases leaf : s.leaf t va with
  | none =>
    rw [leaf] at run
    cases run
    refine ⟨ok, rfl, rfl, fun _ => rfl, fun x page => ?_⟩
    split
    next here =>
      rw [here.1, List.mem_singleton.mp here.2]
      exact leaf
    · rfl
  | some l =>
  rw [leaf] at run
  obtain ⟨_, s₁, removed, run⟩ := bind_ok run
  cases modify_ok_iff.mp removed
  obtain ⟨live, rfl⟩ := pmmFreePage_run run
  have lifted : VmOk (s.eraseLeaf t va) (l.pa ::ₘ held) :=
    ⟨ok.lift leaf live, ok.exclusive.eraseLeaf⟩
  refine ⟨lifted.free, rfl, rfl, fun x => entries_eraseLeaf .., fun x page => ?_⟩
  rw [leaf_setPmm, leaf_eraseLeaf]
  simp only [List.mem_singleton]

@[simp] theorem Memory.tMap_eraseLeaf (s : Memory) (t va x : Nat) :
    ((s.eraseLeaf t va).task x).tMap = (s.task x).tMap := by
  unfold Memory.eraseLeaf
  rw [task_setTask]
  split
  next here => rw [here]
  · rfl

/-- What the page table and the counts have no part in. -/
theorem dropPages_keeps {P : Memory → Prop} (erased : ∀ s va, P s → P (s.eraseLeaf t va))
    (freed : ∀ s p, P s → P (s.setPmm p))
    (pages : List Nat) : (dropPages t pages).Keeps P := by
  induction pages with
  | nil => exact .pure _
  | cons va rest ih =>
  refine .bind (.bind (.read _) fun got => ?_) fun _ => ih
  cases got with
  | none => exact .pure _
  | some l =>
  refine .bind (.modify fun s => erased s va) fun _ s before => ?_
  unfold pmmFreePage
  split
  · exact before
  · split
    · exact before
    · exact freed _ _ before

theorem dropPages_spec (ok : VmOk s held)
    (run : dropPages t pages s = (.ok (), s')) : VmOk s' held ∧ Dropped t pages s s' := by
  induction pages generalizing s with
  | nil =>
    cases run
    exact ⟨ok, .nothing t _⟩
  | cons va rest ih =>
  obtain ⟨_, s₁, first, run⟩ := bind_ok run
  obtain ⟨ok₁, dropped₁⟩ := dropPage_spec ok first
  obtain ⟨ok₂, dropped₂⟩ := ih ok₁ run
  exact ⟨ok₂, dropped₁.append dropped₂⟩

theorem Dropped.view_of_ne (dropped : Dropped t pages s s') (other : x ≠ t) :
    s'.view x va = s.view x va := by
  refine view_congr (dropped.entries x) ?_ (fun _ _ => by rw [dropped.ram]) dropped.objects
  rw [dropped.leaf, if_neg fun both => other both.1]

theorem Dropped.view_of_notMem (dropped : Dropped t pages s s')
    (kept : vmAlignDown va ∉ pages) : s'.view t va = s.view t va := by
  refine view_congr (dropped.entries t) ?_ (fun _ _ => by rw [dropped.ram]) dropped.objects
  rw [dropped.leaf, if_neg fun both => kept both.2]

/-! ### Releasing -/

/-- Only one task's memory has changed, and this is what it is now. -/
structure Becomes (held : Multiset Frame) (t : Nat) (mem : Nat → Option Byte) (s s' : Memory) :
    Prop where
  ram : ∀ f ∈ held, s'.ram f = s.ram f
  others : ∀ x ≠ t, ∀ va, s'.view x va = s.view x va
  mine : ∀ va, s'.view t va = mem va

def without (mem : Nat → Option Byte) (lo hi : Nat) : Nat → Option Byte := fun va =>
  if lo ≤ va ∧ va < hi then none else mem va

/-- What `vm_map_clip_locked` leaves: the list cut, or as it was, with the cut there already on
success. -/
theorem vmMapClip_result (point : Nat) (ranges : Ranges (s.entries t)) :
    ∃ b s', vmMapClip t point s = (.ok b, s') ∧
    ∃ refuse, (s' = s.setRefuse refuse ∧ (b = true → Cut point (s.entries t))) ∨
      b = true ∧ s' = (s.setRefuse refuse).setEntries t (vmClip point (s.entries t)) := by
  unfold vmMapClip
  rw [read_bind]
  cases found : vmMapLookup (s.entries t) point with
  | none =>
    refine ⟨true, s, rfl, s.refuse, .inl ⟨rfl, fun _ e member crossed => ?_⟩⟩
    exact (vmMapLookup_none_iff ranges).mp found e member ⟨crossed.1.le, crossed.2⟩
  | some e =>
  obtain ⟨member, covers⟩ := (vmMapLookup_some_iff ranges).mp found
  dsimp only
  split
  next edge =>
    refine ⟨true, s, rfl, s.refuse, .inl ⟨rfl, fun _ x member' crossed => ?_⟩⟩
    obtain rfl := ranges.unique member member' covers ⟨crossed.1.le, crossed.2⟩
    exact absurd crossed.1 (edge ▸ lt_irrefl _)
  next =>
  obtain ⟨g, refuse, given⟩ := granted_run s
  rw [bind_of_ok given]
  split
  · exact ⟨false, _, rfl, refuse, .inl ⟨rfl, nofun⟩⟩
  · exact ⟨true, _, rfl, refuse, .inr ⟨rfl, rfl⟩⟩

theorem vmMapClip_spec {point : Nat} (ok : VmOk s held) (aligned : point % vmPageSize = 0)
    (run : vmMapClip t point s = (.ok b, s')) : VmOk s' held ∧ Quiet held s s' ∧
      (b = true → Cut point (s'.entries t)) ∧ ∀ a, Cut a (s.entries t) → Cut a (s'.entries t) := by
  have ranges := ok.ranges t
  obtain ⟨b', s₁, ran, refuse, result⟩ := vmMapClip_result point ranges
  cases ran.symm.trans run
  obtain ⟨rfl, cut⟩ | ⟨-, rfl⟩ := result
  · exact ⟨ok.setRefuse refuse, .setRefuse held s refuse, cut, fun _ => id⟩
  have entries : ((s.setRefuse refuse).setEntries t (vmClip point (s.entries t))).entries t =
      vmClip point (s.entries t) := by rw [entries_setEntries, if_pos rfl]
  rw [entries]
  exact ⟨(ok.setRefuse refuse).setEntries (ranges.clip aligned) (AlikeAll.clip ranges aligned),
    (Quiet.setRefuse held s refuse).trans (Quiet.setEntries (AlikeAll.clip ranges aligned)),
    fun _ => cut_vmClip ranges, fun a cut => cut.clip ranges⟩

theorem VmOk.removed {lo hi : Nat} (ok : VmOk s held) (lower : Cut lo (s.entries t))
    (upper : Cut hi (s.entries t)) (bare : ∀ va l, s.leaf t va = some l → ¬ (lo ≤ va ∧ va < hi)) :
    VmOk (s.setEntries t (vmMapRemove lo hi (s.entries t))) held ∧
      Becomes held t (without (s.view t) lo hi) s
        (s.setEntries t (vmMapRemove lo hi (s.entries t))) := by
  have ranges := ok.ranges t
  have lookup := fun x => vmMapLookup_remove (x := x) ranges lower upper
  refine ⟨⟨ok.toOwned.setEntries (ranges.sublist (vmMapRemove_sublist ..)) fun va l present => ?_,
    ok.exclusive.setEntries⟩, fun _ _ => rfl, fun x other va => view_setEntries_of_ne other,
    fun va => ?_⟩
  · rw [lookup, if_neg (bare va l present)]
    exact AlikeAll.refl _ va
  unfold without
  split
  next inside =>
    refine view_outside ?_
    rw [entries_setEntries, if_pos rfl, lookup, if_pos inside]
  next outside =>
    refine view_setEntries_of_alike ?_
    rw [lookup, if_neg outside]
    exact AlikeAll.refl _ va

theorem VmOk.dropRange {lo hi : Nat} (ok : VmOk s held) (lower : Cut lo (s.entries t))
    (upper : Cut hi (s.entries t)) (first : lo % vmPageSize = 0) (last : hi % vmPageSize = 0)
    (drop : dropPages t (vmPages lo hi) s = (.ok (), s₁)) :
    VmOk (s₁.setEntries t (vmMapRemove lo hi (s₁.entries t))) held ∧
      Becomes held t (without (s.view t) lo hi) s
        (s₁.setEntries t (vmMapRemove lo hi (s₁.entries t))) ∧
      s₁.entries = s.entries := by
  obtain ⟨ok₁, dropped⟩ := dropPages_spec ok drop
  have gone : ∀ page l, s₁.leaf t page = some l → ¬ (lo ≤ page ∧ page < hi) := by
    intro page l present inside
    have onPage := ok₁.aligned t page l present
    rw [dropped.leaf, if_pos ⟨rfl, (mem_vmPages_iff first).mpr ⟨onPage, inside⟩⟩] at present
    cases present
  obtain ⟨ok₂, becomes⟩ := ok₁.removed (dropped.entries t ▸ lower) (dropped.entries t ▸ upper) gone
  refine ⟨ok₂, ⟨fun f member => ?_, fun x other a => ?_, fun a => ?_⟩, funext dropped.entries⟩
  · rw [becomes.ram f member, dropped.ram]
  · rw [becomes.others x other, dropped.view_of_ne other]
  rw [becomes.mine]
  unfold without
  split
  · rfl
  next outside =>
  have kept : vmAlignDown a ∉ vmPages lo hi := fun member => by
    obtain ⟨-, low, high⟩ := (mem_vmPages_iff first).mp member
    have above := le_vmAlignDown_iff (x := a) last
    have down := vmAlignDown_le a
    omega
  rw [dropped.view_of_notMem kept]

/-- `vm_map_release` takes the range out of the task, or leaves everything as it was. -/
theorem vmMapRelease_spec (ok : VmOk s held) (run : vmMapRelease t va size s = (.ok b, s')) :
    VmOk s' held ∧
      if b then Becomes held t (without (s.view t) va (va + size)) s s' else Quiet held s s' := by
  unfold vmMapRelease at run
  rw [read_bind] at run
  split at run
  · cases run
    exact ⟨ok, .refl held _⟩
  next legal =>
  simp only [not_or, not_not, ne_eq] at legal
  have first := legal.2.1
  have last : (va + size) % vmPageSize = 0 := by
    have := legal.2.2.1
    unfold vmPageSize at *
    omega
  split at run
  · cases run
    exact ⟨ok, .refl held _⟩
  obtain ⟨b₁, s₁, clip₁, run⟩ := bind_ok run
  obtain ⟨ok₁, quiet₁, cut₁, -⟩ := vmMapClip_spec ok first clip₁
  split at run
  · cases run
    exact ⟨ok₁, quiet₁⟩
  next made₁ =>
  obtain ⟨b₂, s₂, clip₂, run⟩ := bind_ok run
  obtain ⟨ok₂, quiet₂, cut₂, kept⟩ := vmMapClip_spec ok₁ last clip₂
  have quiet := quiet₁.trans quiet₂
  split at run
  · cases run
    exact ⟨ok₂, quiet⟩
  next made₂ =>
  have lower := kept va (cut₁ (by simpa using made₁))
  have upper := cut₂ (by simpa using made₂)
  obtain ⟨_, s₃, drop, run⟩ := bind_ok run
  cases run
  rw [if_pos rfl]
  obtain ⟨ok₄, becomes, -⟩ := ok₂.dropRange lower upper first last drop
  refine ⟨ok₄, fun f member => ?_, fun x other a => ?_, fun a => ?_⟩
  · rw [becomes.ram f member, quiet.ram f member]
  · rw [becomes.others x other, quiet.view]
  · rw [becomes.mine]
    unfold without
    rw [quiet.view]

def ownedPages (es : List VmMapEntry) : List Nat :=
  es.flatMap fun e => if e.vmeFlags.anon then vmPages e.vmeStart e.vmeEnd else []

theorem releaseEntries_spec (ok : VmOk s held)
    (run : releaseEntries t es s = (.ok (), s')) :
    VmOk s' held ∧ Dropped t (ownedPages es) s s' := by
  induction es generalizing s with
  | nil =>
    cases run
    exact ⟨ok, .nothing t _⟩
  | cons e rest ih =>
  unfold releaseEntries at run
  unfold ownedPages
  rw [List.flatMap_cons]
  split at run
  next anon =>
    obtain ⟨_, s₁, first, run⟩ := bind_ok run
    obtain ⟨ok₁, dropped₁⟩ := dropPages_spec ok first
    obtain ⟨ok₂, dropped₂⟩ := ih ok₁ run
    rw [if_pos anon]
    exact ⟨ok₂, dropped₁.append dropped₂⟩
  next borrowed =>
    rw [if_neg borrowed]
    exact ih ok run

theorem mem_ownedPages (ranges : Ranges es)
    (found : vmMapLookup es va = some e) :
    vmAlignDown va ∈ ownedPages es ↔ e.vmeFlags.anon = true := by
  obtain ⟨member, covers⟩ := (vmMapLookup_some_iff ranges).mp found
  unfold ownedPages
  rw [List.mem_flatMap]
  constructor
  · rintro ⟨x, member', inside⟩
    split at inside
    next anon =>
      have ok := ranges.entry x member'
      obtain ⟨-, lower, upper⟩ := (mem_vmPages_iff ok.first).mp inside
      obtain rfl := ranges.unique member member' covers (ok.covers_page.mp ⟨lower, upper⟩)
      exact anon
    · cases inside
  intro anon
  have ok := ranges.entry e member
  refine ⟨e, member, ?_⟩
  rw [if_pos anon]
  exact (mem_vmPages_iff ok.first).mpr ⟨vmAlignDown_mod va, ok.covers_page.mpr covers⟩

/-- What lies under a page the task owns: its object's byte or a zero where pages are made on
demand, and nothing elsewhere. A borrowed page has nothing under it. -/
def Memory.under (s : Memory) (t va : Nat) : Option (Option Byte) :=
  match vmMapLookup (s.entries t) va with
  | none => none
  | some e =>
    if e.vmeFlags.anon then some (if e.vmeFlags.lazy then some (s.backing e va) else none) else none

/-- What is left of a memory whose owned pages are dropped: what lies under them, and the rest as it
was. -/
def uncovered (under : Nat → Option (Option Byte)) (mem : Nat → Option Byte)
    (va : Nat) : Option Byte :=
  (under va).getD (mem va)

theorem vmMapReleaseAnon_dropped (ok : VmOk s held) (run : vmMapReleaseAnon t s = (.ok (), s')) :
    VmOk s' held ∧ Dropped t (ownedPages (s.entries t)) s s' := by
  exact releaseEntries_spec ok run

theorem vmMapReleaseAnon_spec (ok : VmOk s held) (run : vmMapReleaseAnon t s = (.ok (), s')) :
    VmOk s' held ∧ Becomes held t (uncovered (s.under t) (s.view t)) s s' := by
  obtain ⟨ok', dropped⟩ := vmMapReleaseAnon_dropped ok run
  refine ⟨ok', fun _ _ => by rw [dropped.ram], fun x other va => dropped.view_of_ne other,
    fun va => ?_⟩
  unfold uncovered Memory.under
  cases found : vmMapLookup (s.entries t) va with
  | none => rw [view_outside ((dropped.entries t).symm ▸ found), view_outside found]; rfl
  | some e =>
  dsimp only
  have here := mem_ownedPages (ok.ranges t) found
  split
  next anon =>
    have absent : s'.leaf t (vmAlignDown va) = none := by
      rw [dropped.leaf, if_pos ⟨rfl, here.mpr anon⟩]
    rw [view_absent ((dropped.entries t).symm ▸ found) absent]
    unfold Memory.backing
    rw [dropped.objects, Option.getD_some]
  next borrowed => exact dropped.view_of_notMem fun member => borrowed (here.mp member)

/-! ### The end of a task -/

def Memory.eraseTask (s : Memory) (t : Nat) : Memory := { s with tasks := s.tasks.erase t }

theorem Memory.task_eraseTask (s : Memory) (t x : Nat) :
    (s.eraseTask t).task x = if x = t then default else s.task x := by
  unfold Memory.task Memory.eraseTask
  split
  next same => rw [same, AList.lookup_erase]; rfl
  next other => rw [AList.lookup_erase_ne other]

theorem Memory.leaf_eraseTask (s : Memory) (t x page : Nat) :
    (s.eraseTask t).leaf x page = if x = t then none else s.leaf x page := by
  unfold Memory.leaf
  rw [task_eraseTask]
  split <;> rfl

theorem Memory.entries_eraseTask (s : Memory) (t x : Nat) :
    (s.eraseTask t).entries x = if x = t then [] else s.entries x := by
  unfold Memory.entries
  rw [task_eraseTask]
  split <;> rfl

theorem Memory.mapped_eraseTask (s : Memory) (t : Nat) :
    (s.eraseTask t).mapped + (s.task t).frames = s.mapped := by
  unfold Memory.mapped Memory.eraseTask Memory.task
  cases present : s.tasks.lookup t with
  | none =>
    rw [Table.total_erase_of_none present]
    exact add_zero _
  | some task => exact Table.total_erase_add present

theorem VmOk.eraseTask (ok : VmOk s held)
    (borrowed : ∀ page l, s.leaf t page = some l → s.pmm.refs l.pa = 0) :
    VmOk (s.eraseTask t) held := by
  refine ⟨⟨fun f live => ?_, ok.busy, ok.carried, fun x => ?_, fun x page l present => ?_,
    fun x page l present => ?_⟩, fun x page l present => ?_⟩
  · have live := live
    have none : (s.task t).frames.count f = 0 := by
      refine count_eq_zero.mpr fun member => ?_
      obtain ⟨page, l, present, same⟩ := Table.exists_of_mem_total member
      obtain rfl := mem_singleton.mp same
      exact live (borrowed page l present)
    have whole := ok.counted f live
    rw [← mapped_eraseTask s t, Multiset.count_add, Multiset.count_add, none] at whole
    rw [Multiset.count_add]
    exact whole
  · rw [entries_eraseTask]
    split
    · exact .nil
    · exact ok.ranges x
  all_goals rw [leaf_eraseTask] at present
  all_goals split at present
  · cases present
  · exact ok.aligned x page l present
  · cases present
  next other =>
    obtain ⟨e, backed⟩ := ok.backed x page l present
    refine ⟨e, ?_, backed.owned, backed.borrowed, backed.write⟩
    rw [entries_eraseTask, if_neg other]
    exact backed.found
  · cases present
  · exact ok.exclusive x page l present

theorem taskDestroy_spec (ok : VmOk s held) (run : taskDestroy t s = (.ok (), s')) :
    VmOk s' held ∧ Becomes held t (fun _ => none) s s' := by
  obtain ⟨_, s₁, released, run⟩ := bind_ok run
  cases modify_ok_iff.mp run
  obtain ⟨ok₁, dropped⟩ := vmMapReleaseAnon_dropped ok released
  refine ⟨ok₁.eraseTask fun page l present => ?_, fun _ _ => by rw [← dropped.ram],
    fun x other va => ?_, fun va => ?_⟩
  · obtain ⟨e, backed⟩ := ok₁.backed t page l present
    have onPage := vmAlignDown_of_mod (ok₁.aligned t page l present)
    have found := backed.found
    rw [dropped.entries] at found
    cases anon : e.vmeFlags.anon with
    | false => exact (backed.borrowed anon).1
    | true =>
    have member := (mem_ownedPages (ok.ranges t) found).mpr anon
    rw [onPage] at member
    rw [dropped.leaf, if_pos ⟨rfl, member⟩] at present
    cases present
  · rw [← dropped.view_of_ne other]
    refine view_congr ?_ ?_ (fun _ _ => rfl) rfl
    · exact (entries_eraseTask s₁ t x).trans (if_neg other)
    · exact (leaf_eraseTask s₁ t x _).trans (if_neg other)
  · refine view_outside ?_
    have gone := (entries_eraseTask s₁ t t).trans (if_pos rfl)
    exact gone ▸ rfl

end Style9.Vm
