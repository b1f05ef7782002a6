import Style9.Vm.Image

/-!
# What every call leaves alone

Two facts hold whatever the calls do, also half way through one that fails. The frames set aside
at boot stay set aside and no other frame joins them: only three routines touch the counts, and
none of them takes a frame to "in use with no owner" or away from it. And a map keeps its window:
what is entered lies inside it on page boundaries, and so does the hint.
-/
namespace Style9.Vm

open Style9.Lib Memory List Function

variable {s s' : Memory}
  {t va size page start offset addr off maxPages src dst parent child i n mapped point : Nat}
  {f : Frame} {l old : Leaf} {e : VmMapEntry} {es : List VmMapEntry} {pages : List Nat}
    {frames : List Frame}
  {prot : Prot} {flags : VmeFlags} {obj : Option Nat} {owned writable write : Bool}
    {R : Frame → Prop} {m : VmMap}

/-! ### The invariant -/

/-- Inside the window, on page boundaries. -/
structure VmMapEntry.Within (e : VmMapEntry) (lo hi : Nat) : Prop where
  first : e.vmeStart % vmPageSize = 0
  last : e.vmeEnd % vmPageSize = 0
  low : lo ≤ e.vmeStart
  high : e.vmeEnd ≤ hi

structure VmMap.Tidy (m : VmMap) : Prop where
  window : m.vmLo % vmPageSize = 0 ∧ m.vmHi % vmPageSize = 0
  hint : m.vmHint % vmPageSize = 0
  reach : m.vmHint ≤ max m.vmLo m.vmHi
  within : ∀ e ∈ m.vmHead, e.Within m.vmLo m.vmHi

/-- Set aside at boot: in use with no owner. -/
def Memory.Reserved (s : Memory) (f : Frame) : Prop := s.pmm.used f = true ∧ s.pmm.refs f = 0

structure Tidy (R : Frame → Prop) (s : Memory) : Prop where
  reserved : ∀ f, s.Reserved f ↔ R f
  maps : ∀ t, (s.task t).tMap.Tidy

theorem VmMap.Tidy.fresh (tidy : m.Tidy) : (freshTask m).tMap.Tidy where
  window := tidy.window
  hint := tidy.window.1
  reach := le_max_left ..
  within := by simp [freshTask]

theorem VmMap.Tidy.wellFormed (tidy : m.Tidy) (ranges : Ranges m.vmHead) : m.WellFormed where
  ordered := ranges.ordered
  nonempty e member := (ranges.entry e member).nonempty
  pages e member := ⟨(tidy.within e member).first, (tidy.within e member).last⟩
  inside e member := ⟨(tidy.within e member).low, (tidy.within e member).high⟩
  window := tidy.window

theorem VmMap.Tidy.roomy (tidy : m.Tidy) (fits : max m.vmLo m.vmHi + size < 2 ^ 64) :
    m.Roomy size := by
  have reach := tidy.reach
  exact ⟨by omega, fits⟩

/-! ### One field at a time -/

@[simp] theorem Memory.tMap_setLeaf (s : Memory) (t va x : Nat) (l : Leaf) :
    ((s.setLeaf t va l).task x).tMap = (s.task x).tMap := by
  unfold Memory.setLeaf
  rw [task_setTask]
  split
  next here => rw [here]
  · rfl

theorem Memory.tMap_setMap (s : Memory) (t x : Nat) (m : VmMap) :
    ((s.setMap t m).task x).tMap = if x = t then m else (s.task x).tMap := by
  unfold Memory.setMap
  rw [task_setTask]
  split <;> rfl

namespace Tidy

section

variable (tidy : Tidy R s)
include tidy

theorem congr (pmm : s'.pmm = s.pmm) (maps : ∀ t, (s'.task t).tMap = (s.task t).tMap) :
    Tidy R s' where
  reserved f := by
    unfold Memory.Reserved
    rw [pmm]
    exact tidy.reserved f
  maps t := maps t ▸ tidy.maps t

theorem setMap (map : m.Tidy) : Tidy R (s.setMap t m) where
  reserved := tidy.reserved
  maps x := by
    rw [tMap_setMap]
    split
    · exact map
    · exact tidy.maps x

theorem setEntries
    (within : ∀ e ∈ es, e.Within (s.task t).tMap.vmLo (s.task t).tMap.vmHi) :
    Tidy R (s.setEntries t es) :=
  tidy.setMap ⟨(tidy.maps t).window, (tidy.maps t).hint, (tidy.maps t).reach, within⟩

theorem setLeaf : Tidy R (s.setLeaf t va l) := tidy.congr rfl fun x => s.tMap_setLeaf t va x l

theorem eraseLeaf : Tidy R (s.eraseLeaf t va) := tidy.congr rfl fun x => s.tMap_eraseLeaf t va x

theorem fill {page : Nat → Byte} : Tidy R (s.fill f page) := tidy.congr rfl fun _ => rfl

theorem setTask {task : Task} (map : task.tMap.Tidy) : Tidy R (s.setTask t task) where
  reserved := tidy.reserved
  maps x := by
    rw [task_setTask]
    split
    · exact map
    · exact tidy.maps x

end

end Tidy

theorem VmMap.tidy_default : (default : VmMap).Tidy where
  window := by decide
  hint := by decide
  reach := by decide
  within := by simp [default]

theorem Tidy.eraseTask (tidy : Tidy R s) : Tidy R (s.eraseTask t) where
  reserved := tidy.reserved
  maps x := by
    rw [task_eraseTask]
    split
    · exact VmMap.tidy_default
    · exact tidy.maps x

/-- Counts change only on frames that are not set aside, and never to "in use with no owner". -/
theorem Tidy.setPmm {p : Pmm} (tidy : Tidy R s)
    (others : ∀ g ≠ f, p.used g = s.pmm.used g ∧ p.refs g = s.pmm.refs g)
    (before : ¬ s.Reserved f) (after : ¬ (p.used f = true ∧ p.refs f = 0)) :
    Tidy R (s.setPmm p) where
  reserved g := by
    rw [← tidy.reserved g]
    by_cases same : g = f
    · subst same
      exact iff_of_false after before
    · unfold Memory.Reserved
      rw [← (others g same).1, ← (others g same).2]
      rfl
  maps := tidy.maps

/-! ### Frames, page tables, entries -/

theorem granted_tidy : granted.Keeps (Tidy R) := by
  intro s tidy
  obtain ⟨b, refuse, run⟩ := granted_run s
  rw [run]
  exact tidy.congr rfl fun _ => rfl

theorem pmmAllocPage_tidy : pmmAllocPage.Keeps (Tidy R) := by
  intro s tidy
  rcases pmmAllocPage_run s with refused | ⟨f, free, given⟩
  · rw [refused]
    exact tidy
  rw [given]
  refine tidy.setPmm (f := f) (fun g other => ?_) ?_ ?_
  · exact ⟨update_of_ne other .., update_of_ne other ..⟩
  · exact fun reserved => absurd (free.symm.trans reserved.1) Bool.false_ne_true
  · simp

theorem pmmFreePage_tidy : (pmmFreePage f).Keeps (Tidy R) := by
  intro s tidy
  unfold pmmFreePage
  split
  · exact tidy
  split
  · exact tidy
  next live =>
  refine tidy.setPmm (f := f) (fun g other => ?_) (fun reserved => live reserved.2) ?_
  · exact ⟨Pmm.used_free_of_ne _ other, by rw [Pmm.refs_free, if_neg other]⟩
  -- the last owner takes the frame out of use
  unfold Pmm.free
  split
  · simp
  · simpa using fun _ => by assumption

theorem pmmPageRef_tidy : (pmmPageRef f).Keeps (Tidy R) := by
  intro s tidy
  unfold pmmPageRef
  split
  · exact tidy
  split
  · exact tidy
  next live _ =>
    refine tidy.setPmm (f := f) (fun g other => ⟨rfl, update_of_ne other ..⟩) ?_ ?_
    · exact fun reserved => live (.inr reserved.2)
    · simp

theorem pmapEnter_tidy : (pmapEnter t va l).Keeps (Tidy R) := by
  intro s tidy
  obtain ⟨refuse, granted | ⟨-, refused⟩⟩ := pmapEnter_run s t va l
  · rw [granted]
    exact Tidy.setLeaf (tidy.congr rfl fun _ => rfl)
  · rw [refused]
    exact tidy.congr rfl fun _ => rfl

theorem pmapRemove_tidy : (pmapRemove t va).Keeps (Tidy R) := .modify fun _ tidy => tidy.eraseLeaf

theorem vmMapEnterBacked_tidy :
    (vmMapEnterBacked t va size prot flags obj offset).Keeps (Tidy R) := by
  intro s tidy
  obtain ⟨b, refuse, run, legal⟩ := vmMapEnterBacked_result t va size prot flags obj offset s
  have tidy₁ : Tidy R (s.setRefuse refuse) := tidy.congr rfl fun _ => rfl
  rw [run]
  cases b with
  | false => exact tidy₁
  | true =>
  have legal := legal rfl
  refine tidy₁.setEntries fun e member => ?_
  rcases mem_vmEntryInsert.mp member with rfl | old
  · exact ⟨legal.first, legal.last, legal.low, legal.high⟩
  · exact (tidy.maps t).within e old

theorem within_vmClip {lo hi : Nat} (aligned : point % vmPageSize = 0)
    (within : ∀ e ∈ es, e.Within lo hi) : ∀ e ∈ vmClip point es, e.Within lo hi := by
  induction es with
  | nil => simp [vmClip]
  | cons x rest ih =>
  have here := within x mem_cons_self
  have later := ih fun e member => within e (mem_cons_of_mem _ member)
  simp only [vmClip]
  split
  · exact within
  split
  · split
    · exact within
    -- the two halves of the entry that is cut
    intro e member
    rcases mem_cons.mp member with rfl | member
    · exact ⟨here.first, aligned, here.low, by have := here.high; change point ≤ hi; omega⟩
    rcases mem_cons.mp member with rfl | member
    · exact ⟨aligned, here.last, by have := here.low; change lo ≤ point; omega, here.high⟩
    · exact within e (mem_cons_of_mem _ member)
  intro e member
  rcases mem_cons.mp member with rfl | member
  · exact here
  · exact later e member

theorem vmMapClip_tidy (aligned : point % vmPageSize = 0) : (vmMapClip t point).Keeps (Tidy R) := by
  refine .read_bind fun s tidy => ?_
  cases vmMapLookup (s.entries t) point with
  | none => exact tidy
  | some e =>
  dsimp only
  split
  · exact tidy
  obtain ⟨b, refuse, run⟩ := granted_run s
  rw [Act.bind_of_ok run]
  have tidy₁ : Tidy R (s.setRefuse refuse) := tidy.congr rfl fun _ => rfl
  split
  · exact tidy₁
  · exact tidy₁.setEntries (within_vmClip aligned (tidy.maps t).within)

theorem VmMap.Tidy.hole (tidy : m.Tidy) (aligned : start % vmPageSize = 0)
    (found : vmHole m size start = some va) : va % vmPageSize = 0 ∧ va + size ≤ m.vmHi := by
  rw [vmHole_eq] at found
  split at found
  next fits =>
    cases found
    refine ⟨?_, fits⟩
    rcases vmHoleFrom_mem size (m.seed start) m.vmHead with same | ⟨e, member, here⟩
    · rw [same]
      unfold VmMap.seed
      split
      · exact tidy.window.1
      · exact aligned
    · rw [here]
      exact (tidy.within e member).last
  · cases found

theorem VmMap.Tidy.moveHint (tidy : m.Tidy) (found : vmSpace m (vmAlignUp size) = some va) :
    VmMap.Tidy { m with vmHint := va + vmAlignUp size } := by
  have hole : va % vmPageSize = 0 ∧ va + vmAlignUp size ≤ m.vmHi := by
    unfold vmSpace at found
    cases first : vmHole m (vmAlignUp size) m.vmHint with
    | some va' =>
      rw [first] at found
      cases found
      exact tidy.hole tidy.hint first
    | none =>
    rw [first] at found
    dsimp only at found
    split at found
    · exact tidy.hole tidy.window.1 found
    · cases found
  have whole := vmAlignUp_mod size
  refine ⟨tidy.window, ?_, hole.2.trans (le_max_right ..), tidy.within⟩
  change (va + vmAlignUp size) % vmPageSize = 0
  unfold vmPageSize at *
  omega

theorem vmMapFindSpace_tidy : (vmMapFindSpace t size).Keeps (Tidy R) := by
  refine .read_bind fun s tidy => ?_
  cases found : vmSpace (s.task t).tMap (vmAlignUp size) with
  | none => exact tidy
  | some va => exact tidy.setMap ((tidy.maps t).moveHint found)

/-! ### Dropping pages -/

theorem dropPage_tidy : (dropPage t va).Keeps (Tidy R) := by
  exact .bind_option (.read _) (.pure _) fun l => .bind pmapRemove_tidy fun _ => pmmFreePage_tidy

theorem dropPages_tidy : (dropPages t pages).Keeps (Tidy R) := by
  induction pages with
  | nil => exact .pure _
  | cons va rest ih => exact .bind dropPage_tidy fun _ => ih

theorem releaseEntries_tidy : (releaseEntries t es).Keeps (Tidy R) := by
  induction es with
  | nil => exact .pure _
  | cons e rest ih =>
  cases owned : e.vmeFlags.anon with
  | true =>
    simp only [releaseEntries, owned, if_true]
    exact .bind dropPages_tidy fun _ => ih
  | false =>
    simp only [releaseEntries, owned, Bool.false_eq_true, if_false]
    exact ih

theorem vmMapReleaseAnon_tidy : (vmMapReleaseAnon t).Keeps (Tidy R) :=
  .bind (.read _) fun _ => releaseEntries_tidy

theorem taskDestroy_tidy : (taskDestroy t).Keeps (Tidy R) :=
  .bind vmMapReleaseAnon_tidy fun _ => .modify fun _ tidy => tidy.eraseTask

theorem vmMapRelease_tidy : (vmMapRelease t va size).Keeps (Tidy R) := by
  refine .read_bind fun s tidy => ?_
  split
  · exact tidy
  next legal =>
  simp only [not_or, not_not, ne_eq, not_lt] at legal
  obtain ⟨-, aligned, whole, -, -⟩ := legal
  have stop : (va + size) % vmPageSize = 0 := by
    unfold vmPageSize at *
    omega
  split
  · exact tidy
  refine Act.Keeps.bind (vmMapClip_tidy aligned) (fun lower => ?_) s tidy
  split
  · exact .pure _
  refine .bind (vmMapClip_tidy stop) fun upper => ?_
  split
  · exact .pure _
  refine .bind dropPages_tidy fun _ => .bind (.modify fun s tidy => ?_) fun _ => .pure _
  exact tidy.setEntries fun e member =>
    (tidy.maps t).within e ((vmMapRemove_sublist ..).subset member)

/-! ### Faults and stores -/

theorem vmFaultCow_tidy : (vmFaultCow t page e old).Keeps (Tidy R) := by
  unfold vmFaultCow
  split
  · exact .fail _
  refine .bind (.read _) fun refs => ?_
  split
  · exact .bind pmapEnter_tidy fun _ => .pure _
  refine .bind_option pmmAllocPage_tidy (.pure _) fun pa => ?_
  refine .bind (.modify fun _ tidy => tidy.fill) fun _ => .bind pmapEnter_tidy fun entered => ?_
  split
  · exact .bind pmmFreePage_tidy fun _ => .pure _
  · exact .bind pmmFreePage_tidy fun _ => .pure _

theorem pageIn_tidy : (pageIn obj).Keeps (Tidy R) := by
  unfold pageIn
  split
  · exact granted_tidy
  · exact .pure _

theorem vmFaultFill_tidy : (vmFaultFill t page e).Keeps (Tidy R) := by
  refine .bind_option pmmAllocPage_tidy (.pure _) fun pa => ?_
  refine .bind pageIn_tidy fun delivered => ?_
  split
  · exact .bind pmmFreePage_tidy fun _ => .pure _
  refine .bind (.modify fun _ tidy => tidy.fill) fun _ => .bind pmapEnter_tidy fun entered => ?_
  split
  · exact .pure _
  · exact .bind pmmFreePage_tidy fun _ => .pure _

theorem vmFault_tidy : (vmFault t va write).Keeps (Tidy R) := by
  refine .bind (.read _) fun es => ?_
  cases vmMapLookup es (vmAlignDown va) with
  | none => exact .pure _
  | some e =>
  dsimp only
  split
  · exact .pure _
  refine .bind (.read _) fun leaf => ?_
  cases leaf with
  | some old =>
    dsimp only
    split
    · exact .pure _
    · exact vmFaultCow_tidy
  | none =>
  dsimp only
  split
  · exact .pure _
  · exact vmFaultFill_tidy

theorem userStore_tidy {b : Byte} : (userStore t va b).Keeps (Tidy R) := by
  refine .bind_option (.read _) (.pure _) fun l => ?_
  dsimp only
  split
  · exact .bind (.modify fun _ tidy => tidy.fill) fun _ => .pure _
  · exact .pure _

/-! ### Fork -/

theorem refOwned_tidy : (refOwned owned f).Keeps (Tidy R) := by
  unfold refOwned
  split
  · exact pmmPageRef_tidy
  · exact .pure _

theorem freeOwned_tidy : (freeOwned owned f).Keeps (Tidy R) := by
  unfold freeOwned
  split
  · exact pmmFreePage_tidy
  · exact .pure _

theorem shareLeaf_tidy : (shareLeaf src dst owned writable prot va).Keeps (Tidy R) := by
  refine .bind_option (.read _) (.pure _) fun l => ?_
  refine .bind refOwned_tidy fun _ => .bind pmapEnter_tidy fun entered => ?_
  split
  · split
    · exact pmapEnter_tidy
    · exact .pure _
  · exact .bind freeOwned_tidy fun _ => .pure _

theorem shareLeaves_tidy : (shareLeaves src dst owned writable prot pages).Keeps (Tidy R) := by
  induction pages with
  | nil => exact .pure _
  | cons va rest ih =>
  refine .bind shareLeaf_tidy fun shared => ?_
  split
  · exact ih
  · exact .pure _

theorem Tidy.markCow (tidy : Tidy R s) (start : Nat) :
    Tidy R (s.setEntries t (vmMarkCow start (s.entries t))) :=
  tidy.setEntries fun e member => by
    obtain ⟨x, old, rfl⟩ := mem_vmMarkCow.mp member
    have within := (tidy.maps t).within x old
    unfold VmMapEntry.markCow
    split
    · exact { within with }
    · exact within

theorem markShared_tidy : (markShared src writable start).Keeps (Tidy R) := by
  unfold markShared
  split
  · exact .modify fun _ tidy => tidy.markCow start
  · exact .pure _

theorem shareEntries_tidy : (shareEntries src dst es).Keeps (Tidy R) := by
  induction es with
  | nil => exact .pure _
  | cons e rest ih =>
  refine .bind ?_ fun shared => ?_
  · refine .bind vmMapEnterBacked_tidy fun entered => ?_
    split
    · exact .bind markShared_tidy fun _ => shareLeaves_tidy
    · exact .pure _
  · split
    · exact ih
    · exact .pure _

theorem forkTask_tidy : (forkTask parent child).Keeps (Tidy R) := by
  refine .bind (.modify fun _ tidy => tidy.setTask (tidy.maps parent).fresh) fun _ => ?_
  refine .bind (.bind (.read _) fun es => shareEntries_tidy) fun done => ?_
  split
  · exact .pure _
  · exact .bind taskDestroy_tidy fun _ => .pure _

/-! ### Payloads -/

theorem touchAll_tidy : (touchAll t pages).Keeps (Tidy R) := by
  induction pages with
  | nil => exact .pure _
  | cons page rest ih =>
  refine .bind (.bind (.read _) fun leaf => ?_) fun _ => ih
  cases leaf with
  | some _ => exact .pure _
  | none =>
  refine .bind vmFault_tidy fun result => ?_
  split
  · exact .fail _
  · exact .pure _

theorem pageFromBytes_tidy : (pageFromBytes t addr off size).Keeps (Tidy R) := by
  refine .bind_option pmmAllocPage_tidy (.pure _) fun pa => ?_
  exact .bind touchAll_tidy fun _ => .bind (.modify fun _ tidy => tidy.fill) fun _ => .pure _

theorem captureShared_tidy : (captureShared t e pages).Keeps (Tidy R) := by
  induction pages with
  | nil => exact .pure _
  | cons va rest ih =>
  refine .bind (.bind (.read _) fun leaf => ?_) fun _ => .bind ih fun _ => .pure _
  cases leaf with
  | none => exact .pure _
  | some l =>
  refine .bind pmmPageRef_tidy fun _ => ?_
  split
  · refine .bind pmapEnter_tidy fun entered => ?_
    split
    · exact .pure _
    · exact .bind pmmFreePage_tidy fun _ => .pure _
  · exact .pure _

theorem vmPagesRelease_tidy {frames : List (Option Frame)} :
    (vmPagesRelease frames).Keeps (Tidy R) := by
  induction frames with
  | nil => exact .pure _
  | cons o rest ih =>
    cases o with
    | none => exact ih
    | some f => exact .bind pmmFreePage_tidy fun _ => ih

theorem captureCopied_tidy {rest : List (Option Frame)} :
    (captureCopied t addr size i done rest).Keeps (Tidy R) := by
  induction rest generalizing i done with
  | nil => exact .pure _
  | cons o rest ih =>
  cases o with
  | some f => exact ih
  | none =>
  refine .bind pageFromBytes_tidy fun got => ?_
  cases got with
  | none => exact .bind vmPagesRelease_tidy fun _ => .pure _
  | some f => exact ih

theorem vmPagesCaptureUser_tidy : (vmPagesCaptureUser t addr size maxPages).Keeps (Tidy R) := by
  unfold vmPagesCaptureUser
  dsimp only
  split
  · exact .pure _
  refine .bind (.read _) fun es => ?_
  cases captureFrom es addr (vmAlignUp size / vmPageSize) with
  | none => exact captureCopied_tidy
  | some e =>
  refine .bind captureShared_tidy fun taken => ?_
  split
  · exact .bind (.modify fun _ tidy => tidy.markCow _) fun _ => captureCopied_tidy
  · exact captureCopied_tidy

theorem installPages_tidy : (installPages t va frames).Keeps (Tidy R) := by
  induction frames generalizing va with
  | nil => exact .pure _
  | cons f rest ih =>
  refine .bind pmapEnter_tidy fun entered => ?_
  split
  · refine .bind ih fun later => ?_
    split
    · exact .pure _
    · exact .bind pmapRemove_tidy fun _ => .pure _
  · exact .pure _

theorem vmPagesInstall_tidy : (vmPagesInstall t frames).Keeps (Tidy R) := by
  unfold vmPagesInstall
  split
  · exact .pure _
  refine .bind_option vmMapFindSpace_tidy (.pure _) fun landing => ?_
  refine .bind vmMapEnterBacked_tidy fun entered => ?_
  split
  · exact .pure _
  refine .bind installPages_tidy fun installed => ?_
  split
  · exact .pure _
  refine .bind (.modify fun s tidy => ?_) fun _ => .pure _
  exact tidy.setEntries fun e member =>
    (tidy.maps t).within e ((vmMapRemove_sublist ..).subset member)

/-! ### Images and fresh memory -/

theorem placePage_tidy {contents : (Frame → Nat → Byte) → Nat → Byte} :
    (placePage t va prot contents).Keeps (Tidy R) := by
  refine .bind_option pmmAllocPage_tidy (.pure _) fun pa => ?_
  refine .bind (.modify fun _ tidy => tidy.fill) fun _ => .bind pmapEnter_tidy fun entered => ?_
  split
  · exact .pure _
  · exact .bind pmmFreePage_tidy fun _ => .pure _

theorem vmMapImage_tidy : (vmMapImage t g).Keeps (Tidy R) :=
  vmMapImage_walk (J := fun x => x.Keeps (Tidy R)) .pure .bind (fun _ _ _ _ _ _ _ =>
    vmMapEnterBacked_tidy)
    (fun _ _ _ => pmapEnter_tidy) (fun _ _ _ _ => placePage_tidy) t g

theorem allocatePages_tidy : (allocatePages t va prot i n).Keeps (Tidy R) := by
  induction n generalizing i with
  | zero => exact .pure _
  | succ n ih =>
  refine .bind placePage_tidy fun placed => ?_
  split
  · exact ih
  · exact .pure _

theorem unwindPages_tidy : (unwindPages t va mapped).Keeps (Tidy R) :=
  .bind dropPages_tidy fun _ => .pure _

/-- The one call that can move a hint out of its window, and does not when its size fits above. -/
theorem syscallVmAllocate_tidy {result : Except SysE Nat} (tidy : Tidy R s)
    (ranges : Ranges (s.entries t))
    (fits : max (s.task t).tMap.vmLo (s.task t).tMap.vmHi + vmAlignUp size < 2 ^ 64)
    (run : syscallVmAllocate t size prot s = (.ok result, s')) : Tidy R s' := by
  have map := tidy.maps t
  have roomy := map.roomy fits
  obtain ⟨rounded, again⟩ := roomy.rounds
  have kept : Tidy R (syscallVmAllocate t size prot s).2 := by
    unfold syscallVmAllocate
    rw [rounded]
    split
    · exact tidy
    split
    · exact tidy
    rcases Word.vmMapFindSpace_result s t (vmAlignUp size) with none | ⟨va, space, found⟩
    · rw [Act.bind_of_ok none]
      exact tidy
    rw [again, Word.vmSpace_eq (map.wellFormed ranges) roomy] at space
    have moved := map.moveHint space
    have reach : va + vmAlignUp size ≤ max (s.task t).tMap.vmLo (s.task t).tMap.vmHi := moved.reach
    have tidy₁ : Tidy R (s.setHint t ((va + Word.vmAlignUp (vmAlignUp size)) % 2 ^ 64)) := by
      rw [again, Nat.mod_eq_of_lt (by omega)]
      exact tidy.setMap moved
    -- what follows never touches the hint
    rw [Act.bind_of_ok found]
    refine Act.Keeps.bind allocatePages_tidy (fun mapped => ?_) _ tidy₁
    split
    · exact unwindPages_tidy
    refine .bind vmMapEnterBacked_tidy fun entered => ?_
    split
    · exact .pure _
    · exact unwindPages_tidy
  rwa [run] at kept

end Style9.Vm
