import Style9.Lib.Threads
import Style9.Vm.AllocSteps
import Style9.Vm.Segments

/-!
# Several calls for memory at once

Until a range is recorded only the hint of the map keeps another call away. Any number of calls on
one task are followed here, their steps in any order. As long as no search falls back to the floor
of the window while another call has a range in hand, the ranges stay apart, each page has a frame
of its own, and a call that gives up takes away what it mapped itself.
-/
namespace Style9.Vm

open Style9.Lib Memory Multiset Nat Option Function

namespace AllocCall

variable {t a hint i va k j : Nat} {m m' : Memory} {c d : AllocCall} {f pa : Frame} {l : Leaf}
  {e : VmMapEntry}
  {pages rest : Multiset Nat} {stage : Stage}

/-! ### Steps of other calls -/

theorem Own.setRefuse (own : d.Own t m) (refuse : List Bool) : d.Own t (m.setRefuse refuse) :=
  own.congr ⟨rfl, rfl⟩ (fun _ member => member) (fun _ _ _ behind apart => ⟨behind, apart⟩)
    (fun _ _ _ _ => rfl)
    fun _ _ => ⟨⟨rfl, rfl, rfl⟩, fun _ _ _ present _ => present⟩

theorem Own.free (own : d.Own t m) (foreign : ¬ d.Has t m f) :
    d.Own t (m.setPmm (m.pmm.free f)) := by
  refine own.congr ⟨rfl, rfl⟩ (fun _ member => member) (fun _ _ _ behind apart => ⟨behind, apart⟩)
    (fun _ _ _ _ => rfl)
    fun g has => ?_
  have other : g ≠ f := fun same => foreign (same ▸ has)
  refine ⟨⟨Pmm.used_free_of_ne _ other, ?_, rfl⟩, fun _ _ _ present _ => present⟩
  change (m.pmm.free f).refs g = _
  rw [Pmm.refs_free, if_neg other]

theorem Own.take (own : d.Own t m) (free : m.pmm.used pa = false) :
    d.Own t ((m.setPmm (m.pmm.alloc pa)).fill pa fun _ => 0) := by
  refine own.congr ⟨rfl, rfl⟩ (fun _ member => member) (fun _ _ _ behind apart => ⟨behind, apart⟩)
    (fun _ _ _ _ => rfl)
    fun g has => ?_
  have other : g ≠ pa := by
    rintro rfl
    rw [own.has has] at free
    cases free
  refine ⟨⟨update_of_ne other .., update_of_ne other .., ?_⟩, fun _ _ _ present _ => present⟩
  rw [ram_fill, if_neg other]
  rfl

def Outside (d : AllocCall) (a : Nat) : Prop :=
  ∀ va k, d.stage.va = some va → k < d.pages → va + k * vmPageSize ≠ a

theorem Own.setLeaf (own : d.Own t m) (outside : d.Outside a) (foreign : ¬ d.Has t m l.pa) :
    d.Own t (m.setLeaf t a l) := by
  refine own.congr (by rw [tMap_setLeaf]; exact ⟨rfl, rfl⟩) (fun e member =>
    (m.entries_setLeaf t a t l).symm ▸ member)
    (fun va _ _ behind apart => ?_) (fun va k range inside => ?_) fun g has =>
      ⟨⟨rfl, rfl, rfl⟩, fun x b l' present same => ?_⟩
  · rw [tMap_setLeaf, entries_setLeaf]
    exact ⟨behind, apart⟩
  · rw [leaf_setLeaf, if_neg fun both => outside va k range inside both.2]
  rw [leaf_setLeaf] at present
  split at present
  · cases present
    exact absurd (same ▸ has) foreign
  · exact present

theorem Own.eraseLeaf (own : d.Own t m) (outside : d.Outside a) : d.Own t (m.eraseLeaf t a) := by
  refine own.congr (by rw [tMap_eraseLeaf]; exact ⟨rfl, rfl⟩) (fun e member =>
    (m.entries_eraseLeaf t a t).symm ▸ member)
    (fun va _ _ behind apart => ?_) (fun va k range inside => ?_) fun g has =>
      ⟨⟨rfl, rfl, rfl⟩, fun x b l' present same => ?_⟩
  · rw [tMap_eraseLeaf, entries_eraseLeaf]
    exact ⟨behind, apart⟩
  · rw [leaf_eraseLeaf, if_neg fun both => outside va k range inside both.2]
  rw [leaf_eraseLeaf] at present
  split at present
  · cases present
  · exact present

theorem Own.setHint (own : d.Own t m)
    (forward : ∀ va, d.stage.va = some va → d.stage.returned = false →
      va + d.bytes ≤ (m.task t).tMap.vmHint →
      va + d.bytes ≤ hint) : d.Own t (m.setHint t hint) := by
  have map : ((m.setHint t hint).task t).tMap = { (m.task t).tMap with vmHint := hint } := by
    rw [Memory.setHint, tMap_setMap, if_pos rfl]
  refine own.congr (by rw [map]; exact ⟨rfl, rfl⟩) (fun e member =>
    (m.entries_setHint t hint t).symm ▸ member)
    (fun va range flying behind apart => ?_) (fun _ _ _ _ => leaf_setMap ..)
    fun g has => ⟨⟨rfl, rfl, rfl⟩, fun x b l' present _ => ?_⟩
  · rw [map, entries_setHint]
    exact ⟨forward va range flying behind, apart⟩
  · rwa [Memory.setHint, leaf_setMap] at present

theorem Own.insert (own : d.Own t m)
    (apart : ∀ va, d.stage.va = some va → e.vmeEnd ≤ va ∨ va + d.bytes ≤ e.vmeStart) :
    d.Own t (m.setEntries t (vmEntryInsert e (m.entries t))) := by
  have map : ((m.setEntries t (vmEntryInsert e (m.entries t))).task t).tMap =
      { (m.task t).tMap with vmHead := vmEntryInsert e (m.entries t) } := by
    rw [Memory.setEntries, tMap_setMap, if_pos rfl]
  have entries : (m.setEntries t (vmEntryInsert e (m.entries t))).entries t =
      vmEntryInsert e (m.entries t) := by
    rw [entries_setEntries, if_pos rfl]
  refine own.congr (by rw [map]; exact ⟨rfl, rfl⟩) (fun x member => ?_)
    (fun va range flying behind free => ?_)
    (fun _ _ _ _ => leaf_setEntries ..) fun g has => ⟨⟨rfl, rfl, rfl⟩, fun x b l' present _ => ?_⟩
  · rw [entries]
    exact mem_vmEntryInsert.mpr (.inr member)
  · rw [map, entries]
    refine ⟨behind, fun x member => ?_⟩
    rcases mem_vmEntryInsert.mp member with rfl | member
    · exact apart va range
    · exact free x member
  · rwa [leaf_setEntries] at present

/-! ### The search -/

def InFlight (c : AllocCall) : Prop := c.stage.va.isSome = true ∧ c.stage.returned = false

instance : Decidable c.InFlight := inferInstanceAs (Decidable (_ ∧ _))

/-- The search from the hint fails and the one from the floor does not. -/
def FallsBack (map : VmMap) (size : Nat) : Prop :=
  vmHole map size map.vmHint = none ∧ (vmSpace map size).isSome = true

instance (map : VmMap) (size : Nat) : Decidable (FallsBack map size) :=
  inferInstanceAs (Decidable (_ ∧ _))

theorem MapOk.found (world : MapOk t m pages)
    (fits : max (m.task t).tMap.vmLo (m.task t).tMap.vmHi + vmAlignUp c.size < 2 ^ 64)
    (space : Word.vmSpace (m.task t).tMap (Word.vmAlignUp c.bytes) = some va) :
    (va + Word.vmAlignUp c.bytes) % 2 ^ 64 = va + c.bytes ∧ (m.task t).tMap.Hole c.bytes va ∧
      VmMap.Tidy { (m.task t).tMap with vmHint := va + c.bytes } ∧
      ((m.task t).tMap.vmHint ≤ va ∨ FallsBack (m.task t).tMap c.bytes) := by
  have roomy := world.tidy.roomy fits
  have wf := world.tidy.wellFormed world.ranges
  obtain ⟨rounded, again⟩ := roomy.rounds
  have bytes : c.bytes = vmAlignUp c.size := rounded
  rw [bytes, again, Word.vmSpace_eq wf roomy] at space
  have hole := (wf.vmSpace_spec world.tidy.hint).1 va space
  have moved := world.tidy.moveHint space
  rw [bytes, again]
  have high := hole.high
  refine ⟨mod_eq_of_lt (by omega), hole, moved, ?_⟩
  cases first : vmHole (m.task t).tMap (vmAlignUp c.size) (m.task t).tMap.vmHint with
  | none => exact .inr ⟨first, by rw [space]; rfl⟩
  | some va' =>
  left
  rw [vmSpace, first] at space
  cases space
  rw [vmHole_eq] at first
  split at first
  · cases first
    refine le_trans ?_ (le_vmHoleFrom ..)
    unfold VmMap.seed
    split <;> omega
  · cases first

/-- The condition on a step: a search does not wrap, and does not fall back while another call is
in flight. -/
def Forward (t : Nat) (m : Memory) (c d : AllocCall) : Prop :=
  c.stage = .finding → max (m.task t).tMap.vmLo (m.task t).tMap.vmHi + vmAlignUp c.size < 2 ^ 64 ∧
    (FallsBack (m.task t).tMap c.bytes → ¬ d.InFlight)

/-! ### A step leaves the other calls alone -/

theorem Clear.restage (clear : Clear c d) (va : stage.va = c.stage.va)
    (frames : ∀ f, stage.frame = some f → d.stage.frame ≠ some f) :
    Clear { c with stage := stage } d where
  ranges a b mine theirs := clear.ranges a b (va ▸ mine) theirs
  frames := frames

theorem Clear.putDown (clear : Clear c d) (va : stage.va = c.stage.va)
    (frame : stage.frame = none) :
    Clear { c with stage := stage } d :=
  clear.restage va fun f mine => by
    rw [frame] at mine
    cases mine

theorem Clear.idle (va : stage.va = none) (frame : stage.frame = none) :
    Clear { c with stage := stage } d where
  ranges a b mine := by
    rw [va] at mine
    cases mine
  frames f mine := by
    rw [frame] at mine
    cases mine

theorem Clear.outside (clear : Clear c d) (range : c.stage.va = some va) (inside : k < c.pages) :
    d.Outside (va + k * vmPageSize) := by
  intro vb j theirs within' same
  have apart := clear.ranges va vb range theirs
  have first := c.within va inside
  have second := d.within vb within'
  unfold vmPageSize at *
  omega

theorem Own.undisturbed (other : d.Own t m) (moves : Moves t m c m' stage)
    (world : MapOk t m pages) (own : c.Own t m) (clear : Clear c d) (forward : Forward t m c d) :
    d.Own t m' ∧ Clear { c with stage := stage } d := by
  obtain ⟨size, prot, place⟩ := c
  cases moves with
  | fails => exact ⟨other, .idle rfl rfl⟩
  | @finds va here space =>
    obtain ⟨fits, alone⟩ := forward here
    obtain ⟨hint, hole, -, origin⟩ := world.found fits space
    rw [hint]
    -- a call in flight is behind the hint, and one that has returned has its entry
    have ahead : ∀ vb, d.stage.va = some vb → d.stage.returned = false → vb + d.bytes ≤ va := by
      intro vb range flying
      have behind := ((other.range vb range).ahead flying).1
      rcases origin with past | back
      · omega
      · exact absurd ⟨by rw [range]; rfl, flying⟩ (alone back)
    refine ⟨other.setHint fun vb range flying _ => ?_, fun a vb mine theirs => ?_, fun f mine => ?_⟩
    · have before := ahead vb range flying
      omega
    · cases mine
      cases ended : d.stage.returned with
      | false => exact .inr (ahead vb theirs ended)
      | true =>
      obtain ⟨e, member, first, last⟩ := (other.range vb theirs).entered ended
      have apart := hole.apart e member
      rw [first, last] at apart
      exact apart.symm
    · cases mine
  | starved here =>
    cases here
    exact ⟨other, clear.putDown rfl rfl⟩
  | takes here more free =>
    cases here
    refine ⟨other.take free, clear.restage rfl fun f mine theirs => ?_⟩
    cases mine
    rw [(other.loose _ theirs).used] at free
    cases free
  | @enters va _ _ here all run =>
    cases here
    exact ⟨(other.setRefuse _).insert fun vb theirs => clear.ranges va vb rfl theirs,
      clear.putDown rfl rfl⟩
  | barred here =>
    cases here
    exact ⟨other.setRefuse _, clear.putDown rfl rfl⟩
  | @places va i pa r here =>
    cases here
    have short := own.short va i pa rfl
    rw [(own.range va rfl).pageAt short]
    exact ⟨(other.setRefuse r).setLeaf (clear.outside rfl short)
      (own.disjoint other clear (.inl rfl)), clear.putDown rfl rfl⟩
  | balks here =>
    cases here
    exact ⟨other.setRefuse _, clear.restage rfl clear.frames⟩
  | returns here | frees here =>
    cases here
    exact ⟨other.free (own.disjoint other clear (.inl rfl)), clear.putDown rfl rfl⟩
  | looks here | skips here =>
    cases here
    exact ⟨other, clear.putDown rfl rfl⟩
  | gives here => exact ⟨other, .idle rfl rfl⟩
  | @removes va i j pa here =>
    cases here
    obtain ⟨more, l, present, rfl⟩ := own.fetched va i j pa rfl
    have inside := lt_of_lt_of_le more (own.range va rfl).upper
    rw [(own.range va rfl).pageAt inside]
    refine ⟨other.eraseLeaf (clear.outside rfl inside), clear.restage rfl fun f mine theirs => ?_⟩
    cases mine
    exact own.disjoint other clear (.inr ⟨va, j, l, rfl, ⟨le_refl j, more⟩, present, rfl⟩)
      (.inl theirs)

/-! ### A step of the call itself -/

theorem Ranged.restage (ranged : c.Ranged t m va) (alike : stage.Alike c.pages c.stage) :
    Ranged t m { c with stage := stage } va where
  page := ranged.page
  low := ranged.low
  high := ranged.high
  upper := alike.last.trans_le ranged.upper
  mapped k maps := ranged.mapped k ⟨alike.first.symm.trans_le maps.1, maps.2.trans_eq alike.last⟩
  bare k inside not :=
    ranged.bare k inside fun maps =>
      not ⟨alike.first.trans_le maps.1, maps.2.trans_eq alike.last.symm⟩
  ahead flying := ranged.ahead (alike.returned ▸ flying)
  entered ended := ranged.entered (alike.returned ▸ ended)

theorem Own.restage (own : c.Own t m) (alike : stage.Alike c.pages c.stage)
    (loose : ∀ f, stage.frame = some f → Loose m f)
    (short : ∀ va i pa, stage = .placing va i pa → i < c.pages)
    (fetched : ∀ va i j pa, stage = .removing va i j pa →
      j < i ∧ ∃ l, m.leaf t (va + j * vmPageSize) = some l ∧ pa = some l.pa) :
    Own t m { c with stage := stage } where
  range va here := (own.range va (alike.va ▸ here)).restage alike
  loose := loose
  short := short
  fetched := fetched

/-- A call that is neither about to map a page nor to take one away, with no frame in hand. -/
structure Between (stage : Stage) : Prop where
  frame : stage.frame = none
  placing : ∀ va i pa, stage ≠ .placing va i pa
  removing : ∀ va i j pa, stage ≠ .removing va i j pa

theorem Between.filling (va i : Nat) : Between (.filling va i) := ⟨rfl, by simp, by simp⟩

theorem Between.undoing (va i j : Nat) : Between (.undoing va i j) := ⟨rfl, by simp, by simp⟩

theorem Between.done (result : Except SysE Nat) : Between (.done result) := ⟨rfl, by simp, by simp⟩

theorem Between.own (between : Between stage)
    (range : ∀ va, stage.va = some va → Ranged t m { c with stage := stage } va) :
    Own t m { c with stage := stage } where
  range := range
  loose f here := by
    have none := between.frame
    rw [here] at none
    cases none
  short va i pa here := absurd here (between.placing va i pa)
  fetched va i j pa here := absurd here (between.removing va i j pa)

theorem Own.between (own : c.Own t m) (alike : stage.Alike c.pages c.stage)
    (between : Between stage) :
    Own t m { c with stage := stage } :=
  between.own fun va here => (own.range va (alike.va ▸ here)).restage alike

/-- A frame that no page table has is not among the pages of a call that has put it down. -/
theorem not_has (loose : Loose m f) (none : c.stage.frame = none) : ¬ c.Has t m f := by
  rintro (here | ⟨va, k, l, -, -, leaf, same⟩)
  · rw [none] at here
    cases here
  · exact loose.unmapped _ _ l leaf same

theorem MapOk.taken (world : MapOk t m pages) (free : m.pmm.used pa = false) :
    Loose ((m.setPmm (m.pmm.alloc pa)).fill pa fun _ => 0) pa where
  used := update_self ..
  refs := update_self ..
  zero := by rw [ram_fill, if_pos rfl]
  unmapped x b l present same := by
    have used := world.used x b l present
    rw [same, free] at used
    cases used

theorem pages_ne (ne : k ≠ i) : va + k * vmPageSize ≠ va + i * vmPageSize := by
  unfold vmPageSize
  omega

theorem Own.placed (own : c.Own t m) (here : c.stage = .placing va i pa) :
    Own t (m.setLeaf t (va + i * vmPageSize) ⟨pa, c.flags⟩)
      { c with stage := .filling va (i + 1) } := by
  obtain ⟨size, prot, place⟩ := c
  cases here
  have ranged := own.range va rfl
  have loose := own.loose pa rfl
  have short := own.short va i pa rfl
  refine (Between.filling va (i + 1)).own fun vb same => ?_
  cases same
  refine ⟨ranged.page, ?_, ?_, short, fun k maps => ?_, fun k inside not => ?_, fun _ => ?_,
    fun ended => by cases ended⟩
  · rw [tMap_setLeaf]
    exact ranged.low
  · rw [tMap_setLeaf]
    exact ranged.high
  · rcases Nat.lt_succ_iff_lt_or_eq.mp (show k < i + 1 from maps.2) with earlier | rfl
    · -- an earlier page is where it was, and its frame is not the new one
      obtain ⟨pb, solo⟩ := ranged.mapped k ⟨maps.1, earlier⟩
      refine ⟨pb, ?_, solo.used, solo.refs, solo.zero, fun x b l present same => ?_⟩
      · rw [leaf_setLeaf, if_neg fun both => pages_ne (by omega) both.2]
        exact solo.leaf
      rw [leaf_setLeaf] at present
      split at present
      · cases present
        exact absurd same.symm (loose.unmapped _ _ _ solo.leaf)
      · exact solo.only x b l present same
    refine ⟨pa, ?_, loose.used, loose.refs, loose.zero, fun x b l present same => ?_⟩
    · rw [leaf_setLeaf, if_pos ⟨rfl, rfl⟩]
      rfl
    rw [leaf_setLeaf] at present
    split at present
    next here => exact here
    · exact absurd same (loose.unmapped x b l present)
  · have later : i + 1 ≤ k := by
      by_contra early
      exact not ⟨zero_le _, show k < i + 1 by omega⟩
    rw [leaf_setLeaf, if_neg fun both => pages_ne (by omega) both.2]
    exact ranged.bare k inside fun maps => absurd maps.2 (not_lt.mpr (le_of_lt later))
  · rw [tMap_setLeaf, entries_setLeaf]
    exact ranged.ahead rfl

theorem Own.removed {pa : Option Frame} (own : c.Own t m) (here : c.stage = .removing va i j pa) :
    Own t (m.eraseLeaf t (va + j * vmPageSize)) { c with stage := .freeing va i j pa } := by
  obtain ⟨size, prot, place⟩ := c
  cases here
  have ranged := own.range va rfl
  obtain ⟨more, l, present, rfl⟩ := own.fetched va i j pa rfl
  refine ⟨fun vb same => ?_, fun f same => ?_, fun _ _ _ other => (by cases other),
    fun _ _ _ _ other => (by cases other)⟩
  · cases same
    refine ⟨ranged.page, ?_, ?_, ranged.upper, fun k kept => ?_, fun k inside not => ?_,
      fun _ => ?_, fun ended => by cases ended⟩
    · rw [tMap_eraseLeaf]
      exact ranged.low
    · rw [tMap_eraseLeaf]
      exact ranged.high
    · have bounds : j + 1 ≤ k ∧ k < i := kept
      obtain ⟨pb, solo⟩ := ranged.mapped k ⟨show j ≤ k by omega, bounds.2⟩
      refine ⟨pb, ?_, solo.used, solo.refs, solo.zero, fun x b l' there same => ?_⟩
      · rw [leaf_eraseLeaf, if_neg fun both => pages_ne (by omega) both.2]
        exact solo.leaf
      rw [leaf_eraseLeaf] at there
      split at there
      · cases there
      · exact solo.only x b l' there same
    · rw [leaf_eraseLeaf]
      split
      · rfl
      next out =>
      refine ranged.bare k inside fun kept => ?_
      have bounds : j ≤ k ∧ k < i := kept
      have past : j ≠ k := fun same => out ⟨rfl, by rw [same]⟩
      exact not ⟨show j + 1 ≤ k by omega, bounds.2⟩
    · rw [tMap_eraseLeaf, entries_eraseLeaf]
      exact ranged.ahead rfl
  -- the frame is in no page table any more
  cases same
  obtain ⟨pb, solo⟩ := ranged.mapped j ⟨le_refl j, more⟩
  obtain rfl : l.pa = pb := congrArg Leaf.pa (some.inj (present.symm.trans solo.leaf))
  refine ⟨solo.used, solo.refs, solo.zero, fun x b l' there same => ?_⟩
  rw [leaf_eraseLeaf] at there
  split at there
  · cases there
  next out => exact out (solo.only x b l' there same)

theorem Own.recorded {es : List VmMapEntry} (own : c.Own t m) (here : c.stage = .filling va i)
    (all : c.pages ≤ i) (new : ∃ e ∈ es, e.vmeStart = va ∧ e.vmeEnd = va + c.bytes) :
    Own t (m.setEntries t es) { c with stage := .done (.ok va) } := by
  obtain ⟨size, prot, place⟩ := c
  cases here
  have ranged := own.range va rfl
  obtain rfl : i = pages ⟨size, prot, .finding⟩ := le_antisymm ranged.upper all
  refine (Between.done (.ok va)).own fun vb same => ?_
  cases same
  have leaf : ∀ x a, (m.setEntries t es).leaf x a = m.leaf x a :=
    fun x a => m.leaf_setEntries t x a es
  refine ⟨ranged.page, ?_, ?_, le_rfl, fun k kept => ?_, fun k inside not => ?_,
    fun flying => (by cases flying), fun _ => ?_⟩
  · rw [Memory.setEntries, tMap_setMap, if_pos rfl]
    exact ranged.low
  · rw [Memory.setEntries, tMap_setMap, if_pos rfl]
    exact ranged.high
  · obtain ⟨pa, solo⟩ := ranged.mapped k kept
    exact ⟨pa, (leaf _ _).trans solo.leaf, solo.used, solo.refs, solo.zero,
      fun x b l present => solo.only x b l ((leaf x b).symm.trans present)⟩
  · rw [leaf]
    exact ranged.bare k inside not
  · rw [entries_setEntries, if_pos rfl]
    exact new

/-! ### The map and its leaves -/

theorem MapOk.mono {pages' : Multiset Nat} (world : MapOk t m pages)
    (map : (m'.task t).tMap = (m.task t).tMap)
    (leaf : ∀ x a, m'.leaf x a = m.leaf x a)
    (used : ∀ x a l, m.leaf x a = some l → m'.pmm.used l.pa = true)
    (more : ∀ a ∈ pages, a ∈ pages') : MapOk t m' pages' := by
  have entries : m'.entries t = m.entries t := congrArg VmMap.vmHead map
  refine ⟨map ▸ world.tidy, entries ▸ world.ranges, fun x a l present => ?_, fun a l present => ?_⟩
  · exact used x a l (leaf x a ▸ present)
  · rw [entries]
    exact (world.under a l (leaf t a ▸ present)).imp_right (more a)

theorem MapOk.searched (world : MapOk t m pages)
    (tidy : VmMap.Tidy { (m.task t).tMap with vmHint := hint }) :
    MapOk t (m.setHint t hint) pages := by
  have map : ((m.setHint t hint).task t).tMap = { (m.task t).tMap with vmHint := hint } := by
    rw [Memory.setHint, tMap_setMap, if_pos rfl]
  have leaf : ∀ x a, (m.setHint t hint).leaf x a = m.leaf x a := fun x a => leaf_setMap ..
  refine ⟨by rw [map]; exact tidy, by rw [entries_setHint]; exact world.ranges,
    fun x a l present => ?_,
    fun a l present => ?_⟩
  · rw [leaf] at present
    exact world.used x a l present
  · rw [leaf] at present
    rw [entries_setHint]
    exact world.under a l present

theorem Own.searched (world : MapOk t m (0 + rest))
    (hole : (m.task t).tMap.Hole c.bytes va) (fresh : ∀ k < c.pages, va + k * vmPageSize ∉ rest) :
    Own t (m.setHint t (va + c.bytes)) { c with stage := .filling va 0 } := by
  have map : ((m.setHint t (va + c.bytes)).task t).tMap =
      { (m.task t).tMap with vmHint := va + c.bytes } := by
    rw [Memory.setHint, tMap_setMap, if_pos rfl]
  refine (Between.filling va 0).own fun vb same => ?_
  cases same
  refine ⟨hole.page, by rw [map]; exact hole.low, by rw [map]; exact hole.high, zero_le _,
    fun k maps => absurd maps.2 (not_lt_zero k),
    fun k inside _ => ?_, fun _ => ?_, fun ended => by cases ended⟩
  · -- a leaf in the hole would be under an entry or another call's
    by_contra there
    obtain ⟨l, present⟩ := ne_none_iff_exists'.mp there
    rw [Memory.setHint, leaf_setMap] at present
    rcases world.under _ l present with ⟨e, member, covers⟩ | member
    · have apart := hole.apart e member
      have fits := c.within va inside
      have low := covers.1
      have high := covers.2
      unfold vmPageSize at *
      omega
    · rw [zero_add] at member
      exact fresh k inside member
  · rw [map, entries_setHint]
    exact ⟨le_rfl, hole.apart⟩

theorem MapOk.setRefuse (world : MapOk t m pages) (refuse : List Bool) :
    MapOk t (m.setRefuse refuse) pages := world.mono rfl (fun _ _ => rfl) world.used fun _ => id

theorem MapOk.recorded (world : MapOk t m pages) (entry : e.Ok)
    (free : ∀ x ∈ m.entries t, x.vmeEnd ≤ e.vmeStart ∨ e.vmeEnd ≤ x.vmeStart)
    (within : e.Within (m.task t).tMap.vmLo (m.task t).tMap.vmHi) :
    MapOk t (m.setEntries t (vmEntryInsert e (m.entries t))) pages := by
  have leaf : ∀ x a, (m.setEntries t (vmEntryInsert e (m.entries t))).leaf x a = m.leaf x a :=
    fun x a =>
    leaf_setEntries ..
  refine ⟨?_, ?_, fun x a l present => world.used x a l (leaf x a ▸ present), fun a l present => ?_⟩
  · rw [Memory.setEntries, tMap_setMap, if_pos rfl]
    refine ⟨world.tidy.window, world.tidy.hint, world.tidy.reach, fun x member => ?_⟩
    rcases mem_vmEntryInsert.mp member with rfl | old
    · exact within
    · exact world.tidy.within x old
  · rw [entries_setEntries, if_pos rfl]
    exact world.ranges.insert entry free
  rw [entries_setEntries, if_pos rfl]
  refine (world.under a l (leaf t a ▸ present)).imp_left ?_
  rintro ⟨x, member, covers⟩
  exact ⟨x, mem_vmEntryInsert.mpr (.inr member), covers⟩

theorem MapOk.placed (world : MapOk t m (c.mapped + rest))
    (here : c.stage = .placing va i pa) (used : m.pmm.used l.pa = true) :
    MapOk t (m.setLeaf t (va + i * vmPageSize) l) (mapped { c with stage := .filling va (i + 1) } +
      rest) := by
  obtain ⟨size, prot, place⟩ := c
  cases here
  refine ⟨by rw [tMap_setLeaf]; exact world.tidy, by rw [entries_setLeaf]; exact world.ranges,
    fun x a l' present => ?_, fun a l' present => ?_⟩
  · rw [leaf_setLeaf] at present
    split at present
    · cases present
      exact used
    · exact world.used x a l' present
  rw [leaf_setLeaf] at present
  rw [entries_setLeaf, mem_add, mem_mapped]
  split at present
  next same => exact .inr (.inl ⟨va, i, rfl, ⟨zero_le _, lt_succ_self _⟩, same.2⟩)
  next =>
  refine (world.under a l' present).imp_right fun member => ?_
  rw [mem_add, mem_mapped] at member
  refine member.imp_left ?_
  rintro ⟨vb, k, same, maps, rfl⟩
  cases same
  exact ⟨va, k, rfl, ⟨maps.1, lt_succ_of_lt maps.2⟩, rfl⟩

theorem MapOk.removed {pa : Option Frame} (world : MapOk t m (c.mapped + rest))
    (here : c.stage = .removing va i j pa) :
    MapOk t (m.eraseLeaf t (va + j * vmPageSize)) (mapped { c with stage := .freeing va i j pa } +
      rest) := by
  obtain ⟨size, prot, place⟩ := c
  cases here
  refine ⟨by rw [tMap_eraseLeaf]; exact world.tidy, by rw [entries_eraseLeaf]; exact world.ranges,
    fun x a l present => ?_, fun a l present => ?_⟩
  · rw [leaf_eraseLeaf] at present
    split at present
    · cases present
    · exact world.used x a l present
  rw [leaf_eraseLeaf] at present
  split at present
  · cases present
  next other =>
  rw [entries_eraseLeaf, mem_add, mem_mapped]
  refine (world.under a l present).imp_right fun member => ?_
  rw [mem_add, mem_mapped] at member
  refine member.imp_left ?_
  rintro ⟨vb, k, same, maps, rfl⟩
  cases same
  have before : j ≤ k ∧ k < i := maps
  have past : k ≠ j := fun same => other ⟨rfl, by rw [same]⟩
  exact ⟨va, k, rfl, ⟨show j + 1 ≤ k by omega, before.2⟩, rfl⟩

/-! ### One step -/

theorem Own.stepped (own : c.Own t m) (moves : Moves t m c m' stage)
    (world : MapOk t m (c.mapped + rest))
    (fits : c.stage = .finding → max (m.task t).tMap.vmLo (m.task t).tMap.vmHi + vmAlignUp c.size <
      2 ^ 64)
    (fresh : c.stage = .finding → ∀ va k, stage.va = some va → k < c.pages →
      va + k * vmPageSize ∉ rest) :
    MapOk t m' (mapped { c with stage := stage } + rest) ∧ Own t m' { c with stage := stage } := by
  -- a step that frees a frame no page table has leaves every mapped frame in use
  have freed : ∀ f, Loose m f → ∀ x a l, m.leaf x a = some l → (m.pmm.free f).used l.pa = true := by
    intro f loose x a l present
    rw [Pmm.used_free_of_ne _ (loose.unmapped x a l present)]
    exact world.used x a l present
  obtain ⟨size, prot, place⟩ := c
  cases moves with
  | fails here =>
    cases here
    exact ⟨world, (Between.done _).own fun va same => by cases same⟩
  | @finds va here space =>
    obtain ⟨hint, hole, tidy, -⟩ := world.found (fits here) space
    rw [hint]
    cases here
    exact ⟨world.searched tidy, .searched world hole (fresh rfl va · rfl)⟩
  | starved here | skips here =>
    cases here
    exact ⟨world, own.between ⟨rfl, rfl, rfl, rfl⟩ (.undoing ..)⟩
  | takes here more free =>
    cases here
    refine ⟨world.mono rfl (fun _ _ => rfl) (fun x a l present => ?_) fun _ => id,
      (own.take free).restage ⟨rfl, rfl, rfl, rfl⟩ (fun f same => ?_) (fun _ _ _ same => ?_)
      fun _ _ _ _ same => ?_⟩
    · change (m.pmm.alloc _).used l.pa = true
      rw [Pmm.used_alloc]
      split
      · rfl
      · exact world.used x a l present
    · cases same
      exact world.taken free
    · cases same
      exact more
    · cases same
  | @enters va i r here all run =>
    cases here
    have ranged := own.range va rfl
    obtain ⟨entry, free⟩ :=
      vmMapEnterBacked_legal world.ranges (fun _ => rfl) (fun lazy => by cases lazy) run
    obtain rfl : i = pages ⟨size, prot, .finding⟩ := le_antisymm ranged.upper all
    exact ⟨(world.setRefuse r).recorded entry free ⟨entry.first, entry.last, ranged.low,
      ranged.high⟩,
      (own.setRefuse r).recorded rfl all ⟨_, mem_vmEntryInsert.mpr (.inl rfl), rfl, rfl⟩⟩
  | @barred va i r here =>
    cases here
    exact ⟨world.setRefuse r, (own.setRefuse r).between ⟨rfl, rfl, rfl, rfl⟩ (.undoing ..)⟩
  | @places va i pa r here =>
    cases here
    rw [(own.range va rfl).pageAt (own.short va i pa rfl)]
    exact ⟨(world.setRefuse r).placed rfl (own.loose pa rfl).used, (own.setRefuse r).placed rfl⟩
  | @balks va i pa r here =>
    cases here
    exact ⟨world.setRefuse r, (own.setRefuse r).restage ⟨rfl, rfl, rfl, rfl⟩ (own.setRefuse r).loose
      (fun _ _ _ same => by cases same) fun _ _ _ _ same => by cases same⟩
  | returns here | frees here =>
    cases here
    have loose := own.loose _ rfl
    refine ⟨world.mono rfl (fun _ _ => rfl) (freed _ loose) fun _ => id,
      .free ?_ (not_has loose rfl)⟩
    exact own.between ⟨rfl, rfl, rfl, rfl⟩ (.undoing ..)
  | @looks va i j here more =>
    cases here
    have ranged := own.range va rfl
    obtain ⟨pa, solo⟩ := ranged.mapped j ⟨le_refl j, more⟩
    refine ⟨world, own.restage ⟨rfl, rfl, rfl, rfl⟩ (fun _ same => by cases same) (fun _ _ _ same =>
      by cases same)
      fun _ _ _ _ same => ?_⟩
    cases same
    rw [ranged.pageAt (lt_of_lt_of_le more ranged.upper), solo.leaf]
    exact ⟨more, _, rfl, rfl⟩
  | @gives va i j here all =>
    cases here
    have none : mapped ⟨size, prot, .undoing va i j⟩ = 0 := by
      simp [mapped, first, last, Stage.va, Stage.first, Stage.last, all]
    rw [none] at world
    exact ⟨world, (Between.done _).own fun va same => by cases same⟩
  | @removes va i j pa here =>
    cases here
    have ranged := own.range va rfl
    rw [ranged.pageAt (lt_of_lt_of_le (own.fetched va i j pa rfl).1 ranged.upper)]
    exact ⟨world.removed rfl, own.removed rfl⟩

theorem Own.untouched {x : Nat} (own : c.Own t m) (moves : Moves t m c m' stage)
    (outside : c.Outside a) :
    m'.leaf x a = m.leaf x a := by
  obtain ⟨size, prot, place⟩ := c
  cases moves with
  | finds => exact leaf_setMap ..
  | enters => exact leaf_setEntries ..
  | @places va i pa r here =>
    cases here
    have short := own.short va i pa rfl
    rw [(own.range va rfl).pageAt short, leaf_setLeaf,
      if_neg fun both => outside va i rfl short both.2.symm]
    rfl
  | @removes va i j pa here =>
    cases here
    have ranged := own.range va rfl
    have inside := lt_of_lt_of_le (own.fetched va i j pa rfl).1 ranged.upper
    rw [ranged.pageAt inside, leaf_eraseLeaf,
      if_neg fun both => outside va j rfl inside both.2.symm]
  | fails | starved | takes | barred | balks | returns | looks | gives | frees | skips => rfl

/-! ### Runs -/

variable {n : Nat} {s s' : Threads n Memory AllocCall} {i : Fin n}

/-- A search does not wrap, and does not fall back to the floor while another call is in flight. -/
def Orderly (t : Nat) (s : Threads n Memory AllocCall) (i : Fin n) : Prop :=
  (s.pc i).stage.searching = true →
    max (s.shared.task t).tMap.vmLo (s.shared.task t).tMap.vmHi + vmAlignUp (s.pc i).size < 2 ^ 64 ∧
      (FallsBack (s.shared.task t).tMap (s.pc i).bytes → ∀ j ≠ i, ¬ (s.pc j).InFlight)

instance : Decidable (Orderly t s i) := inferInstanceAs (Decidable (_ → _))

def begin (m : Memory) (wanted : Fin n → Nat × Prot) : Threads n Memory AllocCall :=
  ⟨m, fun i => ⟨(wanted i).1, (wanted i).2, .finding⟩⟩

abbrev Sound (t : Nat) (s : Threads n Memory AllocCall) : Prop :=
  Threads.Sound (MapOk t) mapped (Own t) Clear s

theorem sound_begin {held : Multiset Frame} (ok : VmOk m held) (tidy : (m.task t).tMap.Tidy)
    (wanted : Fin n → Nat × Prot) :
    Sound t (begin m wanted) := by
  refine ⟨⟨tidy, ok.ranges t, fun x a l present => ok.used_of_leaf present,
    fun a l present => .inl ?_⟩,
    fun i => ⟨nofun, nofun, nofun, nofun⟩, fun i j _ => ⟨nofun, nofun⟩⟩
  obtain ⟨e, backed⟩ := ok.backed t a l present
  exact ⟨e, (vmMapLookup_some_iff (ok.ranges t)).mp backed.found⟩

theorem Sound.step (sound : Sound t s) (taken : Threads.next (step t) s i = some s')
    (orderly : Orderly t s i) :
    Sound t s' := by
  have forward : ∀ j ≠ i, Forward t s.shared (s.pc i) (s.pc j) := fun j other here => by
    obtain ⟨fits, alone⟩ := orderly (by rw [here]; rfl)
    exact ⟨fits, fun back => alone back j other⟩
  refine Threads.Sound.kept sound taken (fun m c stepped world own => ?_)
    fun m c j other stepped theirs clear _ => ?_
  · obtain ⟨stage, moves, rfl⟩ := moves_of_step stepped
    refine own.stepped moves world (fun here => (orderly (by rw [here]; rfl)).1)
      fun here va k range inside member => ?_
    -- a page of another call is outside the range just found
    obtain ⟨j, member, mine⟩ := mem_sum.mp member
    have other := Finset.ne_of_mem_erase member
    obtain ⟨-, clear⟩ :=
      (sound.own j).undisturbed moves world own (sound.apart i j (Ne.symm other)) (forward j other)
    obtain ⟨vb, k', theirs, maps, same⟩ := mem_mapped.mp mine
    exact clear.outside range inside vb k' theirs
      (lt_of_lt_of_le maps.2 ((sound.own j).range vb theirs).upper) same.symm
  obtain ⟨stage, moves, rfl⟩ := moves_of_step stepped
  have world := sound.world
  obtain ⟨kept, apart⟩ := theirs.undisturbed moves world (sound.own i) clear (forward j other)
  exact ⟨kept, apart, apart.symm⟩

/-- Whatever the order of their steps, as long as these are orderly: calls that have returned a
range have ranges apart, all of whose pages are there, cleared and in frames of their own; and no
step of a call, of one that fails among them, changes a page that is another's. -/
theorem allocations_apart {held : Multiset Frame} (ok : VmOk m held) (tidy : (m.task t).tMap.Tidy)
    (wanted : Fin n → Nat × Prot) (s : Threads n Memory AllocCall)
    (run : Runs (Threads.next (step t)) (fun s i _ => Orderly t s i) (begin m wanted) s) :
    (∀ i j a b, i ≠ j → (s.pc i).stage = .done (.ok a) → (s.pc j).stage = .done (.ok b) →
      a + (s.pc i).bytes ≤ b ∨ b + (s.pc j).bytes ≤ a) ∧
    (∀ i va, (s.pc i).stage = .done (.ok va) → ∀ k < (s.pc i).pages,
      ∃ pa, Solo s.shared t (va + k * vmPageSize) ⟨pa, (s.pc i).flags⟩) ∧
    ∀ i j s', i ≠ j → Threads.next (step t) s i = some s' → ∀ va k, (s.pc j).stage.va = some va →
      k < (s.pc j).pages →
      s'.shared.leaf t (va + k * vmPageSize) = s.shared.leaf t (va + k * vmPageSize) := by
  have sound := run.invariant (P := Sound t) (sound_begin ok tidy wanted)
    fun s i s' sound taken orderly => sound.step taken orderly
  refine ⟨fun i j a b other first second => ?_, fun i va here k inside => ?_,
    fun i j s' other taken va k range inside => ?_⟩
  · exact (sound.apart i j other).ranges a b (by rw [first]; rfl) (by rw [second]; rfl)
  · refine ((sound.own i).range va (by rw [here]; rfl)).mapped k ?_
    unfold Maps first last
    rw [here]
    exact ⟨zero_le _, inside⟩
  · obtain ⟨c, stepped, -⟩ := Threads.next_eq_some_iff.mp taken
    obtain ⟨stage, moves, -⟩ := moves_of_step stepped
    exact (sound.own i).untouched moves ((sound.apart j i (Ne.symm other)).outside range inside)

/-! ### Two calls -/

def given (c : AllocCall) : Option Nat :=
  match c.stage with
  | .done (.ok va) => some va
  | _ => none

theorem stage_of_given (given : c.given = some va) : c.stage = .done (.ok va) := by
  unfold AllocCall.given at given
  split at given
  next here => rw [here, some.inj given]
  · cases given

theorem imageMemory_tidy : (imageMemory.task 1).tMap.Tidy := by
  unfold imageMemory
  rw [task_setTask]
  exact VmMap.tidy_default

/-- A page for each of two calls, step by step in turn. -/
theorem allocations_apart_two : ∃ s : Threads 2 Memory AllocCall,
    (s.pc 0).stage = .done (.ok 0x40000000) ∧ (s.pc 1).stage = .done (.ok 0x40001000) ∧
    ∃ pa, Solo s.shared 1 0x40001000 ⟨pa, (s.pc 1).flags⟩ := by
  obtain ⟨s, run, first, second, pages⟩ : ∃ s : Threads 2 Memory AllocCall,
    Runs (Threads.next (step 1))
      (fun s i _ => Orderly 1 s i) (begin imageMemory fun _ =>
        (0x1000, ⟨true, true, false, false⟩)) s ∧
      (s.pc 0).given = some 0x40000000 ∧ (s.pc 1).given = some 0x40001000 ∧ (s.pc 1).pages = 1 :=
    Runs.exists_of_follow [0, 1, 0, 1, 0, 1, 0, 1] (by decide +kernel)
  have apart := allocations_apart imageMemory_ok imageMemory_tidy _ s run
  refine ⟨s, stage_of_given first, stage_of_given second, ?_⟩
  exact apart.2.1 1 0x40001000 (stage_of_given second) 0 (by omega)

/-- The first call has mapped its page when the second, too large for what is left above the hint,
falls back to the floor and is given the same address. It maps a page of its own there, runs out of
frames, and takes away what it finds: the first call succeeds, and its page is gone. -/
theorem allocations_meet_at_the_floor : ∃ s : Threads 2 Memory AllocCall,
    Runs (Threads.next (step 1)) (fun _ _ _ => True)
      (begin imageMemory fun i =>
        (if i = 0 then 0x1000 else 0x40000000, ⟨true, true, false, false⟩)) s ∧
    (s.pc 0).stage = .done (.ok 0x40000000) ∧ (s.pc 1).stage.returned = true ∧
      (s.pc 1).given = none ∧
    s.shared.leaf 1 0x40000000 = none ∧ imageMemory.pmm.used 3 = false ∧
      s.shared.pmm.used 3 = true := by
  obtain ⟨s, run, first, ended, nothing, gone, lost⟩ : ∃ s : Threads 2 Memory AllocCall,
    Runs (Threads.next (step 1))
      (fun _ _ _ => True) (begin imageMemory fun i =>
        (if i = 0 then 0x1000 else 0x40000000, ⟨true, true, false, false⟩)) s ∧
      (s.pc 0).given = some 0x40000000 ∧ (s.pc 1).stage.returned = true ∧ (s.pc 1).given = none ∧
      s.shared.leaf 1 0x40000000 = none ∧ s.shared.pmm.used 3 = true :=
    Runs.exists_of_follow [0, 0, 0, 1, 1, 1, 0, 1, 1, 1, 1, 1, 1, 1, 1, 1, 1] (by decide +kernel)
  exact ⟨s, run, stage_of_given first, ended, nothing, gone, rfl, lost⟩

end AllocCall

end Style9.Vm
