import Style9.Vm.Owners

/-!
# What a task sees

A task's memory is the byte function its entries and page tables give: a page that is there reads
as its frame, a page promised and not yet there as what backs it. A call is quiet when it changes
no task's bytes and none of the frames that messages carry; moving frames about under the pages is
quiet when the bytes agree.
-/
namespace Style9.Vm

open Style9.Lib Memory

variable {s s₁ s' : Memory} {t t' va va' page : Nat} {f g : Frame} {l l' : Leaf}
  {held : Multiset Frame}
  {e : VmMapEntry} {es : List VmMapEntry}

def Memory.view (s : Memory) (t va : Nat) : Option Byte :=
  match vmMapLookup (s.entries t) va with
  | none => none
  | some e =>
    match s.leaf t (vmAlignDown va) with
    | some l => some (s.ram l.pa (va % vmPageSize))
    | none => if e.vmeFlags.lazy then some (s.backing e va) else none

theorem Memory.view_outside (outside : vmMapLookup (s.entries t) va = none) :
    s.view t va = none := by
  unfold Memory.view
  rw [outside]

theorem Memory.view_present (found : vmMapLookup (s.entries t) va = some e)
    (present : s.leaf t (vmAlignDown va) = some l) :
    s.view t va = some (s.ram l.pa (va % vmPageSize)) := by
  unfold Memory.view
  rw [found, present]

theorem Memory.view_absent (found : vmMapLookup (s.entries t) va = some e)
    (absent : s.leaf t (vmAlignDown va) = none) :
    s.view t va = if e.vmeFlags.lazy then some (s.backing e va) else none := by
  unfold Memory.view
  rw [found, absent]

/-- Nothing a task or a message can see has changed, pages that were there still are, and a
frame that only its holder owned still has that one owner. -/
structure Quiet (held : Multiset Frame) (s s' : Memory) : Prop where
  view : ∀ t va, s'.view t va = s.view t va
  ram : ∀ f ∈ held, s'.ram f = s.ram f
  present : ∀ t va, (s.leaf t va).isSome = true → (s'.leaf t va).isSome = true
  sole : ∀ f ∈ held, s.pmm.refs f = 1 → s'.pmm.refs f = 1

theorem Quiet.refl (held : Multiset Frame) (s : Memory) : Quiet held s s :=
  ⟨fun _ _ => rfl, fun _ _ => rfl, fun _ _ here => here, fun _ _ one => one⟩

theorem Quiet.trans (first : Quiet held s s₁) (second : Quiet held s₁ s') : Quiet held s s' :=
  ⟨fun t va => (second.view t va).trans (first.view t va),
    fun f member => (second.ram f member).trans (first.ram f member),
    fun t va here => second.present t va (first.present t va here),
    fun f member one => second.sole f member (first.sole f member one)⟩

theorem Quiet.mono {fewer : Multiset Frame} (quiet : Quiet held s s') (sub : fewer ⊆ held) :
    Quiet fewer s s' :=
  ⟨quiet.view, fun f member => quiet.ram f (sub member), quiet.present,
    fun f member => quiet.sole f (sub member)⟩

theorem Memory.view_congr (entries : s'.entries t = s.entries t)
    (leaf : s'.leaf t (vmAlignDown va) = s.leaf t (vmAlignDown va))
    (ram : ∀ l, s.leaf t (vmAlignDown va) = some l → s'.ram l.pa = s.ram l.pa)
    (objects : s'.objects = s.objects) : s'.view t va = s.view t va := by
  unfold Memory.view Memory.backing
  rw [entries, leaf, objects]
  cases vmMapLookup (s.entries t) va with
  | none => rfl
  | some e =>
    cases present : s.leaf t (vmAlignDown va) with
    | none => rfl
    | some l => simp only [ram l present]

/-! ### Refusals -/

def Memory.setRefuse (s : Memory) (refuse : List Bool) : Memory := { s with refuse := refuse }

theorem Owned.setRefuse (owned : Owned s held) (refuse : List Bool) :
    Owned (s.setRefuse refuse) held :=
  owned.congr rfl rfl (fun _ _ => rfl) fun _ => rfl

theorem VmOk.setRefuse (ok : VmOk s held) (refuse : List Bool) : VmOk (s.setRefuse refuse) held :=
  ok.congr rfl rfl (fun _ _ => rfl) fun _ => rfl

theorem Quiet.setRefuse (held : Multiset Frame) (s : Memory) (refuse : List Bool) :
    Quiet held s (s.setRefuse refuse) :=
  ⟨fun _ _ => rfl, fun _ _ => rfl, fun _ _ here => here, fun _ _ one => one⟩

theorem granted_run (s : Memory) : ∃ b refuse, granted s = (.ok b, s.setRefuse refuse) := by
  unfold granted
  split
  · exact ⟨false, _, rfl⟩
  · exact ⟨true, _, rfl⟩
  · exact ⟨true, s.refuse, rfl⟩

theorem pmapEnter_present (present : s.leaf t va = some l') :
    pmapEnter t va l s = (.ok true, s.setLeaf t va l) := by
  unfold pmapEnter
  rw [present]
  rfl

theorem pmapEnter_run (s : Memory) (t va : Nat) (l : Leaf) : ∃ refuse,
    pmapEnter t va l s = (.ok true, (s.setRefuse refuse).setLeaf t va l) ∨
      s.leaf t va = none ∧ pmapEnter t va l s = (.ok false, s.setRefuse refuse) := by
  cases leaf : s.leaf t va with
  | some l' => exact ⟨s.refuse, .inl (pmapEnter_present leaf)⟩
  | none =>
  obtain ⟨b, refuse, run⟩ := granted_run s
  refine ⟨refuse, ?_⟩
  unfold pmapEnter
  rw [leaf, if_neg (by simp), run]
  cases b with
  | true => exact .inl rfl
  | false => exact .inr ⟨rfl, rfl⟩

/-! ### Frames -/

theorem Quiet.setPmm {p : Pmm} (sole : ∀ f ∈ held, s.pmm.refs f = 1 → p.refs f = 1) :
    Quiet held s (s.setPmm p) := ⟨fun _ _ => rfl, fun _ _ => rfl, fun _ _ here => here, sole⟩

theorem Quiet.alloc (ok : VmOk s held) (free : s.pmm.used f = false) :
    Quiet held s (s.setPmm (s.pmm.alloc f)) := by
  refine Quiet.setPmm fun g member one => ?_
  rw [Pmm.refs_alloc, if_neg fun same : g = f => (ok.free_unowned free).1 (same ▸ member)]
  exact one

/-- A frame held twice is not solely owned, so dropping one hold leaves the sole owners alone. -/
theorem Quiet.free (ok : VmOk s (f ::ₘ held)) : Quiet held s (s.setPmm (s.pmm.free f)) := by
  refine Quiet.setPmm fun g member one => ?_
  by_cases same : g = f
  · subst same
    exact absurd member (ok.sole one).1
  · rw [Pmm.refs_free, if_neg same]
    exact one

theorem VmOk.fill (ok : VmOk s held) (f : Frame) (bytes : Nat → Byte) :
    VmOk (s.fill f bytes) held :=
  ok.congr rfl rfl (fun _ _ => rfl) fun _ => rfl

theorem Quiet.fill (ok : VmOk s (f ::ₘ held)) (one : s.pmm.refs f = 1) (bytes : Nat → Byte) :
    Quiet held s (s.fill f bytes) := by
  obtain ⟨unheld, unmapped⟩ := ok.sole one
  refine ⟨fun t va => ?_, fun g member => ?_, fun _ _ here => here, fun _ _ one => one⟩
  · refine view_congr rfl rfl (fun l present => ?_) rfl
    rw [ram_fill, if_neg (unmapped t _ l present)]
  · rw [ram_fill, if_neg fun same : g = f => unheld (same ▸ member)]

theorem pmmAllocPage_run (s : Memory) : pmmAllocPage s = (.ok none, s) ∨
    ∃ f, s.pmm.used f = false ∧ pmmAllocPage s = (.ok (some f), s.setPmm (s.pmm.alloc f)) := by
  unfold pmmAllocPage
  split
  · exact .inl rfl
  next f found =>
    refine .inr ⟨f, ?_, rfl⟩
    have free := List.find?_some found
    simpa using free

theorem pmmFreePage_run (run : pmmFreePage f s = (.ok (), s')) :
    s.pmm.refs f ≠ 0 ∧ s' = s.setPmm (s.pmm.free f) := by
  unfold pmmFreePage at run
  split at run
  · cases run
  split at run
  · cases run
  next live =>
    cases run
    exact ⟨live, rfl⟩

theorem pmmFreePage_of_live (used : s.pmm.used f = true) (live : s.pmm.refs f ≠ 0) :
    pmmFreePage f s = (.ok (), s.setPmm (s.pmm.free f)) := by
  unfold pmmFreePage
  rw [used, if_neg (by decide), if_neg live]

theorem pmmPageRef_run (run : pmmPageRef f s = (.ok (), s')) :
    s.pmm.refs f ≠ 0 ∧ s' = s.setPmm (s.pmm.ref f) := by
  unfold pmmPageRef at run
  split at run
  · cases run
  next live =>
  split at run
  · cases run
  · cases run
    exact ⟨fun none => live (.inr none), rfl⟩

theorem VmOk.dropped (ok : VmOk s (f ::ₘ held)) (run : pmmFreePage f s = (.ok (), s')) :
    VmOk s' held ∧ Quiet held s s' := by
  obtain ⟨-, rfl⟩ := pmmFreePage_run run
  exact ⟨ok.free, Quiet.free ok⟩

/-! ### Leaves -/

theorem Memory.view_setLeaf (s : Memory) (t page t' va : Nat) (l : Leaf) :
    (s.setLeaf t page l).view t' va = if t' = t ∧ vmAlignDown va = page then
      (vmMapLookup (s.entries t) va).map fun _ => s.ram l.pa (va % vmPageSize)
        else s.view t' va := by
  split
  next here =>
    obtain ⟨rfl, rfl⟩ := here
    unfold Memory.view
    rw [entries_setLeaf, leaf_setLeaf, if_pos ⟨rfl, rfl⟩]
    cases vmMapLookup (s.entries t') va <;> rfl
  next elsewhere =>
    refine view_congr (entries_setLeaf ..) ?_ (fun _ _ => rfl) rfl
    rw [leaf_setLeaf, if_neg elsewhere]

theorem Quiet.setLeaf (same : ∀ va, vmAlignDown va = page →
    ((vmMapLookup (s.entries t) va).map fun _ => s.ram l.pa (va % vmPageSize)) = s.view t va) :
    Quiet held s (s.setLeaf t page l) := by
  refine ⟨fun x va => ?_, fun _ _ => rfl, fun x va here => ?_, fun _ _ one => one⟩
  · rw [view_setLeaf]
    split
    next point =>
      obtain ⟨rfl, here⟩ := point
      exact same va here
    · rfl
  rw [leaf_setLeaf]
  split
  · rfl
  · exact here

theorem Quiet.replace (present : s.leaf t page = some l')
    (bytes : ∀ i, s.ram l.pa i = s.ram l'.pa i) : Quiet held s (s.setLeaf t page l) := by
  refine Quiet.setLeaf fun va here => ?_
  rw [← here] at present
  cases found : vmMapLookup (s.entries t) va with
  | none => rw [view_outside found]; rfl
  | some e =>
    rw [view_present found present]
    exact congrArg some (bytes _)

theorem Exclusive.setLeaf (exclusive : Exclusive s)
    (sole : l.prot.write = true → s.pmm.refs l.pa = 1) :
    Exclusive (s.setLeaf t va l) := by
  intro x page l' present write
  rw [leaf_setLeaf] at present
  split at present
  · cases present
    exact sole write
  · exact exclusive x page l' present write

theorem Exclusive.eraseLeaf (exclusive : Exclusive s) : Exclusive (s.eraseLeaf t va) := by
  intro x page l' present write
  rw [leaf_eraseLeaf] at present
  split at present
  · cases present
  · exact exclusive x page l' present write

/-! ### Entries -/

theorem Memory.view_setEntries_of_ne (other : t' ≠ t) :
    (s.setEntries t es).view t' va = s.view t' va := by
  refine view_congr ?_ (leaf_setEntries ..) (fun _ _ => rfl) rfl
  rw [entries_setEntries, if_neg other]

theorem Memory.view_setEntries_of_alike
    (alike : Option.Rel (Alike va) (vmMapLookup (s.entries t) va) (vmMapLookup es va)) :
    (s.setEntries t es).view t va = s.view t va := by
  unfold Memory.view
  rw [entries_setEntries, if_pos rfl, leaf_setEntries]
  generalize vmMapLookup (s.entries t) va = old at alike ⊢
  generalize vmMapLookup es va = new at alike ⊢
  cases alike with
  | none => rfl
  | some alike =>
  cases s.leaf t (vmAlignDown va) with
  | some l => rfl
  | none =>
  dsimp only
  rw [alike.lazy]
  split
  · exact congrArg some (alike.backing s)
  · rfl

theorem Quiet.setEntries (alike : AlikeAll (s.entries t) es) :
    Quiet held s (s.setEntries t es) := by
  refine ⟨fun x va => ?_, fun _ _ => rfl, fun x va here => ?_, fun _ _ one => one⟩
  · by_cases here : x = t
    · subst here
      exact view_setEntries_of_alike (alike va)
    · exact view_setEntries_of_ne here
  · rwa [leaf_setEntries]

theorem Exclusive.setEntries (exclusive : Exclusive s) : Exclusive (s.setEntries t es) := by
  intro x va l present write
  rw [leaf_setEntries] at present
  exact exclusive x va l present write

theorem VmOk.setEntries (ok : VmOk s held) (ranges : Ranges es)
    (alike : AlikeAll (s.entries t) es) : VmOk (s.setEntries t es) held :=
  ⟨ok.toOwned.setEntries ranges fun va _ _ => alike va, ok.exclusive.setEntries⟩

theorem VmOk.markCow (ok : VmOk s held) (start : Nat) :
    VmOk (s.setEntries t (vmMarkCow start (s.entries t))) held ∧
      Quiet held s (s.setEntries t (vmMarkCow start (s.entries t))) :=
  ⟨ok.setEntries ((ok.ranges t).markCow start) (AlikeAll.markCow (ok.ranges t) start),
    Quiet.setEntries (AlikeAll.markCow (ok.ranges t) start)⟩

end Style9.Vm
