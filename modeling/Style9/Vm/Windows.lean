import Style9.Vm.Sections

/-!
# What the steps of a fault, a release and a capture keep

A call relies on what it saw under the lock about its page, or on the range it has checked. With
that, each of its steps keeps the accounts of the frames, and no assertion of the allocator fails.
-/
namespace Style9.Vm

open Style9.Lib Memory List Multiset Act Nat Option

variable {m m' : Memory} {t page va size addr : Nat} {write : Bool} {c d : VmWork}
  {held rest : Multiset Frame}
  {old pa : Frame} {prot : Prot} {e : VmMapEntry} {l : Leaf} {pages : List Nat}

/-! ### What a call relies on -/

/-- The page is under an entry that owns what it maps and permits so much. -/
def Promised (t : Nat) (m : Memory) (page : Nat) (prot : Prot) : Prop :=
  ∃ e, vmMapLookup (m.entries t) page = some e ∧ e.vmeProt = prot ∧ e.vmeFlags.anon = true

def Maps (t : Nat) (m : Memory) (page : Nat) (f : Frame) : Prop :=
  ∃ l, m.leaf t page = some l ∧ l.pa = f

def FaultStage.Own (t page : Nat) (m : Memory) : FaultStage → Prop
  | .counting old prot | .stealing old prot | .replacing old _ prot =>
    Maps t m page old ∧ Promised t m page prot
  | .copying _ | .copied _ _ =>
    ∀ e, vmMapLookup (m.entries t) page = some e → e.vmeFlags.anon = true
  | .installing _ prot => m.leaf t page = none ∧ Promised t m page prot
  | _ => True

/-- A range that was checked and cut out. -/
structure Shielded (t : Nat) (m : Memory) (lo hi : Nat) : Prop where
  first : lo % vmPageSize = 0
  lower : Cut lo (m.entries t)
  upper : Cut hi (m.entries t)
  owned : ∀ a, lo ≤ a → a < hi → OwnedAt m t a

/-- The pages of a range are gone up to one. -/
def Emptied (t : Nat) (m : Memory) (lo hi v : Nat) : Prop :=
  ∀ a l, m.leaf t a = some l → lo ≤ a → a < hi → v ≤ a

def ReleaseStage.Own (t va size : Nat) (m : Memory) : ReleaseStage → Prop
  | .unmapping v => Shielded t m va (va + size) ∧ va ≤ v ∧ v % vmPageSize = 0 ∧
    Emptied t m va (va + size) v
  | .pulling v pa =>
    (Shielded t m va (va + size) ∧ va ≤ v ∧ v % vmPageSize = 0 ∧ Emptied t m va (va + size) v) ∧
      v < va + size ∧ Maps t m v pa
  | .dropping v _ => Shielded t m va (va + size) ∧ va ≤ v ∧ v % vmPageSize = 0 ∧
    Emptied t m va (va + size) (v + vmPageSize)
  | .done true => ∀ a, va ≤ a → a < va + size → vmMapLookup (m.entries t) a = none
  | _ => True

/-- The pages of a payload are all under one entry that owns them. -/
def Sharable (t : Nat) (m : Memory) (e : VmMapEntry) (pages : List Nat) : Prop :=
  e.vmeFlags.anon = true ∧ ∀ p ∈ pages, vmMapLookup (m.entries t) p = some e

def CaptureStage.Own (t : Nat) (m : Memory) : CaptureStage → Prop
  | .sharing e pages _ | .unsharing e pages _ _ => Sharable t m e pages
  | .referencing e page pages _ pa | .protecting e page pages _ pa =>
    Sharable t m e (page :: pages) ∧ Maps t m page pa
  | _ => True

/-! ### A fault -/

theorem Owned.take (owned : Owned m held) (free : m.pmm.used pa = false) (bytes : Nat → Byte) :
    Owned ((m.setPmm (m.pmm.alloc pa)).fill pa bytes) (pa ::ₘ held) :=
  (owned.alloc free).congr rfl rfl (fun _ _ => rfl) fun _ => rfl

theorem Promised.backed (promised : Promised t m page prot) (live : m.pmm.refs pa ≠ 0) :
    ∃ e, Backed m t page ⟨pa, prot⟩ e := by
  obtain ⟨e, found, rfl, anon⟩ := promised
  exact ⟨e, .of_owned found anon live id⟩

theorem Promised.ownedAt (promised : Promised t m page prot) : OwnedAt m t page := by
  obtain ⟨e, found, -, anon⟩ := promised
  exact ⟨e, found, anon⟩

theorem Owned.frees (owned : Owned m held) (member : pa ∈ held) :
    pmmFreePage pa m = (.ok (), m.setPmm (m.pmm.free pa)) := by
  have live := owned.carried pa member
  exact pmmFreePage_of_live (owned.busy pa live) live

/-- After a step the accounts are in order, and the call is inside the lock only if it was or took
it. -/
structure Stepped (t : Nat) (rest : Multiset Frame) (c : VmWork) (m : Memory) (c' : VmWork)
    (m' : Memory) : Prop where
  owned : Owned m' (c'.hand + rest)
  effect : Effect t c m m'
  inside : c'.locked ≤ (c.wants || c.locked)

theorem FaultStage.act_yields {stage : FaultStage} (aligned : page % vmPageSize = 0)
    (own : stage.Own t page m)
    (owned : Owned m (VmWork.hand (.fault page write stage) + rest)) :
    (stage.act t page write).Yields (· = .pmmRefWrap) m fun stage' m' =>
      stage'.Own t page m' ∧
        Stepped t rest (.fault page write stage) m (.fault page write stage') m' := by
  have here : ∀ {w : VmWork}, w.region = (page, page + 1) → w.Acts page := fun same => by
    unfold VmWork.Acts
    rw [same]
    exact ⟨le_rfl, lt_succ_self _⟩
  cases stage with
  | looking =>
    rw [act, Yields.read_bind]
    cases found : vmMapLookup (m.entries t) page with
    | none => exact .pure ⟨trivial, owned, .refl, Bool.le_true _⟩
    | some e =>
    dsimp only
    split
    · exact .pure ⟨trivial, owned, .refl, Bool.le_true _⟩
    next permits =>
    rw [Yields.read_bind]
    cases present : m.leaf t page with
    | some l =>
      dsimp only
      split
      · exact .pure ⟨trivial, owned, .refl, Bool.le_true _⟩
      next store =>
      -- a store is permitted by writable entries only, and those own what they map
      have entry := (owned.ranges t).entry e ((vmMapLookup_some_iff (owned.ranges t)).mp found).1
      simp only [Bool.or_eq_true, Bool.not_eq_true', Bool.and_eq_true, not_or, not_and,
        Bool.not_eq_false] at permits store
      have anon := entry.owned (permits.2 store.1)
      rw [if_neg (by rw [anon]; decide)]
      exact .pure ⟨⟨⟨l, present, rfl⟩, e, found, rfl, anon⟩, owned, .refl, Bool.le_true _⟩
    | none =>
    dsimp only
    split
    · exact .pure ⟨trivial, owned, .refl, Bool.le_true _⟩
    · exact .pure ⟨trivial, owned, .refl, Bool.le_true _⟩
  | counting old prot =>
    rw [act, Yields.read_bind]
    split
    · exact .pure ⟨own, owned, .refl, Bool.le_true _⟩
    obtain ⟨-, e, found, -, anon⟩ := own
    refine .pure ⟨fun e' found' => ?_, owned, .refl, Bool.le_true _⟩
    rw [found] at found'
    exact some.inj found' ▸ anon
  | stealing old prot =>
    obtain ⟨⟨l, present, rfl⟩, promised⟩ := own
    obtain ⟨e, backed⟩ := promised.backed (owned.live_of_owned promised.ownedAt present).2
    exact .after (pmapEnter_present present) (.pure ⟨trivial, owned.protect present rfl backed,
      Effect.setLeaf (r := m.refuse) (here rfl), Bool.le_true _⟩)
  | copying old =>
    rcases pmmAllocPage_run m with refused | ⟨pa, free, given⟩
    · exact .after refused (.pure ⟨trivial, owned, .refl, Bool.false_le _⟩)
    · refine .after given
        (.after rfl (.pure ⟨own, ?_, .quiet (fun _ _ => rfl) rfl, Bool.false_le _⟩))
      exact Owned.take (by rw [← zero_add rest]; exact owned) free _
  | copied old pa =>
    rw [act, Yields.read_bind]
    cases found : vmMapLookup (m.entries t) page with
    | none => exact .pure ⟨trivial, owned, .refl, Bool.le_true _⟩
    | some e =>
    rw [Yields.read_bind]
    split
    next same =>
      obtain ⟨l, present, rfl⟩ := map_eq_some_iff.mp same
      exact .pure ⟨⟨⟨l, present, rfl⟩, e, found, rfl, own e found⟩, owned, .refl, Bool.le_true _⟩
    · exact .pure ⟨trivial, owned, .refl, Bool.le_true _⟩
  | replacing old pa prot =>
    obtain ⟨⟨l, present, rfl⟩, promised⟩ := own
    have owned : Owned m (pa ::ₘ rest) := by
      exact owned
    have live := (owned.live_of_owned promised.ownedAt present).2
    obtain ⟨e, backed⟩ := promised.backed (owned.carried pa (Multiset.mem_cons_self pa rest))
    refine .after (pmapEnter_present present)
      (.pure ⟨trivial, ?_, Effect.setLeaf (r := m.refuse) (here rfl),
      Bool.le_true _⟩)
    exact Owned.replace (l := ⟨pa, prot⟩) owned present live backed
  | filling obj off =>
    rcases pmmAllocPage_run m with refused | ⟨pa, free, given⟩
    · exact .after refused (.pure ⟨trivial, owned, .refl, Bool.false_le _⟩)
    have taken : Owned (m.setPmm (m.pmm.alloc pa)) ({pa} + rest) := by
      rw [singleton_add]
      exact Owned.alloc (by rw [← zero_add rest]; exact owned) free
    obtain ⟨b, refuse, paged⟩ := pageIn_run obj (m.setPmm (m.pmm.alloc pa))
    refine .after given (.after paged ?_)
    cases b with
    | true =>
      exact .after rfl (.pure ⟨trivial, taken.congr rfl rfl (fun _ _ => rfl) fun _ => rfl,
        .quiet (fun _ _ => rfl) rfl, Bool.false_le _⟩)
    | false =>
      exact .pure ⟨trivial, taken.setRefuse refuse, .quiet (fun _ _ => rfl) rfl, Bool.false_le _⟩
  | filled pa =>
    rw [act, Yields.read_bind]
    cases found : vmMapLookup (m.entries t) page with
    | none => exact .pure ⟨trivial, owned, .refl, Bool.le_true _⟩
    | some e =>
    dsimp only
    split
    · exact .pure ⟨trivial, owned, .refl, Bool.le_true _⟩
    next lazy =>
    rw [Yields.read_bind]
    split
    · exact .pure ⟨trivial, owned, .refl, Bool.le_true _⟩
    next absent =>
      have entry := (owned.ranges t).entry e ((vmMapLookup_some_iff (owned.ranges t)).mp found).1
      exact .pure ⟨⟨by simpa using absent, e, found, rfl, entry.filled (by simpa using lazy)⟩,
        owned, .refl,
        Bool.le_true _⟩
  | installing pa prot =>
    obtain ⟨absent, promised⟩ := own
    have owned : Owned m (pa ::ₘ rest) := by
      exact owned
    obtain ⟨refuse, granted | ⟨-, refused⟩⟩ := pmapEnter_run m t page ⟨pa, prot⟩
    · obtain ⟨e, backed⟩ := promised.backed (owned.carried pa (Multiset.mem_cons_self pa rest))
      refine .after granted (.pure ⟨trivial, ?_, .setLeaf (here rfl), Bool.le_true _⟩)
      change Owned _ (0 + rest)
      rw [zero_add]
      exact Owned.place (l := ⟨pa, prot⟩) (owned.setRefuse refuse) absent aligned
        { backed with }
    · refine .after refused (.pure ⟨trivial, ?_, .quiet (fun _ _ => rfl) rfl, Bool.le_true _⟩)
      exact owned.setRefuse refuse
  | dropping f result =>
    refine .after (owned.frees (mem_add.mpr (.inl (Multiset.mem_singleton_self f))))
      (.pure ⟨trivial, ?_, .quiet (fun _ _ => rfl) rfl, Bool.false_le _⟩)
    change Owned _ (0 + rest)
    rw [zero_add]
    exact Owned.free owned
  | done result => exact .pure ⟨trivial, owned, .refl, Bool.false_le _⟩

/-! ### A release -/

theorem Shielded.effect {lo hi : Nat} (shielded : Shielded t m lo hi) (effect : Effect t c m m')
    (elsewhere : ∀ a, lo ≤ a → a < hi → ¬ c.Acts a) : Shielded t m' lo hi := by
  refine ⟨shielded.first, effect.cuts lo shielded.lower, effect.cuts hi shielded.upper,
    fun a low high => ?_⟩
  obtain ⟨e, found, anon⟩ := shielded.owned a low high
  obtain ⟨e', found', alike⟩ := effect.forth a e (elsewhere a low high) found
  exact ⟨e', found', alike.anon.trans anon⟩

theorem Shielded.congr {lo hi : Nat} (shielded : Shielded t m lo hi)
    (entries : m'.entries t = m.entries t) :
    Shielded t m' lo hi := by
  refine ⟨shielded.first, entries.symm ▸ shielded.lower, entries.symm ▸ shielded.upper,
    fun a low high => ?_⟩
  obtain ⟨e, found, anon⟩ := shielded.owned a low high
  exact ⟨e, entries.symm ▸ found, anon⟩

theorem Emptied.next {lo hi v : Nat} (emptied : Emptied t m lo hi v) (owned : Owned m held)
    (aligned : v % vmPageSize = 0)
    (absent : m.leaf t v = none) : Emptied t m lo hi (v + vmPageSize) := by
  intro a l present low high
  have page := owned.aligned t a l present
  have after := emptied a l present low high
  have other : a ≠ v := by
    rintro rfl
    rw [absent] at present
    cases present
  unfold vmPageSize at *
  omega

theorem ReleaseStage.checked (owned : Owned m held) :
    (ReleaseStage.act t va size .checking).Yields (· = .pmmRefWrap) m fun stage m' =>
      Reshaped t m m' ∧ (stage = .done false ∨ stage = .unmapping va ∧
        Shielded t m' va (va + size)) := by
  have ranges := owned.ranges t
  rw [act, Yields.read_bind]
  split
  · exact .pure ⟨.refl ranges, .inl rfl⟩
  next legal =>
  simp only [not_or, not_not, ne_eq] at legal
  have first := legal.2.1
  have last : (va + size) % vmPageSize = 0 := by
    have whole := legal.2.2.1
    unfold vmPageSize at *
    omega
  split
  · exact .pure ⟨.refl ranges, .inl rfl⟩
  next covered =>
  obtain ⟨b₁, m₁, clip₁, shape₁, cut₁⟩ := vmMapClip_reshapes ranges first
  refine .after clip₁ ?_
  split
  · exact .pure ⟨shape₁, .inl rfl⟩
  next made₁ =>
  obtain ⟨b₂, m₂, clip₂, shape₂, cut₂⟩ := vmMapClip_reshapes shape₁.ranges last
  have shape := shape₁.trans shape₂
  refine .after clip₂ ?_
  split
  · exact .pure ⟨shape, .inl rfl⟩
  next made₂ =>
  refine .pure ⟨shape,
    .inr ⟨rfl, first, shape₂.cuts va (cut₁ (by simpa using made₁)), cut₂ (by simpa using made₂),
    fun a low high => ?_⟩⟩
  obtain ⟨e, member, covers, anon⟩ := owned_of_vmCovered ranges (Nat.le_of_not_lt covered) low high
  obtain ⟨e', found, alike⟩ := shape.alike.some ((vmMapLookup_some_iff ranges).mpr ⟨member, covers⟩)
  exact ⟨e', found, alike.anon.trans anon⟩

theorem ReleaseStage.act_yields {stage : ReleaseStage} (own : stage.Own t va size m)
    (owned : Owned m (VmWork.hand (.release va size stage) + rest)) :
    (stage.act t va size).Yields (· = .pmmRefWrap) m fun stage' m' =>
      stage'.Own t va size m' ∧
        Stepped t rest (.release va size stage) m (.release va size stage') m' := by
  cases stage with
  | checking =>
    refine (checked owned).mono fun stage' m' after => ?_
    obtain ⟨shape, rfl | ⟨rfl, shielded⟩⟩ := after
    · exact ⟨trivial, shape.owned owned, shape.effect (.inl rfl), Bool.le_true _⟩
    · exact ⟨⟨shielded, le_rfl, shielded.first, fun _ _ _ low _ => low⟩, shape.owned owned,
        shape.effect (.inl rfl),
        Bool.le_true _⟩
  | unmapping v =>
    obtain ⟨shielded, low, aligned, emptied⟩ := own
    rw [act]
    split
    next more =>
      rw [Yields.read_bind]
      cases present : m.leaf t v with
      | none =>
        refine .pure ⟨⟨shielded, by omega, ?_, emptied.next owned aligned present⟩, owned, .refl,
          Bool.false_le _⟩
        rw [add_mod_right]
        exact aligned
      | some l =>
        exact .pure ⟨⟨⟨shielded, low, aligned, emptied⟩, more, l, present, rfl⟩, owned, .refl,
          Bool.false_le _⟩
    next past =>
    -- every page of the range is gone, so its entries may go
    have ranges := owned.ranges t
    have lookup := fun x => vmMapLookup_remove (x := x) ranges shielded.lower shielded.upper
    have entries : (m.setEntries t (vmMapRemove va (va + size) (m.entries t))).entries t =
        vmMapRemove va (va + size) (m.entries t) := by rw [entries_setEntries, if_pos rfl]
    refine .after rfl (.pure ⟨fun a low high => by rw [entries, lookup, if_pos ⟨low, high⟩],
      owned.setEntries (ranges.sublist (vmMapRemove_sublist ..)) fun a l present => ?_,
      ⟨fun x a _ => leaf_setEntries .., fun wants => ?_, fun a e found => ?_,
        fun a e outside found => ?_,
        fun a cut => ?_⟩, Bool.false_le _⟩)
    · have after := emptied a l present
      rw [lookup, if_neg (by omega)]
      exact AlikeAll.refl _ a
    · simp only [VmWork.wants, decide_eq_false_iff_not] at wants
      omega
    · rw [entries, lookup] at found
      split at found
      · cases found
      · exact ⟨e, found, .refl a e⟩
    · rw [entries, lookup, if_neg (show ¬ (va ≤ a ∧ a < va + size) from outside)]
      exact ⟨e, found, .refl a e⟩
    · rw [entries]
      exact fun e member => cut e ((vmMapRemove_sublist ..).subset member)
  | pulling v pa =>
    obtain ⟨⟨shielded, low, aligned, emptied⟩, high, l, present, rfl⟩ := own
    have owned : Owned m rest := by
      rw [← zero_add rest]
      exact owned
    have live := (owned.live_of_owned (shielded.owned v low high) present).2
    refine .after rfl (.pure ⟨⟨shielded.congr (entries_eraseLeaf ..), low, aligned, ?_⟩,
      owned.lift present live,
      .eraseLeaf ⟨low, high⟩, Bool.false_le _⟩)
    refine Emptied.next (fun a l' there => ?_) (owned.lift present live) aligned ?_
    · rw [leaf_eraseLeaf] at there
      split at there
      · cases there
      · exact emptied a l' there
    · rw [leaf_eraseLeaf, if_pos ⟨rfl, rfl⟩]
  | dropping v pa =>
    obtain ⟨shielded, low, aligned, emptied⟩ := own
    refine .after (owned.frees (mem_add.mpr (.inl (Multiset.mem_singleton_self pa))))
      (.pure ⟨⟨shielded.congr rfl, by omega, by rw [add_mod_right]; exact aligned, emptied⟩, ?_,
        .quiet (fun _ _ => rfl) rfl, Bool.false_le _⟩)
    change Owned _ (0 + rest)
    rw [zero_add]
    exact Owned.free owned
  | done ok => exact .pure ⟨own, owned, .refl, Bool.false_le _⟩

/-! ### A capture -/

theorem Sharable.congr (sharable : Sharable t m e pages) (entries : m'.entries t = m.entries t) :
    Sharable t m' e pages := by
  refine ⟨sharable.1, fun p member => ?_⟩
  rw [entries]
  exact sharable.2 p member

theorem Sharable.tail (sharable : Sharable t m e (page :: pages)) : Sharable t m e pages :=
  ⟨sharable.1, fun p member => sharable.2 p (mem_cons_of_mem _ member)⟩

theorem Sharable.ownedAt (sharable : Sharable t m e (page :: pages)) : OwnedAt m t page :=
  ⟨e, sharable.2 page mem_cons_self, sharable.1⟩

theorem sharable_of_captureFrom (ranges : Ranges (m.entries t))
    (found : captureFrom (m.entries t) addr (vmAlignUp size / vmPageSize) = some e) :
    Sharable t m e (vmPages addr (addr + size / vmPageSize * vmPageSize)) := by
  obtain ⟨aligned, covers⟩ := captureFrom_some ranges found
  have fits : size / vmPageSize ≤ vmAlignUp size / vmPageSize := by
    unfold vmAlignUp vmPageSize
    omega
  constructor
  · unfold captureFrom at found
    split at found
    · cases found
    · have both := (filter_eq_some_iff.mp found).2
      simp only [Bool.and_eq_true] at both
      exact both.1
  · intro p member
    obtain ⟨-, low, high⟩ := (mem_vmPages_iff aligned).mp member
    exact covers p low (Nat.lt_of_lt_of_le high
      (Nat.add_le_add_left (Nat.mul_le_mul_right _ fits) _))

theorem coe_reduceOption_concat (taken : List (Option Frame)) (f : Frame) :
    ((taken ++ [some f]).reduceOption : Multiset Frame) = f ::ₘ taken.reduceOption := by
  rw [reduceOption_append, ← coe_add, add_comm]
  exact singleton_add f _

theorem coe_reduceOption_none (taken : List (Option Frame)) :
    ((taken ++ [none]).reduceOption : Multiset Frame) = taken.reduceOption := by
  rw [reduceOption_append]
  simp

theorem reduceOption_map_some (frames : List Frame) : (frames.map some).reduceOption = frames := by
  induction frames with
  | nil => rfl
  | cons f frames ih => rw [List.map_cons, reduceOption_cons_of_some, ih]

theorem CaptureStage.act_yields {stage : CaptureStage} {maxPages : Nat} (own : stage.Own t m)
    (owned : Owned m (VmWork.hand (.capture addr size maxPages stage) + rest)) :
    (stage.act t addr size maxPages).Yields (· = .pmmRefWrap) m fun stage' m' =>
      stage'.Own t m' ∧ Stepped t rest (.capture addr size maxPages stage) m
        (.capture addr size maxPages stage') m' := by
  cases stage with
  | claiming =>
    rw [act]
    split
    · exact .pure ⟨trivial, owned, .refl, Bool.false_le _⟩
    rw [Yields.read_bind]
    cases found : captureFrom (m.entries t) addr (vmAlignUp size / vmPageSize) with
    | none =>
      refine .pure ⟨trivial, ?_, .refl, Bool.false_le _⟩
      change Owned _ ((([] : List Frame) : Multiset Frame) + _ + rest)
      rw [reduceOption_replicate_none]
      exact owned
    | some e =>
    -- an address inside a page is never shared from, and the lock is not taken
    have aligned := (captureFrom_some (owned.ranges t) found).1
    exact .pure ⟨sharable_of_captureFrom (owned.ranges t) found, owned, .refl, fun _ => by
      rw [VmWork.wants, decide_eq_true aligned, Bool.true_or]⟩
  | sharing e pages taken =>
    cases pages with
    | nil =>
      have ended : Owned m (VmWork.hand (.capture addr size maxPages (.copying []
          (taken ++ List.replicate (vmAlignUp size / vmPageSize - size / vmPageSize) none))) +
            rest) := by
        change Owned m ((([] : List Frame) : Multiset Frame) + _ + rest)
        rw [reduceOption_append, reduceOption_replicate_none, append_nil, coe_nil, zero_add]
        exact owned
      have ranges := owned.ranges t
      rw [act]
      split
      · have shape : Reshaped t m (m.setEntries t (vmMarkCow e.vmeStart (m.entries t))) :=
          Reshaped.setEntries (r := m.refuse) (ranges.markCow _) (.markCow ranges _) fun a cut =>
            cut.markCow _
        exact .after rfl (.pure ⟨trivial, shape.owned ended, shape.effect (.inr rfl),
          Bool.le_true _⟩)
      · exact .pure ⟨trivial, ended, .refl, Bool.le_true _⟩
    | cons page pages =>
    rw [act, Yields.read_bind]
    cases present : m.leaf t page with
    | none =>
      refine .pure ⟨own.tail, ?_, .refl, Bool.le_true _⟩
      change Owned _ (((taken ++ [none]).reduceOption : Multiset Frame) + rest)
      rw [coe_reduceOption_none]
      exact owned
    | some l => exact .pure ⟨⟨own, l, present, rfl⟩, owned, .refl, Bool.le_true _⟩
  | referencing e page pages taken pa =>
    obtain ⟨sharable, l, present, rfl⟩ := own
    obtain ⟨used, live⟩ := owned.live_of_owned sharable.ownedAt present
    have counted : pmmPageRef l.pa m = if m.pmm.refs l.pa = 0xFFFF then (.error .pmmRefWrap, m)
        else (.ok (), m.setPmm (m.pmm.ref l.pa)) := by
      unfold pmmPageRef
      rw [if_neg]
      rw [used]
      rintro (no | no)
      · cases no
      · exact live no
    split at counted
    · exact .stops counted rfl
    refine .after counted
      (.pure ⟨⟨sharable.congr rfl, l, present, rfl⟩, ?_, .quiet (fun _ _ => rfl) rfl,
      Bool.le_true _⟩)
    change Owned _ ((l.pa ::ₘ (taken.reduceOption : Multiset Frame)) + rest)
    rw [cons_add]
    exact owned.ref live
  | protecting e page pages taken pa =>
    obtain ⟨sharable, l, present, rfl⟩ := own
    have moved : Owned m (((taken ++ [some l.pa]).reduceOption : Multiset Frame) + rest) := by
      rw [coe_reduceOption_concat]
      exact owned
    rw [act]
    split
    · have live := (owned.live_of_owned sharable.ownedAt present).2
      have backed : Backed m t page ⟨l.pa, e.vmeProt.noWrite⟩ e :=
        .of_owned (sharable.2 page mem_cons_self) sharable.1 live nofun
      exact .after (pmapEnter_present present) (.pure ⟨sharable.tail.congr (entries_setLeaf ..),
        moved.protect present rfl backed, Effect.setLeaf (r := m.refuse) ⟨le_rfl, lt_succ_self _⟩,
        Bool.le_true _⟩)
    · exact .pure ⟨sharable.tail, moved, .refl, Bool.le_true _⟩
  | unsharing e pages taken pa =>
    refine .after (owned.frees
      (mem_add.mpr (.inl (Multiset.mem_cons_self pa (taken.reduceOption : Multiset Frame)))))
      (.pure ⟨own.congr rfl, ?_, .quiet (fun _ _ => rfl) rfl, Bool.le_true _⟩)
    change Owned _ (((taken ++ [none]).reduceOption : Multiset Frame) + rest)
    rw [coe_reduceOption_none]
    refine Owned.free ?_
    rw [← cons_add]
    exact owned
  | copying taken todo =>
    cases todo with
    | nil =>
      refine .pure ⟨trivial, ?_, .refl, Bool.false_le _⟩
      change Owned _ ((taken : Multiset Frame) + rest)
      rw [← add_zero (taken : Multiset Frame)]
      exact owned
    | cons first todo =>
    cases first with
    | some f =>
      refine .pure ⟨trivial, ?_, .refl, Bool.false_le _⟩
      change Owned _ (((taken ++ [f] : List Frame) : Multiset Frame) +
        (todo.reduceOption : Multiset Frame) + rest)
      rw [← coe_add, add_assoc (taken : Multiset Frame), coe_singleton, singleton_add]
      exact owned
    | none =>
    rcases pmmAllocPage_run m with refused | ⟨pa, free, given⟩
    · refine .after refused (.pure ⟨trivial, ?_, .refl, Bool.false_le _⟩)
      change Owned _ (((taken.map some ++ todo).reduceOption : Multiset Frame) + rest)
      rw [reduceOption_append, ← coe_add, reduceOption_map_some]
      exact owned
    refine .after given (.after rfl
      (.pure ⟨trivial, ?_, .quiet (fun _ _ => rfl) rfl, Bool.false_le _⟩))
    change Owned _ (((taken ++ [pa] : List Frame) : Multiset Frame) +
      (todo.reduceOption : Multiset Frame) + rest)
    rw [← coe_add, add_comm (taken : Multiset Frame), coe_singleton, add_assoc, add_assoc,
      singleton_add, ← add_assoc]
    exact Owned.take owned free _
  | undoing frames =>
    cases frames with
    | nil => exact .pure ⟨trivial, owned, .refl, Bool.false_le _⟩
    | cons first frames =>
    cases first with
    | none => exact .pure ⟨trivial, owned, .refl, Bool.false_le _⟩
    | some f =>
    refine .after (owned.frees
      (mem_add.mpr (.inl (Multiset.mem_cons_self f (frames.reduceOption : Multiset Frame)))))
      (.pure ⟨trivial, ?_, .quiet (fun _ _ => rfl) rfl, Bool.false_le _⟩)
    refine Owned.free ?_
    rw [← cons_add]
    exact owned
  | done frames => exact .pure ⟨trivial, owned, .refl, Bool.false_le _⟩

end Style9.Vm
