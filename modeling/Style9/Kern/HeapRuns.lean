import Style9.Kern.Blocks

/-!
# Runs of the kernel heap

Each call keeps the heap in step with a layout, and every sequence of calls does. A call that is
given a size or a live block returns; freeing what has been freed and not handed out since is caught
by the magic number, which neither a link nor a cleared header can show.

The one exception is a size within sixteen bytes of the end of the 64-bit range: with the header
added it wraps to a small one, and the block handed out has no payload at all.
-/
namespace Style9.Kern

open Style9.Lib Style9.Vm List Act Nat Function

variable {L : Layout} {h : Heap} {m : Ram} {b c n size p : Nat} {a : Allocator} {k : Block}

def Layout.Freed (L : Layout) (c : Nat) : Prop := c ∈ L.gone ∨ ∃ b < kmemNbuckets, c ∈ L.free b

theorem Layout.Freed.setFree {l : List Nat} (freed : L.Freed c) (more : c ∈ L.free b → c ∈ l) :
    (L.setFree b l).Freed c := by
  rcases freed with gone | ⟨b', bucket', member⟩
  · exact .inl gone
  refine .inr ⟨b', bucket', ?_⟩
  rw [Layout.setFree_free]
  split
  next same => exact more (same ▸ member)
  · exact member

/-! ### Taking -/

theorem onFrames_eq {α : Type} {x : Act Allocator PmmPanic α} {v : α} (run : x h.pmm = (.ok v, a)) :
    onFrames x h = (.ok v, { h with pmm := a }) := by
  unfold onFrames
  rw [run]

theorem paFromIndex_ne (positive : 0 < p) : paFromIndex p ≠ paInvalid := by
  unfold paFromIndex paInvalid vmPageSize
  omega

theorem Heap.Ok.bare (ok : h.Ok L) (free : h.pmm.FreeRun p n)
    (inside : p ≤ c / vmPageSize ∧ c / vmPageSize < p + n) :
    L.Alone c := by
  refine ⟨fun k live same => ?_, fun b bucket member => ?_⟩
  · obtain ⟨sits, -⟩ := ok.live k live
    rw [same] at sits
    cases kind : k.kind with
    | bucket b =>
      rw [kind] at sits
      exact ok.unused free sits.2.2 inside
    | pages n =>
      rw [kind] at sits
      exact ok.unused free (sits.2.2 0 sits.1) inside
  · exact ok.unused free (ok.free b bucket c member).2.2 inside

theorem refillBucket_ok (ok : h.Ok L) (bucket : b < kmemNbuckets) :
    ∃ h' L', refillBucket b h = (.ok (), h') ∧ h'.Ok L' ∧ L'.live = L.live ∧ ∀ c, L.Freed c →
      L'.Freed c := by
  unfold refillBucket
  rcases Allocator.pmmAllocPage_spec ok.counted with ⟨-, run⟩ | ⟨p, a, free, run, taken, counted⟩
  · rw [bind_of_ok (onFrames_eq run)]
    exact ⟨h, L, rfl, ok, rfl, fun _ freed => freed⟩
  have positive : 0 < p := ok.counted.positive (free.2 0 one_pos)
  rw [bind_of_ok (onFrames_eq run), if_neg (paFromIndex_ne positive)]
  have adopted := ok.adopt (.bucket b) free taken counted
  have whole : vmPageSize / kbSize b * kbSize b ≤ vmPageSize := div_mul_le_self _ _
  have allotted : 0 < vmPageSize / kbSize b := by
    rcases kbSize_cases bucket with e | e | e | e | e | e | e | e <;> rw [e] <;> decide
  have bare : ∀ c, c / vmPageSize = p → (L.adopt p 1 (.bucket b)).Alone c := fun c page =>
    ok.bare free ⟨by omega, by omega⟩
  have sliced :=
    adopted.slice bucket (p := p) (by rw [Layout.adopt_use, if_pos ⟨le_refl p, by omega⟩]) bare
      _ whole
  refine ⟨_, _, rfl, sliced, rfl, ?_⟩
  rintro c (gone | listed)
  · by_cases page : p ≤ c / vmPageSize ∧ c / vmPageSize < p + 1
    · -- the page of a run that is gone: its base is the first chunk
      refine .inr ⟨b, bucket, ?_⟩
      rw [Layout.setFree_free, if_pos rfl]
      refine mem_append_left _ (mem_cutChunks.mpr ⟨0, allotted, ?_⟩)
      have aligned := (ok.gone c gone).1
      unfold paFromIndex vmPageSize at *
      omega
    · exact .inl (mem_filter.mpr ⟨gone, decide_eq_true page⟩)
  · exact Layout.Freed.setFree (.inr listed) (mem_append_right _)

theorem fillBucket_ok (ok : h.Ok L) (bucket : b < kmemNbuckets) :
    ∃ h' L', fillBucket b h = (.ok (), h') ∧ h'.Ok L' ∧ L'.live = L.live ∧ ∀ c, L.Freed c →
      L'.Freed c := by
  unfold fillBucket
  rw [read_bind]
  split
  · exact refillBucket_ok ok bucket
  · exact ⟨h, L, rfl, ok, rfl, fun _ freed => freed⟩

def kindFor (size : Nat) : Kind :=
  match bucketFor ((size + kmemHdrSize) % 2 ^ 64) with
  | some b => .bucket b
  | none => .pages (((size + kmemHdrSize) % 2 ^ 64 + (vmPageSize - 1)) % 2 ^ 64 / vmPageSize)

theorem bucketFor_some (found : bucketFor n = some b) : b < kmemNbuckets ∧ n ≤ kbSize b := by
  exact ⟨mem_range.mp (mem_of_find?_eq_some found), of_decide_eq_true (List.find?_some found :)⟩

/-- Null, or a new block of the size; what was freed stays freed unless the new block stands on it.
-/
def Handed (L : Layout) (size r : Nat) (L' : Layout) : Prop :=
  r = 0 ∧ L'.live = L.live ∧ (∀ c, L.Freed c → L'.Freed c) ∨
    ∃ base, r = base + kmemHdrSize ∧ L'.live = ⟨base, size, kindFor size⟩ :: L.live ∧
      ∀ c, L.Freed c → base ≤ c ∧ c < base + (kindFor size).span ∨ L'.Freed c

theorem Heap.Ok.hand {rest : List Nat} (ok : h.Ok L) (bucket : b < kmemNbuckets)
    (list : L.free b = c :: rest)
    (fits : kmemHdrSize + size ≤ kbSize b) :
    ((h.pop b c).bear (.bucket b) (dress h.ram b c size)).Ok
      { L.setFree b rest with live := ⟨c, size, .bucket b⟩ :: L.live } := by
  have member := list ▸ mem_cons_self
  have sits := ok.free b bucket c member
  have low := (ok.range sits).2
  have once := ok.freeOnce b bucket
  rw [list] at once
  have alone : (L.setFree b rest).Alone c := by
    refine ⟨fun k live same => ok.apart k live b bucket (same ▸ member), fun b' bucket' again => ?_⟩
    rw [Layout.setFree_free] at again
    split at again
    · exact (nodup_cons.mp once).1 again
    next other =>
    -- a chunk has one bucket, that of its page
    have use := (ok.free b' bucket' c again).2.2
    rw [sits.2.2] at use
    cases use
    exact other rfl
  exact (ok.pop bucket list).bear (k := ⟨c, size, .bucket b⟩) sits fits alone
    (dress_within fits low) (dress_marked fits low bucket)

theorem kmallocLarge_ok (ok : h.Ok L) (room : size + kmemHdrSize < 2 ^ 64)
    (large : bucketFor ((size + kmemHdrSize) % 2 ^ 64) = none) :
    ∃ r h' L', kmallocLarge size h = (.ok r, h') ∧ h'.Ok L' ∧ Handed L size r L' := by
  have kind : kindFor size =
      .pages (((size + kmemHdrSize) % 2 ^ 64 + (vmPageSize - 1)) % 2 ^ 64 / vmPageSize) := by
    unfold kindFor
    rw [large]
  have null : ∃ r h' L', (pure 0 : HeapRun Nat) h = (.ok r, h') ∧ h'.Ok L' ∧ Handed L size r L' :=
    ⟨0, h, L, rfl, ok, .inl ⟨rfl, rfl, fun _ freed => freed⟩⟩
  unfold kmallocLarge
  split
  · exact null
  next few =>
  generalize pages : ((size + kmemHdrSize) % 2 ^ 64 + (vmPageSize - 1)) % 2 ^ 64 / vmPageSize =
    npages at few kind ⊢
  have capped := ok.counted.capped
  rcases Allocator.pmmAllocPages_spec (n := npages) ok.counted (by omega) with run |
    ⟨p, a, positive, free, run, taken, counted⟩
  · rw [bind_of_ok (onFrames_eq run)]
    exact null
  have low : 0 < p := ok.counted.positive (free.2 0 positive)
  rw [bind_of_ok (onFrames_eq run), if_neg (paFromIndex_ne low)]
  have page : paFromIndex p / vmPageSize = p := Nat.mul_div_cancel p (by decide)
  have adopted := ok.adopt (.run (paFromIndex p)) free taken counted
  have fits : kmemHdrSize + size ≤ npages * vmPageSize := by
    -- the rounding up does not wrap either, or there would be no page
    unfold kmemHdrSize vmPageSize at *
    omega
  have sits : (L.adopt p npages (.run (paFromIndex p))).Sits (paFromIndex p) (.pages npages) := by
    refine ⟨positive, mul_mod_left p vmPageSize, fun i below => ?_⟩
    rw [page, Layout.adopt_use, if_pos ⟨le_add_right p i, by omega⟩]
  have alone :=
    ok.bare free (by rw [page]; exact ⟨le_refl p, by omega⟩)
  have marked : Block.Marked (writeHdr h.ram (paFromIndex p) kmemBucketLarge npages) ⟨paFromIndex p,
      size, .pages npages⟩ :=
    ⟨khMagic_writeHdr _ _, khBucket_writeHdr _ le_rfl, khNpages_writeHdr _ (by omega)⟩
  have born := adopted.bear (k := ⟨paFromIndex p, size, .pages npages⟩) sits fits alone
    ((writeHdr_within kmemBucketLarge npages).mono le_rfl (by
      unfold kmemHdrSize at fits
      simp only [Kind.span_pages]
      omega)) marked
  refine ⟨paFromIndex p + kmemHdrSize, _, _, rfl, { born with },
    .inr ⟨paFromIndex p, rfl, by rw [kind]; rfl, ?_⟩⟩
  rw [kind]
  rintro c (gone | freed)
  · by_cases inside : p ≤ c / vmPageSize ∧ c / vmPageSize < p + npages
    · left
      simp only [Kind.span_pages]
      unfold paFromIndex vmPageSize at *
      omega
    · exact .inr (.inl (mem_filter.mpr ⟨gone, decide_eq_true inside⟩))
  · exact .inr (.inr freed)

theorem chunks_bucket (b b' : Nat) :
    b' = b ∧ (Kind.bucket b).chunks b' = 1 ∨ b' ≠ b ∧ (Kind.bucket b).chunks b' = 0 := by
  unfold Kind.chunks
  grind

theorem Heap.bear_pop (allotted : 0 < (h.kmemBuckets b).kbAlloc) : (h.pop b c).bear (.bucket b) m =
    { h.setBucket b { h.kmemBuckets b with
        kbFree := kcNext h.ram c
        kbFreecnt := (h.kmemBuckets b).kbFreecnt - 1
        kbInuse := (h.kmemBuckets b).kbInuse + 1 } with ram := m } := by
  unfold Heap.pop Heap.bear Heap.setBucket
  refine Heap.ext rfl rfl (funext fun b' => ?_) rfl rfl
  rcases chunks_bucket b b' with ⟨rfl, one⟩ | ⟨here, none⟩
  · simp only [update_self, one, Nat.sub_add_cancel allotted]
  · simp only [update_of_ne here, none, Nat.add_zero]

theorem kmallocBucket_ok (ok : h.Ok L) (bucket : b < kmemNbuckets)
    (fits : kmemHdrSize + size ≤ kbSize b)
    (kind : kindFor size = .bucket b) :
    ∃ r h' L', kmallocBucket b size h = (.ok r, h') ∧ h'.Ok L' ∧ Handed L size r L' := by
  obtain ⟨h₁, L₁, filled, ok₁, live, freed⟩ := fillBucket_ok ok bucket
  unfold kmallocBucket
  rw [bind_of_ok filled, read_bind]
  have linked := ok₁.linked b bucket
  cases list : L₁.free b with
  | nil =>
    rw [list] at linked
    rw [if_pos (show (h₁.kmemBuckets b).kbFree = 0 from linked)]
    exact ⟨0, h₁, L₁, rfl, ok₁, .inl ⟨rfl, live, freed⟩⟩
  | cons c rest =>
  rw [list] at linked
  have member := list ▸ mem_cons_self
  have range := ok₁.range (ok₁.free b bucket c member)
  have poison :=
    Ram.filled_iff.mpr (ok₁.poisoned b bucket c member)
  have allotted : 0 < (h₁.kmemBuckets b).kbAlloc := by
    have total := ok₁.alloc b bucket
    have count := ok₁.freecnt b bucket
    rw [list, length_cons] at count
    omega
  rw [linked.1, if_neg (by unfold vmPageSize at range; omega), modify_bind]
  refine ⟨c + kmemHdrSize, _, _, ?_, ok₁.hand bucket list fits, .inr ⟨c, rfl, ?_, ?_⟩⟩
  · rw [Heap.bear_pop allotted]
    simp only [bind_ok_iff, verifyPoison, guard_ok_iff]
    exact ⟨(), _, ⟨poison, rfl⟩, (), _, rfl, rfl⟩
  · rw [kind, ← live]
  intro c' old
  rw [kind]
  by_cases here : c' = c
  · subst here
    have sixteen := sixteen_le_kbSize b
    exact .inl ⟨le_rfl, by simp only [Kind.span_bucket]; omega⟩
  · exact .inr ((freed c' old).setFree fun member' =>
      (mem_cons.mp (list ▸ member')).resolve_left here)

theorem kmalloc_ok (ok : h.Ok L) (room : size + kmemHdrSize < 2 ^ 64) :
    ∃ r h' L', kmalloc size h = (.ok r, h') ∧ h'.Ok L' ∧ Handed L size r L' := by
  unfold kmalloc
  split
  · exact ⟨0, h, L, rfl, ok, .inl ⟨rfl, rfl, fun _ freed => freed⟩⟩
  next =>
  cases found : bucketFor ((size + kmemHdrSize) % 2 ^ 64) with
  | none => exact kmallocLarge_ok ok room found
  | some b =>
    obtain ⟨bucket, fits⟩ := bucketFor_some found
    rw [mod_eq_of_lt room, add_comm] at fits
    exact kmallocBucket_ok ok bucket fits (by unfold kindFor; rw [found])

theorem Heap.Ok.payload (ok : h.Ok L) (live : k ∈ L.live)
    (within : Within h.ram m (k.base + kmemHdrSize) (k.base + kmemHdrSize + k.size)) :
    Heap.Ok { h with ram := m } L := by
  obtain ⟨sits, fits⟩ := ok.live k live
  have whole : Within h.ram m k.base (k.base + k.kind.span) := within.mono (by omega) (by omega)
  refine ok.within sits whole (fun b bucket c member => (ok.live_apart live bucket member).symm)
    fun k' live' => ?_
  by_cases same : k'.base = k.base
  · obtain rfl : k' = k := inj_on_of_nodup_map ok.liveOnce live' live same
    apply (ok.marked k' live').congr
    · intro x low high
      exact within x (.inl high)
    · intro x low high
      exact within x (.inr low)
  · exact (ok.marked k' live').outside whole (ok.live k' live').2
      ((ok.live k' live').1.apart sits same)

theorem kcalloc_ok (ok : h.Ok L) (n size : Nat)
    (room : n * size < 2 ^ 64 → n * size + kmemHdrSize < 2 ^ 64) :
    ∃ r h' L', kcalloc n size h = (.ok r, h') ∧ h'.Ok L' ∧ Handed L (n * size) r L' := by
  have null : ∃ r h' L', (pure 0 : HeapRun Nat) h = (.ok r, h') ∧ h'.Ok L' ∧
      Handed L (n * size) r L' :=
    ⟨0, h, L, rfl, ok, .inl ⟨rfl, rfl, fun _ freed => freed⟩⟩
  unfold kcalloc
  split
  · exact null
  next passed =>
  have total : n * size < 2 ^ 64 := by
    rcases Nat.eq_zero_or_pos n with rfl | positive
    · simp
    · have bound : ¬ (2 ^ 64 - 1) / n < size := fun above => passed ⟨by omega, above⟩
      rw [div_lt_iff_lt_mul positive, mul_comm] at bound
      omega
  obtain ⟨r, h₁, L₁, run, ok₁, handed⟩ := kmalloc_ok ok (room total)
  rw [bind_of_ok run]
  rcases handed with ⟨rfl, live, freed⟩ | ⟨base, rfl, live, freed⟩
  · rw [if_pos rfl]
    exact ⟨0, h₁, L₁, rfl, ok₁, .inl ⟨rfl, live, freed⟩⟩
  · rw [if_neg (by unfold kmemHdrSize; omega)]
    have zeroed :=
      ok₁.payload (k := ⟨base, n * size, kindFor (n * size)⟩) (live ▸ mem_cons_self) (within_fill 0)
    exact ⟨_, _, _, rfl, zeroed, .inr ⟨base, rfl, live, freed⟩⟩

/-! ### Giving back -/

theorem undress_within (next : Nat) : Within m (undress m b c next) c (c + kbSize b) := by
  have sixteen := sixteen_le_kbSize b
  apply Within.trans (u := (m.fill (c + 8) (c + kbSize b) kmemPoisonPattern).store (c + 4)
    (leBytes 4 0))
  · apply Within.trans (u := m.fill (c + 8) (c + kbSize b) kmemPoisonPattern)
    · exact (within_fill _).mono (by omega) le_rfl
    · exact (within_store 4 0).mono (by omega) (by omega)
  · exact (within_store 8 next).mono le_rfl (by omega)

theorem hdr_eq (range : c + kmemHdrSize < 2 ^ 64) :
    (c + kmemHdrSize + (2 ^ 64 - kmemHdrSize)) % 2 ^ 64 = c := by
  omega

theorem Heap.push_drop (allotted : 0 < (h.kmemBuckets b).kbAlloc) :
    (h.drop (.bucket b)).push b c m =
    { h.setBucket b { h.kmemBuckets b with
        kbFree := c
        kbFreecnt := (h.kmemBuckets b).kbFreecnt + 1
        kbInuse := (h.kmemBuckets b).kbInuse - 1 } with ram := m } := by
  unfold Heap.push Heap.drop Heap.setBucket
  refine Heap.ext rfl rfl (funext fun b' => ?_) rfl rfl
  rcases chunks_bucket b b' with ⟨rfl, one⟩ | ⟨here, none⟩
  · simp only [update_self, one, Nat.sub_add_cancel allotted]
  · simp only [update_of_ne here, none, Nat.sub_zero]

theorem kfree_chunk (ok : h.Ok L) (live : ⟨c, size, .bucket b⟩ ∈ L.live) :
    ∃ h' L', kfree (c + kmemHdrSize) h = (.ok (), h') ∧ h'.Ok L' ∧
      L'.live = L.live.erase ⟨c, size, .bucket b⟩ ∧
      (∀ c, L.Freed c → L'.Freed c) ∧ L'.Freed c := by
  obtain ⟨sits, fits⟩ := ok.live _ live
  have bucket := sits.1
  obtain ⟨low, high⟩ := ok.range sits
  obtain ⟨magic, bucketIs, sizeIs, zone⟩ := ok.marked _ live
  obtain ⟨dropped, alone⟩ := ok.drop live
  simp only [Kind.span_bucket] at fits high magic bucketIs sizeIs
  have poison : Poisoned
      ((h.ram.fill (c + 8) (c + kbSize b) kmemPoisonPattern).store (c + 4) (leBytes 4 0)) b c := by
    intro x after before
    rw [within_store 4 0 x (by omega)]
    exact fill_poisoned x after before
  obtain ⟨link, poisoned⟩ := poisoned_link poison (ok.kbFree_small bucket)
  have pushed := dropped.push (m := undress h.ram b c (h.kmemBuckets b).kbFree) sits alone
    (undress_within _) link poisoned
  have allotted : 0 < (h.kmemBuckets b).kbAlloc := by
    have inuse := ok.inuse b bucket
    have total := ok.alloc b bucket
    have positive : 0 < L.live.countP fun k => k.kind = .bucket b :=
      countP_pos_iff.mpr ⟨_, live, by simp⟩
    omega
  refine ⟨_, _, ?_, pushed, rfl, ?_, .inr ⟨b, bucket, ?_⟩⟩
  · unfold kfree
    have large : b ≠ kmemBucketLarge := by
      unfold kmemBucketLarge kmemNbuckets at *
      omega
    rw [if_neg (by unfold kmemHdrSize; omega)]
    simp only [hdr_eq (c := c) (by unfold kmemHdrSize at *; omega), bind_ok_iff, guard_ok_iff,
      read_ok_iff, beq_iff_eq]
    refine ⟨(), h, ⟨magic, rfl⟩, b, h, ⟨bucketIs.symm, rfl⟩, ?_⟩
    rw [if_neg large]
    simp only [verifyRedzone, bind_ok_iff, guard_ok_iff, modify_ok_iff, decide_eq_true_eq]
    refine ⟨(), h, ⟨bucket, rfl⟩, (), h, ⟨?_, rfl⟩, ?_⟩
    · rw [sizeIs, slack_eq fits high]
      exact Ram.filled_iff.mpr zone
    · rw [Heap.push_drop allotted]
  · exact fun c' freed => freed.setFree (mem_cons_of_mem _)
  · rw [Layout.setFree_free, if_pos rfl]
    exact mem_cons_self

theorem Heap.Ok.retire (ok : h.Ok L) (sits : L.Sits c (.pages n)) (alone : L.Alone c)
    (returned : Allocator.Returned h.pmm (c / vmPageSize) n a) (counted : a.Counted)
    (magic : khMagic h.ram c ≠ kmemHdrMagic ∧ c < 2 ^ 30) : Heap.Ok { h with pmm := a } { L with
      use := fun f => if c / vmPageSize ≤ f ∧ f < c / vmPageSize + n then none else L.use f
      gone := c :: L.gone } := by
  obtain ⟨positive, aligned, use⟩ := sits
  -- another block's pages have another use
  have kept : ∀ c' k, L.Sits c' k → c' ≠ c → Layout.Sits { L with
      use := fun f => if c / vmPageSize ≤ f ∧ f < c / vmPageSize + n then none else L.use f
      gone := c :: L.gone } c' k := by
    intro c' k sits' other
    apply sits'.congr
    intro f here
    change (if c / vmPageSize ≤ f ∧ f < c / vmPageSize + n then none else L.use f) = _
    rw [if_neg, here]
    rintro ⟨low, high⟩
    have mine := use (f - c / vmPageSize) (by omega)
    rw [Nat.add_sub_cancel' low, here] at mine
    cases k with
    | bucket b => cases mine
    | pages n' =>
      cases mine
      exact other rfl
  refine { ok with
    counted := counted
    live := fun k live => ⟨kept _ _ (ok.live k live).1 (alone.1 k live), (ok.live k live).2⟩
    pages := ?pages, free := ?free, gone := ?gone }
  case pages =>
    intro f use' here
    change (if c / vmPageSize ≤ f ∧ f < c / vmPageSize + n then none else L.use f) = _ at here
    split at here
    · cases here
    next outside =>
      rw [returned.managed, returned.used, returned.refs, if_neg outside, if_neg outside]
      exact ok.pages f use' here
  case free =>
    intro b bucket c' member
    exact kept _ _ (ok.free b bucket c' member) fun same => alone.2 b bucket (same ▸ member)
  case gone =>
    intro c' member
    rw [returned.used]
    rcases mem_cons.mp member with rfl | old
    · rw [if_pos ⟨le_rfl, by omega⟩]
      exact ⟨aligned, rfl, magic⟩
    · obtain ⟨aligned', unused, magic'⟩ := ok.gone c' old
      refine ⟨aligned', ?_, magic'⟩
      rw [unused, ite_self]

theorem kfree_run (ok : h.Ok L) (live : ⟨c, size, .pages n⟩ ∈ L.live) :
    ∃ h' L', kfree (c + kmemHdrSize) h = (.ok (), h') ∧ h'.Ok L' ∧
      L'.live = L.live.erase ⟨c, size, .pages n⟩ ∧
      (∀ c, L.Freed c → L'.Freed c) ∧ L'.Freed c := by
  obtain ⟨sits, fits⟩ := ok.live _ live
  obtain ⟨low, high⟩ := ok.range sits
  obtain ⟨magic, large, pages⟩ := ok.marked _ live
  obtain ⟨dropped, alone⟩ := ok.drop live
  simp only [Kind.span_pages] at fits high magic large pages dropped
  have cleared :=
    dropped.rewrite (c := c) (k := .pages n) sits alone (m := h.ram.store (c + 4) (leBytes 4 0))
    ((within_store 4 0).mono (by omega)
      (by simp only [Kind.span_pages]; unfold kmemHdrSize at fits; omega))
  obtain ⟨-, aligned, use⟩ := id sits
  obtain ⟨a, given, returned, counted⟩ :=
    Allocator.pmmFreePages_returned (n := n) (p := c / vmPageSize) ok.counted
    (fun f after before => by
      have here := use (f - c / vmPageSize) (by omega)
      rw [Nat.add_sub_cancel' after] at here
      exact ok.pages f _ here)
  rw [Nat.div_mul_cancel (Nat.dvd_of_mod_eq_zero aligned)] at given
  have retired := cleared.retire (c := c) sits alone (a := a) returned counted (by
    have zero : khMagic (h.ram.store (c + 4) (leBytes 4 0)) c = 0 := Ram.load_store
    rw [zero]
    exact ⟨by decide, by unfold kmemHdrSize at fits; omega⟩)
  refine ⟨{ h with
      pmm := a
      ram := h.ram.store (c + 4) (leBytes 4 0)
      kmemLargeChunks := h.kmemLargeChunks - 1
      kmemLargePages := h.kmemLargePages - n }, _, ?_, { retired with }, rfl, ?_,
        .inl mem_cons_self⟩
  · unfold kfree
    rw [if_neg (by unfold kmemHdrSize; omega)]
    simp only [hdr_eq (c := c) (by unfold kmemHdrSize at *; omega), bind_ok_iff, guard_ok_iff,
      read_ok_iff, beq_iff_eq]
    refine ⟨(), h, ⟨magic, rfl⟩, kmemBucketLarge, h, ⟨large.symm, rfl⟩, ?_⟩
    rw [if_pos rfl]
    simp only [kfreeLarge, bind_ok_iff, guard_ok_iff, read_ok_iff, beq_iff_eq]
    exact ⟨n, h, ⟨pages.symm, rfl⟩, (), h, ⟨aligned, rfl⟩, (), _, rfl, onFrames_eq given⟩
  · rintro c' (gone | freed)
    · exact .inl (mem_cons_of_mem _ gone)
    · exact .inr freed

theorem kfree_ok (ok : h.Ok L) (live : k ∈ L.live) :
    ∃ h' L', kfree (k.base + kmemHdrSize) h = (.ok (), h') ∧ h'.Ok L' ∧ L'.live = L.live.erase k ∧
      (∀ c, L.Freed c → L'.Freed c) ∧ L'.Freed k.base := by
  obtain ⟨c, size, kind⟩ := k
  cases kind with
  | bucket b => exact kfree_chunk ok live
  | pages n => exact kfree_run ok live

theorem Heap.Ok.free_magic (ok : h.Ok L) (bucket : b < kmemNbuckets) (member : c ∈ L.free b) :
    khMagic h.ram c ≠ kmemHdrMagic := by
  have next : kcNext h.ram c < 2 ^ 30 := by
    have linked := ok.linked b bucket
    have chunks := fun c' (member : c' ∈ L.free b) => ok.range (ok.free b bucket c' member)
    generalize L.free b = l at linked chunks member
    generalize (h.kmemBuckets b).kbFree = p at linked
    induction l generalizing p with
    | nil => cases member
    | cons c' rest ih =>
    rcases mem_cons.mp member with rfl | later
    · cases rest with
      | nil =>
        rw [show kcNext h.ram c = 0 from linked.2]
        decide
      | cons d rest =>
        rw [linked.2.1]
        have range := chunks d (by simp)
        have sixteen := sixteen_le_kbSize b
        simp only [Kind.span_bucket] at range
        omega
    · exact ih (fun d member => chunks d (mem_cons_of_mem _ member)) later _ linked.2
  have halves : kcNext h.ram c = h.ram.load c 4 + 256 ^ 4 * khMagic h.ram c := Ram.load_add 4 4
  intro magic
  rw [magic] at halves
  unfold kmemHdrMagic at halves
  omega

theorem kfree_freed (ok : h.Ok L) (freed : L.Freed c) :
    kfree (c + kmemHdrSize) h = (.error .badMagic, h) := by
  have bad : khMagic h.ram c ≠ kmemHdrMagic ∧ c + kmemHdrSize < 2 ^ 64 := by
    rcases freed with gone | ⟨b, bucket, member⟩
    · obtain ⟨-, -, magic, low⟩ := ok.gone c gone
      refine ⟨magic, ?_⟩
      unfold kmemHdrSize
      omega
    have range := ok.range (ok.free b bucket c member)
    refine ⟨ok.free_magic bucket member, ?_⟩
    have sixteen := sixteen_le_kbSize b
    unfold kmemHdrSize
    omega
  have refused : (Act.guard (fun h => khMagic h.ram c == kmemHdrMagic) .badMagic : HeapRun Unit) h =
      (.error .badMagic, h) := by
    unfold Act.guard
    rw [if_neg (by simpa using bad.1)]
  unfold kfree
  rw [if_neg (by unfold kmemHdrSize; omega)]
  simp only [hdr_eq bad.2]
  exact bind_of_error refused

/-! ### Whole runs -/

/-- The heap, the blocks handed out and not freed, and what was freed and not handed out since. -/
structure Trace where
  heap : Heap
  live : List Block
  freed : List Nat

inductive HeapCall where
  | kmalloc (size : Nat)
  | kcalloc (n size : Nat)
  | kfree (k : Block)
  /-- The holder of a block writes a byte of its payload. -/
  | write (k : Block) (i : Nat) (v : UInt8)

/-- The header fits behind every size that is asked for. -/
def HeapCall.Roomy : HeapCall → Prop
  | .kmalloc size => size + kmemHdrSize < 2 ^ 64
  | .kcalloc n size => n * size < 2 ^ 64 → n * size + kmemHdrSize < 2 ^ 64
  | _ => True

instance (e : HeapCall) : Decidable e.Roomy :=
  match e with
  | .kmalloc size => inferInstanceAs (Decidable (size + kmemHdrSize < 2 ^ 64))
  | .kcalloc n size =>
    inferInstanceAs (Decidable (n * size < 2 ^ 64 → n * size + kmemHdrSize < 2 ^ 64))
  | .kfree _ => .isTrue trivial
  | .write _ _ _ => .isTrue trivial

namespace Trace

variable (t : Trace)

/-- What a call that allocates leaves. -/
def handOut (size : Nat) : Except HeapPanic Nat × Heap → Option Trace
  | (.error _, _) => none
  | (.ok r, h) =>
    if r = 0 then some { t with heap := h }
    else
      let k : Block := ⟨r - kmemHdrSize, size, kindFor size⟩
      some ⟨h, k :: t.live, t.freed.filter fun c => ¬ (k.base ≤ c ∧ c < k.base + k.kind.span)⟩

/-- One call with arguments of 64 bits; a panic has no next state. -/
def next : HeapCall → Option Trace
  | .kmalloc size => if size < 2 ^ 64 then t.handOut size (Kern.kmalloc size t.heap) else none
  | .kcalloc n size =>
    if n < 2 ^ 64 ∧ size < 2 ^ 64 then t.handOut (n * size) (Kern.kcalloc n size t.heap) else none
  | .kfree k =>
    if k ∈ t.live then
      match Kern.kfree (k.base + kmemHdrSize) t.heap with
      | (.ok _, h) => some ⟨h, t.live.erase k, k.base :: t.freed⟩
      | (.error _, _) => none
    else none
  | .write k i v =>
    if k ∈ t.live ∧ i < k.size then
      some { t with heap := { t.heap with
        ram := t.heap.ram.fill (k.base + kmemHdrSize + i) (k.base + kmemHdrSize + i + 1) v } }
    else none

def start (pmm : Allocator) (ram : Ram) : Trace := ⟨kmemInit pmm ram, [], []⟩

def Explained : Prop := ∃ L, t.heap.Ok L ∧ L.live = t.live ∧ ∀ c ∈ t.freed, L.Freed c

theorem start_explained {pmm : Allocator} (counted : pmm.Counted) (ram : Ram) :
    (start pmm ram).Explained := by
  refine ⟨⟨[], fun _ => [], fun _ => none, []⟩, ?_, rfl, nofun⟩
  constructor
  case counted => exact counted
  case pages => exact fun f use here => by cases here
  case live => exact nofun
  case free => exact fun b bucket => nofun
  case liveOnce => exact nodup_nil
  case freeOnce => exact fun b bucket => nodup_nil
  case apart => exact nofun
  case marked => exact nofun
  case linked => exact fun b bucket => rfl
  case poisoned => exact fun b bucket => nofun
  case freecnt => exact fun b bucket => rfl
  case inuse => exact fun b bucket => rfl
  case alloc => exact fun b bucket => rfl
  case gone => exact nofun

theorem handOut_explained {t t' : Trace} {r : Nat} {h : Heap} {L L' : Layout}
    (live : L.live = t.live)
    (freed : ∀ c ∈ t.freed, L.Freed c) (ok : h.Ok L') (handed : Handed L size r L')
    (step : t.handOut size (.ok r, h) = some t') : t'.Explained := by
  unfold handOut at step
  dsimp only at step
  rcases handed with ⟨rfl, same, kept⟩ | ⟨base, rfl, more, kept⟩
  · rw [if_pos rfl] at step
    cases step
    exact ⟨L', ok, same.trans live, fun c member => kept c (freed c member)⟩
  cases step
  refine ⟨L', ok, ?_, fun c member => ?_⟩
  · rw [more, live, Nat.add_sub_cancel]
  · obtain ⟨member, outside⟩ := mem_filter.mp member
    exact (kept c (freed c member)).resolve_left (of_decide_eq_true outside)

theorem next_explained {t t' : Trace} {e : HeapCall} (explained : t.Explained)
    (step : t.next e = some t') (roomy : e.Roomy) :
    t'.Explained := by
  obtain ⟨L, ok, live, freed⟩ := explained
  cases e with
  | kmalloc size =>
    obtain ⟨r, h, L', run, ok', handed⟩ := kmalloc_ok ok roomy
    rw [next, run] at step
    split at step
    · exact handOut_explained live freed ok' handed step
    · cases step
  | kcalloc n size =>
    obtain ⟨r, h, L', run, ok', handed⟩ := kcalloc_ok ok n size roomy
    rw [next, run] at step
    split at step
    · exact handOut_explained live freed ok' handed step
    · cases step
  | kfree k =>
    rw [next] at step
    split at step
    next member =>
      rw [← live] at member
      obtain ⟨h, L', run, ok', left, kept, gone⟩ := kfree_ok ok member
      rw [run] at step
      cases step
      refine ⟨L', ok', by rw [left, live], fun c member => ?_⟩
      rcases mem_cons.mp member with rfl | old
      · exact gone
      · exact kept c (freed c old)
    · cases step
  | write k i v =>
  rw [next] at step
  split at step
  next inside =>
    cases step
    exact ⟨L, ok.payload (live ▸ inside.1) ((within_fill v).mono (by omega) (by omega)), live,
      freed⟩
  · cases step

/-- What is promised of a heap. -/
structure Sound (t : Trace) : Prop where
  /-- The payload fits between the header and the end. -/
  usable : ∀ k ∈ t.live, kmemHdrSize + k.size ≤ k.kind.span
  disjoint : t.live.Pairwise fun k k' => k.base + k.kind.span ≤ k'.base ∨
    k'.base + k'.kind.span ≤ k.base
  /-- Each list is of distinct chunks of its bucket, as many as counted, and no chunk meets a live
  block or another free chunk. -/
  lists : ∃ free : Nat → List Nat, ∀ b < kmemNbuckets,
    Linked t.heap.ram (t.heap.kmemBuckets b).kbFree (free b) ∧ (free b).Nodup ∧
    (free b).length = (t.heap.kmemBuckets b).kbFreecnt ∧
    (t.heap.kmemBuckets b).kbInuse = (t.live.countP fun k => k.kind = .bucket b) ∧
    (t.heap.kmemBuckets b).kbInuse + (t.heap.kmemBuckets b).kbFreecnt =
      (t.heap.kmemBuckets b).kbAlloc ∧
    ∀ c ∈ free b, c % kbSize b = 0 ∧
      (∀ k ∈ t.live, k.base + k.kind.span ≤ c ∨ c + kbSize b ≤ k.base) ∧
      ∀ b' < kmemNbuckets, ∀ c' ∈ free b', b' = b ∧ c' = c ∨ c + kbSize b ≤ c' ∨ c' + kbSize b' ≤ c
  kmallocs : ∀ size, size + kmemHdrSize < 2 ^ 64 → ∃ r h, Kern.kmalloc size t.heap = (.ok r, h)
  kcallocs : ∀ n size, (n * size < 2 ^ 64 → n * size + kmemHdrSize < 2 ^ 64) →
    ∃ r h, Kern.kcalloc n size t.heap = (.ok r, h)
  kfrees : ∀ k ∈ t.live, ∃ h, Kern.kfree (k.base + kmemHdrSize) t.heap = (.ok (), h)
  again : ∀ c ∈ t.freed, Kern.kfree (c + kmemHdrSize) t.heap = (.error .badMagic, t.heap)

theorem Explained.sound {t : Trace} (explained : t.Explained) : t.Sound := by
  obtain ⟨L, ok, live, freed⟩ := explained
  constructor
  case usable => exact fun k member => (ok.live k (live ▸ member)).2
  case disjoint =>
    rw [← live]
    refine (pairwise_map.mp ok.liveOnce).imp_of_mem fun first second other => ?_
    exact (ok.live _ first).1.apart (ok.live _ second).1 other
  case lists =>
    refine ⟨L.free, fun b bucket =>
      ⟨ok.linked b bucket, ok.freeOnce b bucket, (ok.freecnt b bucket).symm,
      live ▸ ok.inuse b bucket, (ok.alloc b bucket).symm,
      fun c member => ⟨(ok.free b bucket c member).2.1, ?_, ?_⟩⟩⟩
    · exact fun k member' => ok.live_apart (live ▸ member') bucket member
    intro b' bucket' c' member'
    by_cases same : c' = c
    · -- one page, one bucket
      have use := (ok.free b' bucket' c' member').2.2
      rw [same, (ok.free b bucket c member).2.2] at use
      cases use
      exact .inl ⟨rfl, same⟩
    · exact .inr (ok.free_apart bucket bucket' member member' (Ne.symm same))
  case kmallocs =>
    intro size roomy
    obtain ⟨r, h, -, run, -⟩ := kmalloc_ok ok roomy
    exact ⟨r, h, run⟩
  case kcallocs =>
    intro n size roomy
    obtain ⟨r, h, -, run, -⟩ := kcalloc_ok ok n size roomy
    exact ⟨r, h, run⟩
  case kfrees =>
    intro k member
    obtain ⟨h, -, run, -⟩ := kfree_ok ok (live ▸ member)
    exact ⟨h, run⟩
  case again => exact fun c member => kfree_freed ok (freed c member)

/-- Whatever is allocated, written and freed, in whatever order, if the header fits behind every
size. -/
theorem kernel_heap_sound (pmm : Allocator) (ram : Ram) (t : Trace) (reached : pmm.Reached)
    (run : Runs next (fun _ e _ => e.Roomy) (start pmm ram) t) : t.Sound :=
  (run.invariant (P := Explained) (start_explained reached.counted ram)
    fun _ _ _ explained step roomy => next_explained explained step roomy).sound

/-- A chunk, a run of pages, another chunk, and the first one freed. -/
def someCalls : List HeapCall :=
    [.kmalloc 100, .kmalloc 5000, .kmalloc 20, .kfree ⟨0x102f80, 100, .bucket 3⟩]

theorem kernel_heap_sound_some :
    ∃ t : Trace, t.live.length = 2 ∧ t.freed = [0x102f80] ∧ t.Sound := by
  obtain ⟨t, run, live, freed⟩ :
    ∃ t, Runs next (fun _ e _ => e.Roomy) (start Allocator.smallMemory fun _ => 0) t ∧
      t.live.length = 2 ∧ t.freed = [0x102f80] :=
        Runs.exists_of_follow someCalls (by decide +kernel)
  exact ⟨t, live, freed, kernel_heap_sound _ _ t Allocator.smallMemory_reached run⟩

/-! ### Sizes that wrap -/

/-- Two blocks of 2⁶⁴ − 1 bytes, and a byte written into the second. -/
def hugeCalls : List HeapCall :=
  [.kmalloc (2 ^ 64 - 1), .kmalloc (2 ^ 64 - 1), .write ⟨0x102fe0, 2 ^ 64 - 1, .bucket 0⟩ 4 0]

/-- Freeing the block stops at its header. -/
def badHeader (k : Block) : Bool :=
  match Kern.kfree (k.base + kmemHdrSize) t.heap with
  | (.error .badMagic, _) => true
  | _ => false

/-- The blocks are chunks of sixteen bytes; the payload of one is the header of the other, which its
holder destroys by writing to its own block. -/
theorem huge_sizes_meet :
    ∃ t k k', Runs next (fun _ _ _ => True) (start Allocator.smallMemory fun _ => 0) t ∧
    t.live = [k', k] ∧ k.size = 2 ^ 64 - 1 ∧ k.kind.span = kmemHdrSize ∧
      k'.base + kmemHdrSize = k.base ∧
    badHeader t k = true := by
  obtain ⟨t, run, live, bad⟩ :
    ∃ t, Runs next (fun _ _ _ => True) (start Allocator.smallMemory fun _ => 0) t ∧
      t.live = [⟨0x102fe0, 2 ^ 64 - 1, .bucket 0⟩, ⟨0x102ff0, 2 ^ 64 - 1, .bucket 0⟩] ∧
      badHeader t ⟨0x102ff0, 2 ^ 64 - 1, .bucket 0⟩ = true :=
        Runs.exists_of_follow hugeCalls (by decide +kernel)
  exact ⟨t, _, _, run, live, rfl, rfl, rfl, bad⟩

end Trace

end Style9.Kern
