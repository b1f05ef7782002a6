import Style9.Kern.Heap

/-!
# Blocks of the kernel heap

Which bytes belong to which block is said by a layout beside the heap: the live blocks, the free
chunks of each bucket in the order of their list, and what each page the heap owns is used for.
Chunks of one page are multiples of one size, pages with different uses are different pages, so two
blocks with different addresses never meet. From this every write of the heap is seen to stay inside
one block or one fresh page, and the headers, links, red zones and poison of the others are what
they were.
-/
namespace Style9.Kern

open Style9.Lib Style9.Vm Function List Nat

/-! ### Layouts -/

/-- A chunk of a bucket, or a run of pages. -/
inductive Kind where
  | bucket (b : Nat)
  | pages (n : Nat)
  deriving DecidableEq

def Kind.span : Kind → Nat
  | .bucket b => kbSize b
  | .pages n => n * vmPageSize

@[simp]
theorem Kind.span_bucket (b : Nat) : (Kind.bucket b).span = kbSize b := rfl

@[simp]
theorem Kind.span_pages (n : Nat) : (Kind.pages n).span = n * vmPageSize := rfl

/-- A live block: where its header is, what was asked for, and what it was cut from. -/
structure Block where
  base : Nat
  size : Nat
  kind : Kind
  deriving DecidableEq

/-- The use of a page: chunks of a bucket, or part of the run that starts at an address. -/
inductive Use where
  | bucket (b : Nat)
  | run (base : Nat)
  deriving DecidableEq

/-- `gone` are the runs given back whose first page has not been taken since. -/
structure Layout where
  live : List Block
  free : Nat → List Nat
  use : Nat → Option Use
  gone : List Nat

/-- A block of a kind may stand at an address. -/
def Layout.Sits (L : Layout) (c : Nat) : Kind → Prop
  | .bucket b => b < kmemNbuckets ∧ c % kbSize b = 0 ∧ L.use (c / vmPageSize) = some (.bucket b)
  | .pages n => 0 < n ∧ c % vmPageSize = 0 ∧ ∀ i < n, L.use (c / vmPageSize + i) = some (.run c)

variable {L : Layout} {h : Heap} {m m' : Ram} {b c c' n lo hi p b' f : Nat} {k k' : Kind}
  {l : List Nat} {bk : Bucket}

theorem kbSize_cases (bucket : b < kmemNbuckets) :
    kbSize b = 16 ∨ kbSize b = 32 ∨ kbSize b = 64 ∨ kbSize b = 128 ∨
    kbSize b = 256 ∨ kbSize b = 512 ∨ kbSize b = 1024 ∨ kbSize b = 2048 := by
  revert b
  decide

theorem chunk_inside (bucket : b < kmemNbuckets) (aligned : c % kbSize b = 0) :
    c + kbSize b ≤ c / vmPageSize * vmPageSize + vmPageSize := by
  unfold vmPageSize
  rcases kbSize_cases bucket with size | size | size | size | size | size | size | size <;>
    rw [size] at aligned ⊢ <;> omega

theorem chunks_apart (bucket : b < kmemNbuckets) (first : c % kbSize b = 0)
    (second : c' % kbSize b = 0) (other : c ≠ c') :
    c + kbSize b ≤ c' ∨ c' + kbSize b ≤ c := by
  rcases kbSize_cases bucket with size | size | size | size | size | size | size | size <;>
    rw [size] at first second ⊢ <;> omega

theorem sixteen_le_kbSize (b : Nat) : 16 ≤ kbSize b :=
  Nat.pow_le_pow_right (i := 4) (by decide : 0 < 2) (Nat.le_add_right 4 b)

/-- What the pages under a block are used for. -/
def Kind.use (c : Nat) : Kind → Use
  | .bucket b => .bucket b
  | .pages _ => .run c

theorem Layout.Sits.span_pos (sits : L.Sits c k) : 0 < k.span := by
  cases k with
  | bucket b => exact lt_of_lt_of_le (by decide) (sixteen_le_kbSize b)
  | pages n => exact mul_pos sits.1 (by decide)

theorem Layout.Sits.use_at {x : Nat} (sits : L.Sits c k) (low : c ≤ x) (high : x < c + k.span) :
    L.use (x / vmPageSize) = some (k.use c) := by
  cases k with
  | bucket b =>
    obtain ⟨bucket, aligned, use⟩ := sits
    have inside := chunk_inside bucket aligned
    have page : x / vmPageSize = c / vmPageSize := by
      simp only [Kind.span_bucket, vmPageSize] at *
      omega
    rw [page]
    exact use
  | pages n =>
  obtain ⟨-, aligned, use⟩ := sits
  have here := use (x / vmPageSize - c / vmPageSize) (by
    simp only [Kind.span_pages, vmPageSize] at *
    omega)
  rwa [Nat.add_sub_cancel' (Nat.div_le_div_right low)] at here

theorem Layout.Sits.apart (first : L.Sits c k) (second : L.Sits c' k') (other : c ≠ c') :
    c + k.span ≤ c' ∨ c' + k'.span ≤ c := by
  by_contra meet
  rw [not_or, not_le, not_le] at meet
  have positive := first.span_pos
  have some_' := second.span_pos
  have same : some (k.use c) = some (k'.use c') := by
    rcases le_total c c' with before | after
    · rw [← first.use_at before meet.1, second.use_at le_rfl (by omega)]
    · rw [← first.use_at le_rfl (by omega), second.use_at after meet.2]
  cases k with
  | bucket b =>
    cases k' with
    | bucket b' =>
      cases same
      have apart := chunks_apart first.1 first.2.1 second.2.1 other
      simp only [Kind.span_bucket] at meet
      omega
    | pages n => cases same
  | pages n =>
  cases k' with
  | bucket b' => cases same
  | pages n' =>
    cases same
    exact other rfl

/-! ### What memory has to say -/

/-- The header and the red zone of a live block. -/
def Block.Marked (m : Ram) (k : Block) : Prop :=
  khMagic m k.base = kmemHdrMagic ∧
    match k.kind with
    | .bucket b => khBucket m k.base = b ∧ khSize m k.base = k.size ∧
      ∀ x, k.base + kmemHdrSize + k.size ≤ x → x < k.base + kbSize b → m x = kmemRzPattern
    | .pages n => khBucket m k.base = kmemBucketLarge ∧ khNpages m k.base = n

/-- Following the links from a pointer meets these chunks, and then null. -/
def Linked (m : Ram) : Nat → List Nat → Prop
  | p, [] => p = 0
  | p, c :: rest => p = c ∧ Linked m (kcNext m c) rest

/-- A free chunk's bytes past its link. -/
def Poisoned (m : Ram) (b c : Nat) : Prop :=
  ∀ x, c + 8 ≤ x → x < c + kbSize b → m x = kmemPoisonPattern

theorem Block.Marked.congr {k : Block} (marked : k.Marked m)
    (header : ∀ x, k.base ≤ x → x < k.base + kmemHdrSize → m' x = m x)
    (zone : ∀ x, k.base + kmemHdrSize + k.size ≤ x → x < k.base + k.kind.span → m' x = m x) :
    k.Marked m' := by
  have loads : ∀ off width, off + width ≤ kmemHdrSize →
      m'.load (k.base + off) width = m.load (k.base + off) width := by
    intro off width inside
    apply Ram.load_congr
    intro x low high
    exact header x (by omega) (by omega)
  have first := loads 0 2 (by decide)
  have second := loads 2 2 (by decide)
  have third := loads 4 4 (by decide)
  have fourth := loads 8 8 (by decide)
  obtain ⟨magic, rest⟩ := marked
  refine ⟨third.trans magic, ?_⟩
  cases kind : k.kind with
  | bucket b =>
    rw [kind] at rest zone
    obtain ⟨bucket, size, red⟩ := rest
    refine ⟨first.trans bucket, fourth.trans size, fun x low high => ?_⟩
    rw [zone x low high]
    exact red x low high
  | pages n =>
    rw [kind] at rest
    exact ⟨first.trans rest.1, second.trans rest.2⟩

theorem Linked.congr (linked : Linked m p l)
    (same : ∀ c ∈ l, ∀ x, c ≤ x → x < c + 8 → m' x = m x) : Linked m' p l := by
  induction l generalizing p with
  | nil => exact linked
  | cons c rest ih =>
  obtain ⟨here, more⟩ := linked
  refine ⟨here, ?_⟩
  have link : kcNext m' c = kcNext m c := Ram.load_congr (same c mem_cons_self)
  rw [link]
  exact ih more fun d member => same d (mem_cons_of_mem c member)

/-! ### The invariant -/

structure Heap.Ok (h : Heap) (L : Layout) : Prop where
  counted : h.pmm.Counted
  pages : ∀ f use, L.use f = some use → f < h.pmm.pmm.managed ∧ h.pmm.pmm.used f = true ∧
    h.pmm.pmm.refs f = 1
  live : ∀ k ∈ L.live, L.Sits k.base k.kind ∧ kmemHdrSize + k.size ≤ k.kind.span
  free : ∀ b < kmemNbuckets, ∀ c ∈ L.free b, L.Sits c (.bucket b)
  liveOnce : (L.live.map Block.base).Nodup
  freeOnce : ∀ b < kmemNbuckets, (L.free b).Nodup
  apart : ∀ k ∈ L.live, ∀ b < kmemNbuckets, k.base ∉ L.free b
  marked : ∀ k ∈ L.live, k.Marked h.ram
  linked : ∀ b < kmemNbuckets, Linked h.ram (h.kmemBuckets b).kbFree (L.free b)
  poisoned : ∀ b < kmemNbuckets, ∀ c ∈ L.free b, Poisoned h.ram b c
  freecnt : ∀ b < kmemNbuckets, (h.kmemBuckets b).kbFreecnt = (L.free b).length
  inuse : ∀ b < kmemNbuckets, (h.kmemBuckets b).kbInuse = L.live.countP fun k => k.kind = .bucket b
  alloc : ∀ b < kmemNbuckets,
    (h.kmemBuckets b).kbAlloc = (h.kmemBuckets b).kbInuse + (h.kmemBuckets b).kbFreecnt
  gone : ∀ c ∈ L.gone, c % vmPageSize = 0 ∧ h.pmm.pmm.used (c / vmPageSize) = false ∧
    khMagic h.ram c ≠ kmemHdrMagic ∧ c < 2 ^ 30

theorem Heap.Ok.range (ok : h.Ok L) (sits : L.Sits c k) : vmPageSize ≤ c ∧ c + k.span ≤ 2 ^ 30 := by
  have capped := ok.counted.capped
  have positive := sits.span_pos
  obtain ⟨-, -, one⟩ := ok.pages _ _ (sits.use_at le_rfl (by omega))
  have low := Allocator.low_of_owned ok.counted.bottom.2 (f := c / vmPageSize) (by rw [one]; decide)
  obtain ⟨inside, -, -⟩ := ok.pages _ _ (sits.use_at (x := c + k.span - 1) (by omega) (by omega))
  unfold vmPageSize at *
  omega

theorem Heap.Ok.free_apart (ok : h.Ok L) {b : Nat} (bucket : b < kmemNbuckets)
    (bucket' : b' < kmemNbuckets)
    (member : c ∈ L.free b) (member' : c' ∈ L.free b') (other : c ≠ c') :
    c + kbSize b ≤ c' ∨ c' + kbSize b' ≤ c :=
  (ok.free b bucket c member).apart (ok.free b' bucket' c' member') other

theorem Heap.Ok.live_apart (ok : h.Ok L) {k : Block} (live : k ∈ L.live) (bucket : b < kmemNbuckets)
    (member : c ∈ L.free b) :
    k.base + k.kind.span ≤ c ∨ c + kbSize b ≤ k.base :=
  (ok.live k live).1.apart (ok.free b bucket c member) fun same =>
    ok.apart k live b bucket (same ▸ member)

/-! ### Writes that stay in a range -/

/-- Memory is the same outside a range. -/
def Within (m m' : Ram) (lo hi : Nat) : Prop := ∀ x, x < lo ∨ hi ≤ x → m' x = m x

theorem Within.mono {lo' hi' : Nat} (within : Within m m' lo' hi') (low : lo ≤ lo')
    (high : hi' ≤ hi) : Within m m' lo hi :=
  fun x outside => within x (by omega)

theorem Within.trans {u v : Ram} (first : Within m u lo hi) (second : Within u v lo hi) :
    Within m v lo hi :=
  fun x outside => (second x outside).trans (first x outside)

theorem within_fill (v : UInt8) : Within m (m.fill lo hi v) lo hi :=
  fun _ outside => Ram.fill_outside outside

theorem within_store (width v : Nat) : Within m (m.store lo (leBytes width v)) lo (lo + width) :=
  fun _ outside => Ram.store_outside (by rw [length_leBytes]; exact outside)

theorem Block.Marked.outside {k : Block} (marked : k.Marked m) (within : Within m m' lo hi)
    (fits : kmemHdrSize + k.size ≤ k.kind.span) (apart : k.base + k.kind.span ≤ lo ∨ hi ≤ k.base) :
    k.Marked m' := by
  apply marked.congr
  · intro x low high
    exact within x (by omega)
  · intro x low high
    exact within x (by omega)

theorem Linked.outside (linked : Linked m p l) (within : Within m m' lo hi)
    (apart : ∀ c ∈ l, c + 8 ≤ lo ∨ hi ≤ c) : Linked m' p l := by
  apply linked.congr
  intro c member x low high
  have apart := apart c member
  exact within x (by omega)

theorem Poisoned.outside (poisoned : Poisoned m b c) (within : Within m m' lo hi)
    (apart : c + kbSize b ≤ lo ∨ hi ≤ c) :
    Poisoned m' b c := by
  intro x low high
  rw [within x (by omega)]
  exact poisoned x low high

theorem Within.khMagic (within : Within m m' lo hi) (apart : c + kmemHdrSize ≤ lo ∨ hi ≤ c) :
    khMagic m' c = khMagic m c := by
  apply Ram.load_congr
  intro x low high
  unfold kmemHdrSize at apart
  exact within x (by omega)

theorem Heap.Ok.gone_apart (ok : h.Ok L) (gone : c ∈ L.gone) (sits : L.Sits c' k) :
    c + kmemHdrSize ≤ c' ∨ c' + k.span ≤ c := by
  obtain ⟨aligned, unused, -⟩ := ok.gone c gone
  by_contra meet
  have positive := sits.span_pos
  have here := sits.use_at (x := max c c') (le_max_right ..) (by omega)
  have page : max c c' / vmPageSize = c / vmPageSize := by
    unfold vmPageSize kmemHdrSize at *
    omega
  rw [page] at here
  rw [(ok.pages _ _ here).2.1] at unused
  cases unused

/-! ### Headers written -/

theorem writeHdr_within (bucket npages : Nat) :
    Within m (writeHdr m c bucket npages) c (c + 8) := by
  apply Within.trans (u := (m.store c (leBytes 2 bucket)).store (c + 2) (leBytes 2 npages))
  · apply Within.trans (u := m.store c (leBytes 2 bucket))
    · exact (within_store 2 bucket).mono (by omega) (by omega)
    · exact (within_store 2 npages).mono (by omega) (by omega)
  · exact (within_store 4 kmemHdrMagic).mono (by omega) (by omega)

theorem khMagic_writeHdr (bucket npages : Nat) :
    khMagic (writeHdr m c bucket npages) c = kmemHdrMagic := Ram.load_store

theorem khNpages_writeHdr (bucket : Nat) {npages : Nat} (small : npages ≤ 0xFFFF) :
    khNpages (writeHdr m c bucket npages) c = npages := by
  unfold writeHdr khNpages
  rw [Ram.load_store_outside (by omega), Ram.load_store]
  exact mod_eq_of_lt (by omega)

theorem khBucket_writeHdr {bucket : Nat} (npages : Nat) (small : bucket ≤ 0xFFFF) :
    khBucket (writeHdr m c bucket npages) c = bucket := by
  unfold writeHdr khBucket
  rw [Ram.load_store_outside (by omega), Ram.load_store_outside (by omega), Ram.load_store]
  exact mod_eq_of_lt (by omega)

section Dress

variable {size : Nat} (fits : kmemHdrSize + size ≤ kbSize b) (low : c + kbSize b ≤ 2 ^ 30)
include fits low

theorem slack_eq : slack c size = c + kmemHdrSize + size := by
  exact mod_eq_of_lt (by omega)

theorem dress_within : Within m (dress m b c size) c (c + kbSize b) := by
  have sixteen := sixteen_le_kbSize b
  unfold dress
  rw [slack_eq fits low]
  apply Within.trans (u := (writeHdr m c b 0).store (c + 8) (leBytes 8 size))
  · apply Within.trans (u := writeHdr m c b 0)
    · exact (writeHdr_within b 0).mono le_rfl (by omega)
    · exact (within_store 8 size).mono (by omega) (by omega)
  · exact (within_fill _).mono (by omega) le_rfl

theorem dress_marked (bucket : b < kmemNbuckets) :
    Block.Marked (dress m b c size) ⟨c, size, .bucket b⟩ := by
  have header : ∀ a width, c ≤ a → a + width ≤ c + kmemHdrSize →
      (dress m b c size).load a width =
        ((writeHdr m c b 0).store (c + 8) (leBytes 8 size)).load a width := by
    intro a width after before
    unfold dress
    rw [slack_eq fits low]
    exact Ram.load_fill_outside (.inl (by omega))
  have sizes : kbSize b ≤ 2048 := by
    rcases kbSize_cases bucket with e | e | e | e | e | e | e | e <;> omega
  unfold kmemNbuckets at bucket
  refine ⟨?_, ?_, ?_, ?_⟩
  · change (dress m b c size).load (c + 4) 4 = _
    rw [header (c + 4) 4 (by omega) (by unfold kmemHdrSize; omega),
      Ram.load_store_outside (by omega)]
    exact khMagic_writeHdr b 0
  · change (dress m b c size).load c 2 = _
    rw [header c 2 (by omega) (by unfold kmemHdrSize; omega), Ram.load_store_outside (by omega)]
    exact khBucket_writeHdr 0 (by omega)
  · change (dress m b c size).load (c + 8) 8 = _
    rw [header (c + 8) 8 (by omega) (by unfold kmemHdrSize; omega), Ram.load_store]
    exact mod_eq_of_lt (by show size < 2 ^ 64; omega)
  intro x after before
  unfold dress
  rw [slack_eq fits low]
  exact Ram.fill_inside after before

end Dress

/-! ### Pages come and go -/

def Layout.adopt (L : Layout) (p n : Nat) (use : Use) : Layout :=
  { L with
    use := fun f => if p ≤ f ∧ f < p + n then some use else L.use f
    gone := L.gone.filter fun c => ¬ (p ≤ c / vmPageSize ∧ c / vmPageSize < p + n) }

theorem Layout.adopt_use {use : Use} :
    (L.adopt p n use).use f = if p ≤ f ∧ f < p + n then some use else L.use f := rfl

theorem Layout.Sits.congr {L' : Layout} (sits : L.Sits c k)
    (same : ∀ f, L.use f = some (k.use c) → L'.use f = some (k.use c)) :
    L'.Sits c k := by
  cases k with
  | bucket b => exact ⟨sits.1, sits.2.1, same _ sits.2.2⟩
  | pages n => exact ⟨sits.1, sits.2.1, fun i below => same _ (sits.2.2 i below)⟩

theorem Heap.Ok.unused {use : Use} (ok : h.Ok L) (free : h.pmm.FreeRun p n)
    (here : L.use f = some use) :
    ¬ (p ≤ f ∧ f < p + n) := by
  rintro ⟨low, high⟩
  have unused := free.2 (f - p) (by omega)
  rw [Nat.add_sub_cancel' low, (ok.pages f use here).2.1] at unused
  cases unused

theorem Heap.Ok.adopt {a : Allocator} (ok : h.Ok L) (use : Use) (free : h.pmm.FreeRun p n)
    (taken : Allocator.Taken h.pmm p n a) (counted : a.Counted) :
    Heap.Ok { h with pmm := a } (L.adopt p n use) := by
  have kept : ∀ f use', L.use f = some use' → (L.adopt p n use).use f = some use' := by
    intro f use' here
    rw [Layout.adopt_use, if_neg (ok.unused free here)]
    exact here
  have sits : ∀ c k, L.Sits c k → (L.adopt p n use).Sits c k :=
    fun c k old => old.congr fun f here => kept f _ here
  refine { ok with
    counted := counted
    live := fun k member => ⟨sits _ _ (ok.live k member).1, (ok.live k member).2⟩
    free := fun b bucket c member => sits _ _ (ok.free b bucket c member)
    pages := ?pages, gone := ?gone }
  case pages =>
    intro f use' here
    rw [taken.managed, taken.used, taken.refs]
    rw [Layout.adopt_use] at here
    split at here
    next inside =>
      have limit := free.1
      rw [if_pos inside, if_pos inside]
      exact ⟨by omega, rfl, rfl⟩
    next outside =>
      rw [if_neg outside, if_neg outside]
      exact ok.pages f use' here
  case gone =>
    intro c member
    obtain ⟨member, outside⟩ := mem_filter.mp member
    obtain ⟨aligned, unused, magic⟩ := ok.gone c member
    refine ⟨aligned, ?_, magic⟩
    rw [taken.used, if_neg (of_decide_eq_true outside)]
    exact unused

/-! ### Chunks come and go -/

def Layout.setFree (L : Layout) (b : Nat) (l : List Nat) : Layout :=
  { L with free := update L.free b l }

theorem Layout.setFree_free : (L.setFree b l).free b' = if b' = b then l else L.free b' :=
  update_apply L.free b l b'

theorem Heap.setBucket_buckets :
    (h.setBucket b bk).kmemBuckets b' = if b' = b then bk else h.kmemBuckets b' :=
  update_apply h.kmemBuckets b bk b'

/-- The first free chunk is nobody's for a moment. -/
def Heap.pop (h : Heap) (b c : Nat) : Heap :=
  h.setBucket b { h.kmemBuckets b with
    kbFree := kcNext h.ram c
    kbAlloc := (h.kmemBuckets b).kbAlloc - 1
    kbFreecnt := (h.kmemBuckets b).kbFreecnt - 1 }

/-- A chunk that is nobody's becomes the first free one, in a memory that holds the link and the
poison. -/
def Heap.push (h : Heap) (b c : Nat) (m : Ram) : Heap :=
  { h.setBucket b { h.kmemBuckets b with
      kbFree := c
      kbAlloc := (h.kmemBuckets b).kbAlloc + 1
      kbFreecnt := (h.kmemBuckets b).kbFreecnt + 1 } with ram := m }

/-- The free list of a bucket changes, with its counters. -/
theorem Heap.Ok.setFree (ok : h.Ok L) (bucket : b < kmemNbuckets)
    (each : ∀ c ∈ l, L.Sits c (.bucket b) ∧ Poisoned h.ram b c ∧ ∀ k ∈ L.live, k.base ≠ c)
    (once : l.Nodup)
    (linked : Linked h.ram bk.kbFree l) (freecnt : bk.kbFreecnt = l.length)
    (inuse : bk.kbInuse = (h.kmemBuckets b).kbInuse)
    (alloc : bk.kbAlloc = bk.kbInuse + bk.kbFreecnt) : (h.setBucket b bk).Ok (L.setFree b l) := by
  have each' : ∀ b' < kmemNbuckets, ∀ c ∈ (L.setFree b l).free b',
      L.Sits c (.bucket b') ∧ Poisoned h.ram b' c ∧ ∀ k ∈ L.live, k.base ≠ c := by
    intro b' bucket' c member
    rw [Layout.setFree_free] at member
    split at member
    next same => exact same ▸ each c member
    · exact ⟨ok.free b' bucket' c member, ok.poisoned b' bucket' c member,
        fun k live same => ok.apart k live b' bucket' (same ▸ member)⟩
  refine { ok with
    free := fun b' bucket' c member => (each' b' bucket' c member).1
    poisoned := fun b' bucket' c member => (each' b' bucket' c member).2.1
    apart := fun k live b' bucket' member => (each' b' bucket' _ member).2.2 k live rfl
    freeOnce := ?freeOnce, linked := ?linked, freecnt := ?freecnt, inuse := ?inuse
    alloc := ?alloc }
  all_goals
    intro b' bucket'
    simp only [Layout.setFree_free, Heap.setBucket_buckets]
    split
  case freeOnce.isTrue => exact once
  case freeOnce.isFalse => exact ok.freeOnce b' bucket'
  case linked.isTrue => exact linked
  case linked.isFalse => exact ok.linked b' bucket'
  case freecnt.isTrue => exact freecnt
  case freecnt.isFalse => exact ok.freecnt b' bucket'
  case inuse.isTrue same =>
    subst same
    exact inuse.trans (ok.inuse b' bucket')
  case inuse.isFalse => exact ok.inuse b' bucket'
  case alloc.isTrue => exact alloc
  case alloc.isFalse => exact ok.alloc b' bucket'

theorem Heap.Ok.pop {rest : List Nat} (ok : h.Ok L) (bucket : b < kmemNbuckets)
    (list : L.free b = c :: rest) :
    (h.pop b c).Ok (L.setFree b rest) := by
  have once := ok.freeOnce b bucket
  have linked := ok.linked b bucket
  have count := ok.freecnt b bucket
  have total := ok.alloc b bucket
  rw [list] at once linked count
  rw [length_cons] at count
  refine ok.setFree bucket (fun c' member => ?_) (nodup_cons.mp once).2 linked.2
    (by simp only [count, Nat.add_sub_cancel]) rfl
    (by dsimp only; omega)
  have member := list ▸ mem_cons_of_mem c member
  exact ⟨ok.free b bucket c' member, ok.poisoned b bucket c' member,
    fun k live same => ok.apart k live b bucket (same ▸ member)⟩

/-- No block stands at this address. -/
def Layout.Alone (L : Layout) (c : Nat) : Prop :=
  (∀ k ∈ L.live, k.base ≠ c) ∧ ∀ b < kmemNbuckets, c ∉ L.free b

/-- Memory changes inside one place, and no free chunk meets it. -/
theorem Heap.Ok.within (ok : h.Ok L) (sits : L.Sits c k) (within : Within h.ram m c (c + k.span))
    (apart : ∀ b < kmemNbuckets, ∀ c' ∈ L.free b, c' + kbSize b ≤ c ∨ c + k.span ≤ c')
    (marked : ∀ k ∈ L.live, k.Marked m) :
    Heap.Ok { h with ram := m } L := by
  refine { ok with
    marked := marked
    poisoned := fun b bucket c' member =>
      (ok.poisoned b bucket c' member).outside within (apart b bucket c' member)
    linked := ?linked, gone := ?gone }
  case linked =>
    intro b bucket
    apply (ok.linked b bucket).outside within
    intro c' member
    have apart := apart b bucket c' member
    have sixteen := sixteen_le_kbSize b
    omega
  case gone =>
    intro c' member
    obtain ⟨aligned, unused, magic⟩ := ok.gone c' member
    refine ⟨aligned, unused, ?_⟩
    rw [within.khMagic (ok.gone_apart member sits)]
    exact magic

theorem Heap.Ok.rewrite (ok : h.Ok L) (sits : L.Sits c k) (alone : L.Alone c)
    (within : Within h.ram m c (c + k.span)) :
    Heap.Ok { h with ram := m } L := by
  refine ok.within sits within (fun b bucket c' member => ?_) fun k' member => ?_
  · exact (ok.free b bucket c' member).apart sits fun same => alone.2 b bucket (same ▸ member)
  · obtain ⟨sits', fits⟩ := ok.live k' member
    exact (ok.marked k' member).outside within fits (sits'.apart sits (alone.1 k' member))

theorem Heap.Ok.push (ok : h.Ok L) (sits : L.Sits c (.bucket b)) (alone : L.Alone c)
    (within : Within h.ram m c (c + kbSize b))
    (link : kcNext m c = (h.kmemBuckets b).kbFree) (poisoned : Poisoned m b c) :
    (h.push b c m).Ok (L.setFree b (c :: L.free b)) := by
  have bucket := sits.1
  have ok := ok.rewrite sits alone within
  refine ok.setFree bucket (fun c' member => ?_)
    (nodup_cons.mpr ⟨alone.2 b bucket, ok.freeOnce b bucket⟩) ⟨rfl, ?_⟩
    (congrArg (· + 1) (ok.freecnt b bucket)) rfl (congrArg (· + 1) (ok.alloc b bucket))
  · rcases mem_cons.mp member with rfl | old
    · exact ⟨sits, poisoned, alone.1⟩
    · exact ⟨ok.free b bucket c' old, ok.poisoned b bucket c' old,
        fun k live same => ok.apart k live b bucket (same ▸ old)⟩
  · rw [link]
    exact ok.linked b bucket

/-! ### Blocks come and go -/

def Kind.chunks (k : Kind) (b : Nat) : Nat := if k = .bucket b then 1 else 0

/-- A place that is nobody's becomes a live block, in a memory that holds its header and red zone.
-/
def Heap.bear (h : Heap) (k : Kind) (m : Ram) : Heap :=
  { h with
    kmemBuckets := fun b => { h.kmemBuckets b with
      kbAlloc := (h.kmemBuckets b).kbAlloc + k.chunks b
      kbInuse := (h.kmemBuckets b).kbInuse + k.chunks b }
    ram := m }

/-- A live block becomes a place that is nobody's. -/
def Heap.drop (h : Heap) (k : Kind) : Heap :=
  { h with
    kmemBuckets := fun b => { h.kmemBuckets b with
      kbAlloc := (h.kmemBuckets b).kbAlloc - k.chunks b
      kbInuse := (h.kmemBuckets b).kbInuse - k.chunks b } }

theorem Heap.Ok.bear {k : Block} (ok : h.Ok L) (sits : L.Sits k.base k.kind)
    (fits : kmemHdrSize + k.size ≤ k.kind.span)
    (alone : L.Alone k.base) (within : Within h.ram m k.base (k.base + k.kind.span))
    (marked : k.Marked m) :
    (h.bear k.kind m).Ok { L with live := k :: L.live } := by
  have ok := ok.rewrite sits alone within
  refine { ok with
    live := ?live, liveOnce := ?liveOnce, apart := ?apart, marked := ?marked
    inuse := ?inuse, alloc := ?alloc }
  case live =>
    intro k' member
    rcases mem_cons.mp member with rfl | old
    · exact ⟨sits, fits⟩
    · exact ok.live k' old
  case liveOnce =>
    refine nodup_cons.mpr ⟨fun member => ?_, ok.liveOnce⟩
    obtain ⟨k', live, same⟩ := mem_map.mp member
    exact alone.1 k' live same
  case apart =>
    intro k' member b bucket
    rcases mem_cons.mp member with rfl | old
    · exact alone.2 b bucket
    · exact ok.apart k' old b bucket
  case marked =>
    intro k' member
    rcases mem_cons.mp member with rfl | old
    · exact marked
    · exact ok.marked k' old
  case inuse =>
    intro b bucket
    change (h.kmemBuckets b).kbInuse + k.kind.chunks b = _
    rw [ok.inuse b bucket, countP_cons, Kind.chunks]
    simp only [decide_eq_true_eq]
  case alloc =>
    intro b bucket
    change (h.kmemBuckets b).kbAlloc + k.kind.chunks b =
      (h.kmemBuckets b).kbInuse + k.kind.chunks b + (h.kmemBuckets b).kbFreecnt
    have total := ok.alloc b bucket
    change (h.kmemBuckets b).kbAlloc = (h.kmemBuckets b).kbInuse + (h.kmemBuckets b).kbFreecnt
      at total
    omega

theorem Heap.Ok.drop {k : Block} (ok : h.Ok L) (member : k ∈ L.live) :
    (h.drop k.kind).Ok { L with live := L.live.erase k } ∧
      Layout.Alone { L with live := L.live.erase k } k.base := by
  have nodup := ok.liveOnce.of_map
  have old : ∀ k' ∈ L.live.erase k, k' ∈ L.live := fun k' left => mem_of_mem_erase left
  have fewer : ∀ b, (L.live.countP fun k => k.kind = .bucket b) =
      ((L.live.erase k).countP fun k => k.kind = .bucket b) + k.kind.chunks b := by
    intro b
    rw [(perm_cons_erase member).countP_eq, countP_cons, Kind.chunks]
    simp only [decide_eq_true_eq]
  refine ⟨?_, fun k' left same => ?_, fun b bucket => ok.apart k member b bucket⟩
  · refine { ok with
      live := fun k' left => ok.live k' (old k' left)
      liveOnce := (erase_sublist.map Block.base).nodup ok.liveOnce
      apart := fun k' left => ok.apart k' (old k' left)
      marked := fun k' left => ok.marked k' (old k' left)
      inuse := ?inuse, alloc := ?alloc }
    case inuse =>
      intro b bucket
      change (h.kmemBuckets b).kbInuse - k.kind.chunks b = _
      rw [ok.inuse b bucket, fewer b, Nat.add_sub_cancel]
    case alloc =>
      intro b bucket
      change (h.kmemBuckets b).kbAlloc - k.kind.chunks b =
        (h.kmemBuckets b).kbInuse - k.kind.chunks b + (h.kmemBuckets b).kbFreecnt
      have total := ok.alloc b bucket
      have count := ok.inuse b bucket
      rw [fewer b] at count
      omega
  · -- two live blocks at one address would be one
    obtain rfl : k' = k := inj_on_of_nodup_map ok.liveOnce (old k' left) member same
    exact (List.Nodup.not_mem_erase nodup) left

/-! ### Refilling a bucket -/

theorem Heap.Ok.kbFree_small (ok : h.Ok L) (bucket : b < kmemNbuckets) :
    (h.kmemBuckets b).kbFree < 2 ^ 30 := by
  have linked := ok.linked b bucket
  cases list : L.free b with
  | nil =>
    rw [list] at linked
    rw [show (h.kmemBuckets b).kbFree = 0 from linked]
    decide
  | cons c rest =>
  rw [list] at linked
  have range := ok.range (ok.free b bucket c (list ▸ mem_cons_self))
  have sixteen := sixteen_le_kbSize b
  rw [linked.1]
  simp only [Kind.span_bucket] at range
  omega

theorem poisoned_link {next : Nat} (poison : Poisoned m b c) (small : next < 2 ^ 30) :
    kcNext (m.store c (leBytes 8 next)) c = next ∧ Poisoned (m.store c (leBytes 8 next)) b c := by
  refine ⟨?_, fun x low high => ?_⟩
  · unfold kcNext
    rw [Ram.load_store]
    exact mod_eq_of_lt (by omega)
  · rw [within_store 8 next x (.inr low)]
    exact poison x low high

theorem fill_poisoned : Poisoned (m.fill (c + 8) (c + kbSize b) kmemPoisonPattern) b c :=
  fun _ low high => Ram.fill_inside low high

theorem slice_within (next : Nat) : Within m (slice m b c next) c (c + kbSize b) := by
  have sixteen := sixteen_le_kbSize b
  apply Within.trans (u := m.fill (c + 8) (c + kbSize b) kmemPoisonPattern)
  · exact (within_fill _).mono (by omega) le_rfl
  · exact (within_store 8 next).mono le_rfl (by omega)

/-- The counters as they will be when this many chunks have been cut. -/
def Heap.bump (h : Heap) (b i : Nat) : Heap :=
  h.setBucket b { h.kmemBuckets b with
    kbAlloc := (h.kmemBuckets b).kbAlloc + i
    kbFreecnt := (h.kmemBuckets b).kbFreecnt + i }

def cutChunks (b pa i : Nat) : List Nat := ((List.range i).map fun j => pa + j * kbSize b).reverse

theorem cutChunks_succ (b pa i : Nat) :
    cutChunks b pa (i + 1) = (pa + i * kbSize b) :: cutChunks b pa i := by
  unfold cutChunks
  rw [range_succ, map_append, reverse_append]
  rfl

theorem mem_cutChunks {pa i : Nat} : c ∈ cutChunks b pa i ↔ ∃ j < i, pa + j * kbSize b = c := by
  unfold cutChunks
  simp only [mem_reverse, mem_map, mem_range]

theorem sliceOne_bump (pa i : Nat) (h : Heap) : (sliceOne b pa h i).bump b (i + 1) =
    (h.bump b i).push b (pa + i * kbSize b)
      (slice h.ram b (pa + i * kbSize b) (h.kmemBuckets b).kbFree) := by
  unfold sliceOne Heap.bump Heap.push Heap.setBucket
  simp only [update_self, update_idem]
  rfl

theorem Layout.setFree_setFree (l l' : List Nat) :
    (L.setFree b l).setFree b l' = L.setFree b l' := by
  unfold Layout.setFree
  simp only [update_idem]

theorem Heap.Ok.slice (ok : h.Ok L) (bucket : b < kmemNbuckets) (use : L.use p = some (.bucket b))
    (bare : ∀ c, c / vmPageSize = p → L.Alone c) (i : Nat) (fits : i * kbSize b ≤ vmPageSize) :
    (((List.range i).foldl (sliceOne b (paFromIndex p)) h).bump b i).Ok
      (L.setFree b (cutChunks b (paFromIndex p) i ++ L.free b)) := by
  induction i with
  | zero =>
    have same : h.bump b 0 = h := by
      unfold Heap.bump Heap.setBucket
      simp
    have whole : L.setFree b (cutChunks b (paFromIndex p) 0 ++ L.free b) = L := by
      unfold Layout.setFree
      simp [cutChunks]
    rw [whole]
    exact same.symm ▸ ok
  | succ i ih =>
  have before : i * kbSize b + kbSize b ≤ vmPageSize := by
    rw [← succ_mul]
    exact fits
  have sixteen := sixteen_le_kbSize b
  have cut := ih (by omega)
  have page : (paFromIndex p + i * kbSize b) / vmPageSize = p := by
    unfold paFromIndex vmPageSize at *
    omega
  have aligned : (paFromIndex p + i * kbSize b) % kbSize b = 0 := by
    rw [add_mul_mod_self_right]
    unfold paFromIndex vmPageSize
    rcases kbSize_cases bucket with e | e | e | e | e | e | e | e <;> rw [e] <;> omega
  have alone := bare _ page
  have nobody : (L.setFree b (cutChunks b (paFromIndex p) i ++ L.free b)).Alone
      (paFromIndex p + i * kbSize b) := by
    refine ⟨alone.1, fun b' bucket' member => ?_⟩
    rw [Layout.setFree_free] at member
    split at member
    · rcases mem_append.mp member with mine | old
      · obtain ⟨j, below, same⟩ := mem_cutChunks.mp mine
        have lower : j * kbSize b + kbSize b ≤ i * kbSize b := by
          rw [← succ_mul]
          exact mul_le_mul_right _ below
        omega
      · exact alone.2 b bucket old
    · exact alone.2 b' bucket' member
  have head :
    ((((List.range i).foldl (sliceOne b (paFromIndex p)) h).bump b i).kmemBuckets b).kbFree =
      (((List.range i).foldl (sliceOne b (paFromIndex p)) h).kmemBuckets b).kbFree := by
    rw [Heap.bump, Heap.setBucket_buckets, if_pos rfl]
  have small := cut.kbFree_small bucket
  rw [head] at small
  obtain ⟨link, poisoned⟩ :=
    poisoned_link (fill_poisoned (m := ((List.range i).foldl (sliceOne b (paFromIndex p)) h).ram))
      small
  have next := cut.push ⟨bucket, aligned, by rw [page]; exact use⟩ nobody (slice_within _)
    (link.trans head.symm) poisoned
  rw [range_succ, foldl_append, foldl_cons, foldl_nil, sliceOne_bump, cutChunks_succ]
  rw [Layout.setFree_setFree, Layout.setFree_free, if_pos rfl] at next
  exact next

end Style9.Kern
