import Style9.Apfs.Flush

/-!
# Space is accounted for in every state

The six routines that touch the bitmaps, the counters and the queues each keep `SpaceOk`, so
every state they reach from a consistent mount does. A caller of `free_blocks` or `ip_free`
has to own what it gives back: neither routine can tell a block given back twice.
-/
namespace Style9.Apfs

open Style9.Lib List

variable {s s' : Kern} {q : Sfq} {b : Nat}

/-! ### Taking blocks -/

theorem Kern.named_eq (cib : s'.gApfs.acAllocCib = s.gApfs.acAllocCib)
    (shape : s'.gCib.shape = s.gCib.shape) : s'.named = s.named := by
  have addrs := congrArg (fun cib => cib.cibChunkInfo.map ChunkInfo.ciBitmapAddr) shape
  simp only [ChunkInfoBlock.shape, map_map] at addrs
  unfold Kern.named Kern.infos
  rw [cib]
  exact congrArg (fun addrs => s.gApfs.acAllocCib :: filter (· ≠ 0) addrs) addrs

theorem ChunkFrame.named (frame : ChunkFrame s s') : s'.named = s.named := by
  have cib := congrArg Mount.acAllocCib frame.mount
  exact Kern.named_eq cib frame.cib

theorem PoolSame.inPool (same : PoolSame s s') (b : Nat) :
    Apfs.inPool s'.gApfs b = Apfs.inPool s.gApfs b := by
  unfold Apfs.inPool
  rw [same.base, same.blocks]

theorem ChunkFrame.poolSame (frame : ChunkFrame s s') : PoolSame s s' := by
  have base := congrArg Mount.acIpBase frame.mount
  have blocks := congrArg Mount.acIpBlocks frame.mount
  exact ⟨base, blocks, frame.ipbm, by rw [frame.fq], by rw [frame.smFq]⟩

theorem ChunkFrame.queue (frame : ChunkFrame s s') (q : Sfq) : s'.queue q = s.queue q := by
  unfold Kern.queue
  rw [frame.fq]

theorem SpaceOk.moved (ok : SpaceOk s) (chunks : ChunksOk s') (frame : ChunkFrame s s')
    (used : ∀ b, s.Used b → s'.Used b) : SpaceOk s' := by
  refine ⟨⟨chunks, ?_, ?_, ?_⟩, ?_, ?_, ?_, ?_⟩
  · rw [frame.queue]
    exact ok.main.queue.mono fun e _ b _ => used b
  · rw [frame.fq, frame.smFq]
    exact ok.main.counts
  · rw [frame.queue]
    exact ok.main.tier2
  · rw [frame.named]
    exact ok.pool.congr frame.poolSame
  · rw [frame.poolSame.base]
    exact ok.base
  · exact fun b inside => used b (ok.poolUsed b (frame.poolSame.inPool b ▸ inside))
  intro b inside
  unfold Kern.Unqueued
  rw [frame.queue]
  exact ok.poolUnqueued b (frame.poolSame.inPool b ▸ inside)

theorem MainFrame.space (frame : MainFrame s s') : SpaceFrame s s' := by
  have cib := congrArg Mount.acAllocCib frame.mount
  have addr := congrArg Spaceman.smCibAddr frame.sm
  have ring := congrArg Spaceman.ring frame.sm
  refine ⟨?_, fun start => by rw [addr, cib, start], frame.view, fun b _ => by rw [frame.dev],
    ring, .of_dev (by rw [frame.dev])⟩
  exact congrArg (fun m : Mount => { m with acAllocCib := 0 }) frame.mount

theorem ChunkFrame.space (frame : ChunkFrame s s') : SpaceFrame s s' :=
  (MainFrame.then ⟨rfl, rfl, rfl, rfl, rfl, rfl, rfl⟩ frame).space

theorem PoolFrame.space (frame : PoolFrame s s') : SpaceFrame s s' := by
  have addr := congrArg Spaceman.smCibAddr frame.sm
  refine ⟨by rw [frame.mount], fun start => ?_, frame.view, fun b _ => by rw [frame.dev],
    frame.ring, .of_dev (by rw [frame.dev])⟩
  rw [frame.mount, ← start]
  exact addr

theorem SpaceOk.allocBlocks (ok : SpaceOk s) (count near : Nat) :
    SpaceOk (allocBlocks count near s).2 ∧ SpaceFrame s (Apfs.allocBlocks count near s).2 := by
  rcases allocBlocks_spec ok.main.chunks count near with ⟨first, -, taken⟩ | ⟨e, -, refused⟩
  · exact ⟨ok.moved taken.ok taken.frame fun b inUse => (taken.used b).mpr (.inl inUse),
      taken.frame.space⟩
  · exact ⟨ok.moved refused.ok refused.frame fun b inUse => (refused.used b).mpr inUse,
      refused.frame.space⟩

/-! ### Letting go -/

theorem MainFrame.poolSame (frame : MainFrame s s') (node : s'.gFq .ip = s.gFq .ip)
    (record : s'.gSm.smFq .ip = s.gSm.smFq .ip) : PoolSame s s' := by
  have base := congrArg Mount.acIpBase frame.mount
  have blocks := congrArg Mount.acIpBlocks frame.mount
  exact ⟨base, blocks, frame.ipbm, node, record⟩

theorem MainFrame.named (frame : MainFrame s s') : s'.named = s.named := by
  have cib := congrArg Mount.acAllocCib frame.mount
  exact Kern.named_eq cib frame.cib

theorem SpaceOk.pool_unqueued (ok : SpaceOk s) (device : q ≠ .ip)
    (inside : inPool s.gApfs b = true) : s.Unqueued q b := by
  cases q with
  | ip => exact absurd rfl device
  | main => exact ok.poolUnqueued b inside
  | tier2 =>
    intro e member
    rw [ok.main.tier2] at member
    exact absurd member not_mem_nil

theorem SpaceOk.deviceQueue (ok : SpaceOk s) (device : q ≠ .ip) : QueueOk s.Used (s.queue q) := by
  cases q with
  | ip => exact absurd rfl device
  | main => exact ok.main.queue
  | tier2 =>
    rw [ok.main.tier2]
    exact ⟨by simp, List.Pairwise.nil, by simp⟩

theorem SpaceOk.releaseMain (ok : SpaceOk s) (device : q ≠ .ip) (upto : Nat) :
    SpaceOk (fqRelease s q upto) ∧ SpaceFrame s (fqRelease s q upto) := by
  obtain ⟨gone, chunks, frame⟩ := fqRelease_main device ok.main.chunks (ok.deviceQueue device)
    (fun n => ok.main.counts q n device) upto
  have same :=
    frame.poolSame (gone.others .ip (Ne.symm device)).1 (gone.others .ip (Ne.symm device)).2
  have pool : ∀ b, inPool s.gApfs b = true → (fqRelease s q upto).Used b := fun b inside =>
    gone.stay b (ok.poolUsed b inside) fun e queued _ => ok.pool_unqueued device inside e queued
  -- each queue only lost entries
  have shorter : ∀ p ≠ .ip, ((fqRelease s q upto).queue p).Sublist (s.queue p) := by
    intro p _
    by_cases here : p = q
    · rw [here]
      exact gone.kept
    · unfold Kern.queue
      rw [(gone.others p here).1]
  refine ⟨⟨⟨chunks, ?_, ?_, ?_⟩, ?_, ?_, ?_, ?_⟩, frame.space⟩
  · by_cases here : q = .main
    · subst here
      exact gone.queue
    have queue : (fqRelease s q upto).queue .main = s.queue .main := by
      unfold Kern.queue
      rw [(gone.others .main (Ne.symm here)).1]
    have other : q = .tier2 := by
      cases q with
      | ip => exact absurd rfl device
      | main => exact absurd rfl here
      | tier2 => rfl
    rw [queue]
    refine ok.main.queue.mono fun e _ b _ inUse => gone.stay b inUse ?_
    rw [other, ok.main.tier2]
    exact fun e member => absurd member not_mem_nil
  · intro p n device' found
    by_cases here : p = q
    · subst here
      exact gone.counts n found
    · obtain ⟨node, record⟩ := gone.others p here
      rw [record]
      exact ok.main.counts p n device' (node ▸ found)
  · have less := shorter .tier2 (by decide)
    rw [ok.main.tier2] at less
    exact sublist_nil.mp less
  · rw [frame.named]
    exact ok.pool.congr same
  · rw [same.base]
    exact ok.base
  · exact fun b inside => pool b (same.inPool b ▸ inside)
  · intro b inside e queued
    exact ok.poolUnqueued b (same.inPool b ▸ inside) e ((shorter .main (by decide)).subset queued)

theorem SpaceOk.releasePool (ok : SpaceOk s) (upto : Nat) :
    SpaceOk (fqRelease s .ip upto) ∧ SpaceFrame s (fqRelease s .ip upto) := by
  obtain ⟨gone, frame⟩ := fqRelease_ip ok.pool.queue ok.pool.counts upto
  have same := frame.mainSame gone.others
  have names : (fqRelease s .ip upto).named = s.named := by
    unfold Kern.named Kern.infos
    rw [frame.mount, frame.cib]
  refine ⟨ok.of (ok.main.congr same) ?_ (by rw [frame.mount]) (by rw [frame.mount]) same.used
    (same.node .main (by decide)), frame.space⟩
  rw [names]
  exact ok.pool.release upto

theorem SpaceOk.fqRelease (ok : SpaceOk s) (q : Sfq) (upto : Nat) :
    SpaceOk (fqRelease s q upto) ∧ SpaceFrame s (Apfs.fqRelease s q upto) := by
  by_cases pool : q = .ip
  · rw [pool]
    exact ok.releasePool upto
  · exact ok.releaseMain pool upto

/-! ### Giving back -/

/-- The caller of `free_blocks` owns the run: it is in use, not queued, and not the pool's. -/
structure OwnedRun (s : Kern) (first count : Nat) : Prop where
  positive : 0 < count
  used : ∀ b, first ≤ b → b < first + count → s.Used b
  unqueued : ∀ b, first ≤ b → b < first + count → s.Unqueued .main b
  outside : ∀ b, first ≤ b → b < first + count → inPool s.gApfs b = false

section
variable {first count xid : Nat}

theorem OwnedRun.release (owned : OwnedRun s first count) (ok : SpaceOk s) (upto : Nat) :
    OwnedRun (Apfs.fqRelease s .main upto) first count := by
  obtain ⟨gone, -, frame⟩ := fqRelease_main (by decide) ok.main.chunks ok.main.queue
    (fun n => ok.main.counts .main n (by decide)) upto
  have same := frame.poolSame (gone.others .ip (by decide)).1 (gone.others .ip (by decide)).2
  refine ⟨owned.positive, ?_, ?_, ?_⟩
  · exact fun b low high => gone.stay b (owned.used b low high) fun e queued _ =>
      owned.unqueued b low high e queued
  · exact fun b low high e queued => owned.unqueued b low high e (gone.kept.subset queued)
  · exact fun b low high => (same.inPool b).trans (owned.outside b low high)

theorem SpaceOk.put (ok : SpaceOk s) (owned : OwnedRun s first count) {n : FqNode}
    (found : s.gFq .main = some n) (started : 0 < xid) :
    SpaceOk (fqPut s .main n xid first count) := by
  have young : ∀ e ∈ n.ents, 0 < e.xid := fun e member =>
    (ok.main.queue.positive e (Kern.queue_of_some found ▸ member)).2
  obtain ⟨new, xidEq, paddrEq, countEq, order, counts⟩ := fqPut_spec xid first found
    owned.positive young (ok.main.counts .main n (by decide) found)
  have run : ∀ b, new.Covers b → first ≤ b ∧ b < first + count := by
    intro b covers
    rwa [FqEnt.Covers, paddrEq, countEq] at covers
  have elsewhere : ∀ p ≠ .main, (fqPut s .main n xid first count).gFq p = s.gFq p ∧
      (fqPut s .main n xid first count).gSm.smFq p = s.gSm.smFq p := fun p other =>
    ⟨Function.update_of_ne other _ _, Function.update_of_ne other _ _⟩
  have pool : PoolSame s (fqPut s .main n xid first count) :=
    ⟨rfl, rfl, rfl, (elsewhere .ip (by decide)).1, (elsewhere .ip (by decide)).2⟩
  have chunks := ok.main.chunks
  refine ⟨⟨{ chunks with }, ?_, ?_, ?_⟩, ok.pool.congr pool, ok.base, ok.poolUsed, ?_⟩
  · refine ok.main.queue.joined order (countEq ▸ owned.positive) (xidEq ▸ started) ?_ ?_
    · exact fun b covers => owned.used b (run b covers).1 (run b covers).2
    · exact fun b covers => owned.unqueued b (run b covers).1 (run b covers).2
  · intro p n' device found'
    by_cases here : p = .main
    · subst here
      exact counts n' found'
    · obtain ⟨node, record⟩ := elsewhere p here
      rw [record]
      exact ok.main.counts p n' device (node ▸ found')
  · unfold Kern.queue
    rw [(elsewhere .tier2 (by decide)).1]
    exact ok.main.tier2
  intro b inside e queued covers
  rcases mem_cons.mp (order.mem_iff.mp queued) with rfl | old
  · have outside := owned.outside b (run b covers).1 (run b covers).2
    rw [show inPool s.gApfs b = true from inside] at outside
    exact Bool.true_eq_false.mp outside
  · exact ok.poolUnqueued b inside e old covers

theorem SpaceOk.freeBlocks (ok : SpaceOk s) (owned : OwnedRun s first count) :
    SpaceOk (freeBlocks first count s).2 ∧ SpaceFrame s (Apfs.freeBlocks first count s).2 := by
  unfold Apfs.freeBlocks
  split
  · exact ⟨ok, .refl s⟩
  next =>
  obtain ⟨adm, -⟩ := chunkFor_spec ok.main.chunks first
  have frame := adm.frame
  have ok' := ok.moved adm.ok frame fun b inUse => (adm.used b).mpr inUse
  have owned' : OwnedRun (chunkFor s first).2 first count := by
    refine ⟨owned.positive, fun b low high => (adm.used b).mpr (owned.used b low high), ?_, ?_⟩
    · intro b low high
      unfold Kern.Unqueued
      rw [frame.queue]
      exact owned.unqueued b low high
    · exact fun b low high => (frame.poolSame.inPool b).trans (owned.outside b low high)
  have frame := frame.space
  split
  next t reached =>
    rw [reached] at ok' frame
    exact ⟨ok', frame⟩
  next c t reached =>
  rw [reached] at ok' owned' frame
  dsimp only
  split
  · exact ⟨ok', frame⟩
  next =>
  obtain ⟨u, early, outcome⟩ := fqInsert_cases .main (t.gApfs.acXid + 1) first count t
  have kept : SpaceOk u ∧ OwnedRun u first count ∧ SpaceFrame s u := by
    rcases early with rfl | rfl
    · exact ⟨ok', owned', frame⟩
    · exact ⟨(ok'.fqRelease .main _).1, owned'.release ok' _, frame.trans (ok'.fqRelease .main _).2⟩
  rcases outcome with ⟨n, found, result⟩ | ⟨e, result⟩
  · rw [result]
    exact ⟨kept.1.put kept.2.1 found (Nat.succ_pos _), { kept.2.2 with }⟩
  · rw [result]
    exact ⟨kept.1, kept.2.2⟩

end

/-! ### The pool -/

theorem SpaceOk.ipAlloc (ok : SpaceOk s) :
    SpaceOk (ipAlloc s).2 ∧ SpaceFrame s (Apfs.ipAlloc s).2 := by
  rcases ipAlloc_cases s with none | ⟨b, some, inside, free⟩
  · rw [none]
    exact ⟨ok, .refl s⟩
  rw [some]
  have same : MainSame s (s.takePool b) :=
    ⟨rfl, rfl, fun _ _ => rfl, rfl, rfl, rfl, fun _ _ => rfl, fun _ _ => rfl⟩
  exact ⟨ok.of (ok.main.congr same) (ok.pool.take inside free).forget rfl rfl same.used rfl,
    { SpaceFrame.refl s with }⟩

/-- The caller of `ip_free` owns the block: it is not queued and the allocator does not live in it.
-/
def OwnedPool (s : Kern) (bno : Nat) : Prop :=
  s.PoolUsed bno → s.Unqueued .ip bno ∧ bno ∉ s.named

theorem SpaceOk.ipFree (ok : SpaceOk s) {bno : Nat} (owned : OwnedPool s bno) :
    SpaceOk (ipFree bno s) ∧ SpaceFrame s (Apfs.ipFree bno s) := by
  by_cases taken : s.PoolUsed bno
  · obtain ⟨unqueued, unnamed⟩ := owned taken
    have pool : PoolOk s (bno :: s.named) := by
      refine ⟨ok.pool.queue, ok.pool.counts, ?_, ?_, nodup_cons.mpr ⟨unnamed, ok.pool.distinct⟩⟩
      · intro b member
        rcases mem_cons.mp member with rfl | named
        · exact taken
        · exact ok.pool.taken b named
      intro b member
      rcases mem_cons.mp member with rfl | named
      · exact unqueued
      · exact ok.pool.unqueued b named
    obtain ⟨gave, frame, others⟩ := pool.give
    have same := frame.mainSame others
    have names : (Apfs.ipFree bno s).named = s.named := by
      unfold Kern.named Kern.infos
      rw [frame.mount, frame.cib]
    refine ⟨ok.of (ok.main.congr same) ?_ (by rw [frame.mount]) (by rw [frame.mount]) same.used
      (same.node .main (by decide)), frame.space⟩
    rw [names]
    exact gave
  -- the bit is clear or the block is not the pool's, and `ip_free` says so and returns
  have refused : Apfs.ipFree bno s = s := by
    refine if_neg fun test => taken ?_
    simp only [Bool.and_eq_true] at test
    exact ⟨test.1.2, test.2⟩
  rw [refused]
  exact ⟨ok, .refl s⟩

/-! ### Runs -/

/-- The routines that touch the accounts. -/
inductive SpaceOp
  | allocBlocks (count near : Nat)
  | freeBlocks (first count : Nat)
  | ipAlloc
  | ipFree (bno : Nat)
  | fqRelease (q : Sfq) (upto : Nat)
  | allocFlush (xid : Nat)

/-- The state a routine leaves, whether it succeeded or not. -/
def SpaceOp.run : SpaceOp → Kern → Kern
  | .allocBlocks count near, s => (Apfs.allocBlocks count near s).2
  | .freeBlocks first count, s => (Apfs.freeBlocks first count s).2
  | .ipAlloc, s => (Apfs.ipAlloc s).2
  | .ipFree bno, s => Apfs.ipFree bno s
  | .fqRelease q upto, s => Apfs.fqRelease s q upto
  | .allocFlush xid, s => (Apfs.allocFlush xid s).2

/-- What the caller answers for. -/
def SpaceOp.Owned : SpaceOp → Kern → Prop
  | .freeBlocks first count, s => OwnedRun s first count
  | .ipFree bno, s => OwnedPool s bno
  | _, _ => True

def SpaceStep (s s' : Kern) : Prop := ∃ op : SpaceOp, op.Owned s ∧ s' = op.run s

theorem SpaceOk.step (ok : SpaceOk s) (step : SpaceStep s s') : SpaceOk s' ∧ SpaceFrame s s' := by
  obtain ⟨op, owned, rfl⟩ := step
  cases op with
  | allocBlocks count near => exact ok.allocBlocks count near
  | freeBlocks first count => exact ok.freeBlocks owned
  | ipAlloc => exact ok.ipAlloc
  | ipFree bno => exact ok.ipFree owned
  | fqRelease q upto => exact ok.fqRelease q upto
  | allocFlush xid =>
    have flushed := (allocFlush_flushed ok xid).1
    exact ⟨flushed.ok, flushed.frame⟩

theorem SpaceOk.run (ok : SpaceOk s) (steps : Relation.ReflTransGen SpaceStep s s') :
    SpaceOk s' := by
  induction steps with
  | refl => exact ok
  | tail _ step ih => exact (ih.step step).1

theorem SpaceOk.queued_inPool (ok : SpaceOk s) {e : FqEnt} (member : e ∈ s.queue .ip)
    (covers : e.Covers b) : inPool s.gApfs b = true :=
  (ok.pool.queue.marked e member b covers).1

/-- In every state reached from a consistent mount the counters are the bits, what is queued is
marked and queued once, each queue's record is its entries, and a run handed out was free. -/
theorem space_accounting (mounted : SpaceOk s) (steps : Relation.ReflTransGen SpaceStep s s') :
    (∀ ch ∈ s'.gChunk, ∃ ci, s'.infos[ch.chSlot]? = some ci ∧
      ci.ciFreeCount = clearCount ch.chBm ch.chBlocks) ∧
    s'.gSm.smFreeCount = (s'.infos.map ChunkInfo.ciFreeCount).sum ∧
    s'.gApfs.acSmFree = s'.gSm.smFreeCount ∧
    (∀ e ∈ s'.queue .main, ∀ b, e.Covers b → s'.Used b) ∧
    (∀ e ∈ s'.queue .ip, ∀ b, e.Covers b → s'.PoolUsed b) ∧
    (∀ q, (s'.queue q).Pairwise fun e e' => ∀ b, e.Covers b → ¬ e'.Covers b) ∧
    (∀ q n, s'.gFq q = some n → (s'.gSm.smFq q).sfqCount = (n.ents.map FqEnt.count).sum ∧
      IsOldest n.ents (s'.gSm.smFq q).sfqOldestXid) ∧
    ∀ count near first t, allocBlocks count near s' = (.ok first, t) →
      (∃ ci ∈ s'.infos, ci.ciAddr ≤ first ∧ first + count ≤ ci.ciAddr + ci.ciBlockCount) ∧
      (∀ b, first ≤ b → b < first + count → ¬ s'.Used b ∧ (∀ q, s'.Unqueued q b) ∧ t.Used b) ∧
      ∀ b, ¬ (first ≤ b ∧ b < first + count) → (t.Used b ↔ s'.Used b) := by
  have ok := mounted.run steps
  have chunks := ok.main.chunks
  refine ⟨?_, chunks.total, chunks.mirror, ok.main.queue.marked, ok.pool.queue.marked, ?_, ?_, ?_⟩
  · intro ch member
    obtain ⟨k, found⟩ := mem_iff_getElem?.mp member
    obtain ⟨ci, info, -, blocks, -⟩ := chunks.held ch member
    have counted := chunks.counted _ ci info
    rw [Kern.chunkBits, chunks.heldBits_eq found, ← blocks] at counted
    exact ⟨ci, info, counted⟩
  · intro q
    by_cases pool : q = .ip
    · rw [pool]
      exact ok.pool.queue.apart
    · exact (ok.deviceQueue pool).apart
  · intro q n found
    have counts : CountsOk n.ents (s'.gSm.smFq q) := by
      by_cases pool : q = .ip
      · subst pool
        exact ok.pool.counts n found
      · exact ok.main.counts q n pool found
    exact ⟨counts.count, counts.oldest⟩
  intro count near first t returned
  have taken : Taken s' t first count := by
    rcases allocBlocks_spec chunks count near with ⟨first', result, taken⟩ | ⟨e, result, -⟩
    · rw [returned] at result taken
      cases result
      exact taken
    · rw [returned] at result
      cases result
  refine ⟨taken.inside, fun b low high => ⟨taken.free b low high, ?_, ?_⟩, fun b outside => ?_⟩
  · -- a queued block is marked: in the bitmaps, or in a pool that the bitmaps mark
    intro q e queued covers
    apply taken.free b low high
    by_cases pool : q = .ip
    · subst pool
      exact ok.poolUsed b (ok.queued_inPool queued covers)
    · exact (ok.deviceQueue pool).marked e queued b covers
  · exact (taken.used b).mpr (.inr ⟨low, high⟩)
  · rw [taken.used b]
    exact or_iff_left outside

/-! ### A small container -/

/-- Thirty-two blocks in one chunk, twenty-four of them in use. Blocks 4 to 7 are the pool: the
chunk's bitmap, the chunk-info block, one block a caller has taken and one that is free. The
rings follow it: pool bitmaps from 8, descriptors from 12, checkpoint data from 16. -/
def smallKern : Kern where
  gApfs := { (default : Mount) with
    acXid := 4, acNextXid := 5, acSmFree := 8, acIpValid := true, acIpBase := 4, acIpBlocks := 4
    acIpbmBase := 8, acIpbmSlots := 4, acIpbmSlot := 0, acAllocHave := true, acAllocCib := 5
    acXpDescBase := 12, acXpDescBlocks := 4, acXpDescIndex := 0, acXpDescLen := 2, acXpDescNext := 2
    acXpDataBase := 16, acXpDataBlocks := 8, acXpDataIndex := 0, acXpDataLen := 3, acXpDataNext := 3
    acSpacemanOid := 1, acSbBno := 13, acSmPaddr := 16
    acEph := [⟨1, 16, 0, 0, 0, 4096⟩, ⟨2, 17, 0, 0, 0, 4096⟩, ⟨3, 18, 0, 0, 0, 4096⟩] }
  gSm :=
    { oOid := 1, oXid := 4, smFreeCount := 8, smCibAddr := 5, smIpBlockCount := 4
      smIpBmBlockCount := 4, smIpBmBase := 8, smIpBase := 4
      smFq := fun q => ⟨0, match q with | .ip => 2 | .main => 3 | .tier2 => 0, 0⟩
      smIpBmFreeHead := 1, smIpBmFreeTail := 3, smIpBmFreeNext := [0xFFFF, 2, 3, 0xFFFF]
      smIpBmXid := 4, smIpBitmap := 0 }
  gFq
    | .tier2 => none
    | _ => some { (default : FqNode) with tocLen := 64, freeLen := 1024 }
  gIpbm i := decide (i < 3)
  gChunk := [⟨fun i => decide (i < 24), 0, 4, 32, 0, false⟩]
  gHome := some 0
  gCib := ⟨5, 4, [⟨4, 0, 32, 8, 4⟩]⟩
  fqFloor := 3
  gView := none
  dev :=
    { disk := fun b =>
        if b = 4 then .bits fun i => decide (i < 24)
        else if b = 5 then .cib ⟨5, 4, [⟨4, 0, 32, 8, 4⟩]⟩
        else if b = 13 then .nxsb { (default : NxSuperblock) with
          oXid := 4, nxSpacemanOid := 1, nxXpDescBase := 12, nxXpDescBlocks := 4, nxXpDataBase := 16
          nxXpDataBlocks := 8 }
        else .torn
      log := []
      refuse := [] }

theorem smallKern_used (b : Nat) : smallKern.Used b ↔ b < 24 := by
  constructor
  · rintro ⟨i, ci, info, -, set⟩
    cases i with
    | zero =>
      cases info
      simpa [Kern.chunkBits, Kern.heldBits, smallKern] using set
    | succ i => simp [Kern.infos, smallKern] at info
  intro low
  refine ⟨0, _, rfl, covers_iff.mpr ⟨Nat.zero_le _, ?_⟩, ?_⟩
  · change b < 0 + 32
    omega
  · simpa [Kern.chunkBits, Kern.heldBits, smallKern] using low

theorem smallKern_poolUsed (b : Nat) : smallKern.PoolUsed b ↔ 4 ≤ b ∧ b < 7 := by
  rw [Kern.PoolUsed, inPool_iff]
  change (4 ≤ b ∧ b < 4 + 4) ∧ decide (b - 4 < 3) = true ↔ _
  rw [decide_eq_true_eq]
  omega

theorem smallKern_ok : SpaceOk smallKern := by
  have empty : ∀ marked : Nat → Prop, QueueOk marked [] :=
    fun _ => ⟨by simp, List.Pairwise.nil, by simp⟩
  have counts : ∀ q n, smallKern.gFq q = some n → CountsOk n.ents (smallKern.gSm.smFq q) := by
    intro q n found
    have ents : n.ents = [] := by
      cases q <;> cases found <;> rfl
    rw [ents]
    exact ⟨rfl, .inl ⟨rfl, rfl⟩⟩
  refine ⟨⟨⟨?_, ?_, by decide, ?_, rfl, rfl, ?_, ?_, ?_⟩, empty _, fun q n _ => counts q n, rfl⟩,
    ⟨empty _, counts .ip, ?_, ?_, by decide⟩, by decide, ?_, ?_⟩
  · intro i j ci cj b infoI infoJ _ _
    cases i <;> cases j <;> simp [Kern.infos, smallKern] at infoI infoJ ⊢
  · intro ch member
    rw [mem_singleton.mp member]
    exact ⟨_, rfl, rfl, rfl, rfl⟩
  · intro i ci info
    cases i with
    | zero =>
      cases info
      decide
    | succ i => simp [Kern.infos, smallKern] at info
  · rintro c ⟨⟩
    decide
  · intro ch member
    rw [mem_singleton.mp member]
    decide
  · intro ch member _
    rw [mem_singleton.mp member]
    rfl
  · intro b named
    rw [smallKern_poolUsed]
    have : b = 5 ∨ b = 4 := by simpa [Kern.named, Kern.infos, smallKern] using named
    omega
  · exact fun _ _ e queued => absurd queued not_mem_nil
  · intro b inside
    rw [smallKern_used]
    obtain ⟨-, high⟩ : 4 ≤ b ∧ b < 4 + 4 := inPool_iff.mp inside
    omega
  · exact fun _ _ e queued => absurd queued not_mem_nil

theorem smallKern_owned : OwnedRun smallKern 2 2 := by
  refine ⟨by decide, fun b _ high => (smallKern_used b).mpr (by omega), ?_, ?_⟩
  · exact fun b _ _ e queued => absurd queued not_mem_nil
  intro b low high
  obtain rfl | rfl : b = 2 ∨ b = 3 := by omega
  all_goals rfl

/-- Two blocks and a pool block are given back, two runs taken, and the queues let go. -/
def smallOps : List SpaceOp :=
  [.freeBlocks 2 2, .ipFree 6, .allocBlocks 2 0, .allocBlocks 3 0, .fqRelease .main 5,
    .fqRelease .ip 5]

theorem space_accounting_small : SpaceOk smallKern ∧ ∃ s',
    Relation.ReflTransGen SpaceStep smallKern s' ∧
      s' = smallOps.foldl (fun s op => op.run s) smallKern ∧
      s'.gSm.smFreeCount = 5 ∧ s'.gIpbm 2 = false ∧
      s'.gSm.smFreeCount = (s'.infos.map ChunkInfo.ciFreeCount).sum := by
  have pool : OwnedPool (freeBlocks 2 2 smallKern).2 6 := fun _ =>
    ⟨fun e queued => absurd queued not_mem_nil, by decide⟩
  have run : Relation.ReflTransGen SpaceStep smallKern
      (smallOps.foldl (fun s op => op.run s) smallKern) :=
    .head ⟨.freeBlocks 2 2, smallKern_owned, rfl⟩ <| .head ⟨.ipFree 6, pool, rfl⟩ <|
      .head ⟨.allocBlocks 2 0, trivial, rfl⟩ <| .head ⟨.allocBlocks 3 0, trivial, rfl⟩ <|
      .head ⟨.fqRelease .main 5, trivial, rfl⟩ <| .single ⟨.fqRelease .ip 5, trivial, rfl⟩
  exact ⟨smallKern_ok, _, run, rfl, by decide +kernel, by decide +kernel,
    (space_accounting smallKern_ok run).2.1⟩

/-- A pool block given back twice is queued twice: the second `ip_free` looks at the bit only,
and the bit stays set while the block is queued. -/
theorem ip_free_twice_overlaps : SpaceOk smallKern ∧ OwnedPool smallKern 6 ∧
    ¬ ((ipFree 6 (ipFree 6 smallKern)).queue .ip).Pairwise fun e e' => ∀ b, e.Covers b →
      ¬ e'.Covers b := by
  refine ⟨smallKern_ok, fun _ => ⟨fun e queued => absurd queued not_mem_nil, by decide⟩, ?_⟩
  have twice : ((ipFree 6 (ipFree 6 smallKern)).queue .ip).map (fun e => (e.paddr, e.count)) =
      [(6, 1), (6, 1)] := by decide
  intro apart
  obtain ⟨e, e', same⟩ : ∃ e e', (ipFree 6 (ipFree 6 smallKern)).queue .ip = [e, e'] :=
    length_eq_two.mp (by simpa using congrArg length twice)
  rw [same] at apart twice
  simp only [map_cons, map_nil, cons.injEq, Prod.mk.injEq] at twice
  obtain ⟨⟨place, count⟩, place', count'⟩ := twice
  have disjoint := (pairwise_cons.mp apart).1 e' mem_cons_self 6
  exact disjoint ⟨by omega, by omega⟩ ⟨by omega, by omega⟩

end Style9.Apfs
