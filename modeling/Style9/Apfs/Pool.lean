import Style9.Apfs.Release

/-!
# The internal pool

A block of the pool is free, queued, or held by someone: the allocator names the ones its
bitmaps and its chunk-info block live in, and a caller of `ip_alloc` holds what it got until
it gives it to `ip_free`. `PoolOk` follows a list of held blocks through both.
-/
namespace Style9.Apfs

open Style9.Lib Function List

variable {s s' : Kern} {q : Sfq} {xid paddr count b : Nat} {held : List Nat}

/-! ### `fq_insert` -/

def Kern.Unqueued (s : Kern) (q : Sfq) (b : Nat) : Prop := ∀ e ∈ s.queue q, ¬ e.Covers b

/-- Either there is room, or everything but the newest transaction is let go early; then the
entry goes in or is refused. -/
theorem fqInsert_cases (q : Sfq) (xid paddr count : Nat) (s : Kern) :
    ∃ t, (t = s ∨ t = fqRelease s q (xid - 1)) ∧
      ((∃ n, t.gFq q = some n ∧
        fqInsert q xid paddr count s = (.ok (), fqPut t q n xid paddr count)) ∨
        ∃ e, fqInsert q xid paddr count s = (.error e, t)) := by
  unfold fqInsert
  split
  · exact ⟨s, .inl rfl, .inr ⟨_, rfl⟩⟩
  next n found =>
  split
  · exact ⟨s, .inl rfl, .inl ⟨n, found, rfl⟩⟩
  next =>
  refine ⟨_, .inr rfl, ?_⟩
  dsimp only
  split
  · exact .inr ⟨_, rfl⟩
  next n' found' =>
    split
    · exact .inl ⟨n', found', rfl⟩
    · exact .inr ⟨_, rfl⟩

theorem fqPut_spec {n : FqNode} (xid paddr : Nat) (found : s.gFq q = some n) (positive : 0 < count)
    (young : ∀ e ∈ n.ents, 0 < e.xid) (counts : CountsOk n.ents (s.gSm.smFq q)) :
    ∃ new : FqEnt, new.xid = xid ∧ new.paddr = paddr ∧ new.count = count ∧
      ((fqPut s q n xid paddr count).queue q).Perm (new :: s.queue q) ∧
      ∀ n', (fqPut s q n xid paddr count).gFq q = some n' →
        CountsOk n'.ents ((fqPut s q n xid paddr count).gSm.smFq q) := by
  obtain ⟨new, xidEq, paddrEq, countEq, ents⟩ := n.insert_ents xid paddr positive
  have order := fqOrdered_perm new n.ents
  have node : (fqPut s q n xid paddr count).gFq q = some (n.insert xid paddr count) :=
    update_self q _ _
  have record : (fqPut s q n xid paddr count).gSm.smFq q = { s.gSm.smFq q with
      sfqCount := (s.gSm.smFq q).sfqCount + count
      sfqOldestXid := if (s.gSm.smFq q).sfqOldestXid = 0 ∨ xid < (s.gSm.smFq q).sfqOldestXid
        then xid
        else (s.gSm.smFq q).sfqOldestXid } := update_self q _ _
  refine ⟨new, xidEq, paddrEq, countEq, ?_, ?_⟩
  · rw [Kern.queue_of_some node, Kern.queue_of_some found, ents]
    exact order
  intro n' here
  cases node.symm.trans here
  rw [record, ents]
  constructor
  · change (s.gSm.smFq q).sfqCount + count = _
    rw [(order.map FqEnt.count).sum_eq, map_cons, sum_cons, countEq, counts.count]
    omega
  · have oldest := counts.oldest.insert (e := new) young
    rw [xidEq] at oldest
    exact oldest.perm order.symm

theorem QueueOk.joined {marked : Nat → Prop} {ents ents' : List FqEnt} {new : FqEnt}
    (ok : QueueOk marked ents) (order : ents'.Perm (new :: ents)) (positive : 0 < new.count)
    (started : 0 < new.xid) (inUse : ∀ b, new.Covers b → marked b)
    (fresh : ∀ b, new.Covers b → ∀ e ∈ ents, ¬ e.Covers b) : QueueOk marked ents' :=
  (ok.cons positive started inUse fresh).perm order.symm

/-! ### Who holds the pool's blocks -/

/-- The pool's queue is in order, and every held block is taken, not queued and held once. -/
structure PoolOk (s : Kern) (held : List Nat) : Prop where
  queue : QueueOk s.PoolUsed (s.queue .ip)
  counts : ∀ n, s.gFq .ip = some n → CountsOk n.ents (s.gSm.smFq .ip)
  taken : ∀ b ∈ held, s.PoolUsed b
  unqueued : ∀ b ∈ held, s.Unqueued .ip b
  distinct : held.Nodup

theorem PoolOk.perm {held' : List Nat} (ok : PoolOk s held) (same : held.Perm held') :
    PoolOk s held' :=
  ⟨ok.queue, ok.counts, fun b member => ok.taken b (same.mem_iff.mpr member),
    fun b member => ok.unqueued b (same.mem_iff.mpr member), same.nodup_iff.mp ok.distinct⟩

theorem PoolOk.forget (ok : PoolOk s (b :: held)) : PoolOk s held :=
  ⟨ok.queue, ok.counts, fun b member => ok.taken b (mem_cons_of_mem _ member),
    fun b member => ok.unqueued b (mem_cons_of_mem _ member), (nodup_cons.mp ok.distinct).2⟩

structure PoolSame (s s' : Kern) : Prop where
  base : s'.gApfs.acIpBase = s.gApfs.acIpBase
  blocks : s'.gApfs.acIpBlocks = s.gApfs.acIpBlocks
  ipbm : s'.gIpbm = s.gIpbm
  node : s'.gFq .ip = s.gFq .ip
  record : s'.gSm.smFq .ip = s.gSm.smFq .ip

theorem PoolSame.poolUsed (same : PoolSame s s') (b : Nat) : s'.PoolUsed b ↔ s.PoolUsed b := by
  unfold Kern.PoolUsed inPool
  rw [same.base, same.blocks, same.ipbm]

theorem PoolSame.queue (same : PoolSame s s') : s'.queue .ip = s.queue .ip := by
  unfold Kern.queue
  rw [same.node]

theorem PoolOk.congr (ok : PoolOk s held) (same : PoolSame s s') : PoolOk s' held := by
  refine ⟨?_, ?_, fun b member => (same.poolUsed b).mpr (ok.taken b member), ?_, ok.distinct⟩
  · rw [same.queue]
    exact ok.queue.mono fun e _ b _ inUse => (same.poolUsed b).mpr inUse
  · rw [same.node, same.record]
    exact ok.counts
  intro b member
  unfold Kern.Unqueued
  rw [same.queue]
  exact ok.unqueued b member

theorem PoolOk.release (ok : PoolOk s held) (upto : Nat) : PoolOk (fqRelease s .ip upto) held := by
  obtain ⟨gone, -⟩ := fqRelease_ip ok.queue ok.counts upto
  refine ⟨gone.queue, gone.counts, ?_, ?_, ok.distinct⟩
  · exact fun b member => gone.stay b (ok.taken b member) fun e queued _ =>
      ok.unqueued b member e queued
  · exact fun b member e queued => ok.unqueued b member e (gone.kept.subset queued)

/-! ### `ip_alloc` and `ip_free` -/

def Kern.takePool (s : Kern) (b : Nat) : Kern :=
  { s with gIpbm := update s.gIpbm (b - s.gApfs.acIpBase) true }

theorem ipAlloc_cases (s : Kern) : ipAlloc s = (none, s) ∨
    ∃ b, ipAlloc s = (some b, s.takePool b) ∧ inPool s.gApfs b = true ∧ ¬ s.PoolUsed b := by
  unfold ipAlloc Kern.takePool
  split
  · split
    next i first =>
      have member := mem_of_find?_eq_some first
      have clear := List.find?_some first
      simp only [mem_range, Bool.not_eq_true'] at member clear
      have index : s.gApfs.acIpBase + i - s.gApfs.acIpBase = i := Nat.add_sub_cancel_left _ _
      refine .inr ⟨s.gApfs.acIpBase + i, by rw [index], by simp [inPool, member], ?_⟩
      rintro ⟨-, set⟩
      rw [index, clear] at set
      exact Bool.false_ne_true set
    · exact .inl rfl
  · exact .inl rfl

theorem PoolOk.take (ok : PoolOk s held) (inside : inPool s.gApfs b = true)
    (free : ¬ s.PoolUsed b) :
    PoolOk (s.takePool b) (b :: held) := by
  have more : ∀ x, s.PoolUsed x → (s.takePool b).PoolUsed x := by
    rintro x ⟨insideX, set⟩
    refine ⟨insideX, ?_⟩
    change update s.gIpbm (b - s.gApfs.acIpBase) true (x - s.gApfs.acIpBase) = true
    by_cases same : x - s.gApfs.acIpBase = b - s.gApfs.acIpBase
    · rw [same, update_self]
    · rwa [update_of_ne same]
  refine ⟨ok.queue.mono fun e _ x _ => more x, ok.counts, ?_, ?_, ?_⟩
  · intro x member
    rcases mem_cons.mp member with rfl | old
    · exact ⟨inside, update_self _ _ _⟩
    · exact more x (ok.taken x old)
  · intro x member e queued covers
    rcases mem_cons.mp member with rfl | old
    · exact free (ok.queue.marked e queued x covers)
    · exact ok.unqueued x old e queued covers
  · exact nodup_cons.mpr ⟨fun member => free (ok.taken b member), ok.distinct⟩

theorem PoolOk.give (ok : PoolOk s (b :: held)) :
    PoolOk (ipFree b s) held ∧ PoolFrame s (ipFree b s) ∧
    ∀ p ≠ .ip, (ipFree b s).gFq p = s.gFq p ∧ (ipFree b s).gSm.smFq p = s.gSm.smFq p := by
  unfold ipFree
  split
  · obtain ⟨t, source, outcome⟩ := fqInsert_cases .ip (s.gApfs.acXid + 1) b 1 s
    -- an early release changes the pool only, and keeps what is held
    have early : PoolOk t (b :: held) ∧ PoolFrame s t ∧
        ∀ p ≠ .ip, t.gFq p = s.gFq p ∧ t.gSm.smFq p = s.gSm.smFq p := by
      rcases source with rfl | rfl
      · exact ⟨ok, ⟨rfl, rfl, rfl, rfl, rfl, rfl, rfl⟩, fun _ _ => ⟨rfl, rfl⟩⟩
      · obtain ⟨gone, frame⟩ := fqRelease_ip ok.queue ok.counts (s.gApfs.acXid + 1 - 1)
        exact ⟨ok.release _, frame, gone.others⟩
    obtain ⟨ok', frame, others⟩ := early
    unfold Act.ignore
    rcases outcome with ⟨n, found, result⟩ | ⟨e, result⟩
    · rw [result]
      have counts := ok'.counts n found
      have entries := Kern.queue_of_some found
      have young : ∀ e ∈ n.ents, 0 < e.xid := fun e member =>
        (ok'.queue.positive e (entries ▸ member)).2
      obtain ⟨new, xidEq, paddrEq, countEq, order, counts'⟩ :=
        fqPut_spec _ b found Nat.one_pos young counts
      have own : ∀ x, new.Covers x ↔ x = b := by
        intro x
        unfold FqEnt.Covers
        rw [paddrEq, countEq]
        omega
      refine ⟨⟨?_, counts', ?_, ?_, (nodup_cons.mp ok'.distinct).2⟩, ?_, ?_⟩
      · refine ok'.queue.joined order (by omega) (by omega) ?_ ?_
        · intro x covers
          rw [(own x).mp covers]
          exact ok'.taken b mem_cons_self
        · intro x covers
          rw [(own x).mp covers]
          exact ok'.unqueued b mem_cons_self
      · exact fun x member => ok'.taken x (mem_cons_of_mem _ member)
      · intro x member e queued covers
        rcases mem_cons.mp (order.mem_iff.mp queued) with rfl | old
        · rw [(own x).mp covers] at member
          exact (nodup_cons.mp ok'.distinct).1 member
        · exact ok'.unqueued x (mem_cons_of_mem _ member) e old covers
      · exact { frame with }
      · intro p other
        obtain ⟨node, record⟩ := others p other
        exact ⟨(update_of_ne other _ _).trans node, (update_of_ne other _ _).trans record⟩
    · rw [result]
      exact ⟨ok'.forget, frame, others⟩
  · exact ⟨ok.forget, ⟨rfl, rfl, rfl, rfl, rfl, rfl, rfl⟩, fun _ _ => ⟨rfl, rfl⟩⟩

end Style9.Apfs
