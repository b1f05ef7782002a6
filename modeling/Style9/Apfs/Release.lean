import Style9.Apfs.Queues

/-!
# Letting go of queued blocks

`fq_release` walks one queue and lets go of every entry at or below an xid whose chunk it can
reach. The loop is followed with the entries still to come: what is kept so far and what
remains together form the queue, and the blocks marked are the ones marked before less those
of the entries let go.
-/
namespace Style9.Apfs

open Style9.Lib Function List

variable {s s' s₀ : Kern} {q : Sfq} {upto : Nat} {n : FqNode} {marked : Kern → Nat → Prop}
  {w : FqSweep} {e : FqEnt}

theorem inPool_iff {m : Mount} {b : Nat} :
    inPool m b = true ↔ m.acIpBase ≤ b ∧ b < m.acIpBase + m.acIpBlocks := by
  simp [inPool]

def Kern.PoolUsed (s : Kern) (b : Nat) : Prop :=
  inPool s.gApfs b = true ∧ s.gIpbm (b - s.gApfs.acIpBase) = true

/-- The loop of `fq_release` from state `s`, with `done` behind it and `rest` to come. -/
structure Swept (s : Kern) (q : Sfq) (upto : Nat) (marked : Kern → Nat → Prop)
    (done rest : List FqEnt) (w : FqSweep) : Prop where
  kept : w.kept.Sublist done
  young : ∀ e ∈ done, upto < e.xid → e ∈ w.kept
  queue : QueueOk (marked w.kern) (w.kept ++ rest)
  count : (w.kern.gSm.smFq q).sfqCount = ((w.kept ++ rest).map FqEnt.count).sum
  oldest : (w.kern.gSm.smFq q).sfqOldestXid = (s.gSm.smFq q).sfqOldestXid
  down : ∀ b, marked w.kern b → marked s b
  stay : ∀ b, marked s b → (∀ e ∈ done, e.xid ≤ upto → ¬ e.Covers b) → marked w.kern b
  fq : w.kern.gFq = s.gFq
  floor : w.kern.fqFloor = s.fqFloor
  others : ∀ p ≠ q, w.kern.gSm.smFq p = s.gSm.smFq p

section
variable {marked : Kern → Nat → Prop} {done rest : List FqEnt} {w : FqSweep} {e : FqEnt} {t : Kern}

theorem Swept.keep (swept : Swept s q upto marked done (e :: rest) w)
    (same : ∀ b, marked t b ↔ marked w.kern b) (fq : t.gFq = w.kern.gFq)
    (floor : t.fqFloor = w.kern.fqFloor) (sm : t.gSm.smFq = w.kern.gSm.smFq) :
    Swept s q upto marked (done ++ [e]) rest { w with kern := t, kept := w.kept ++ [e] } := by
  have list : w.kept ++ [e] ++ rest = w.kept ++ e :: rest := by simp
  refine ⟨swept.kept.append_right _, ?_, ?_, ?_, ?_, ?_, ?_, fq.trans swept.fq,
    floor.trans swept.floor, ?_⟩
  · intro f member older
    rcases mem_append.mp member with old | new
    · exact mem_append_left _ (swept.young f old older)
    · exact mem_append_right _ new
  · rw [list]
    exact swept.queue.mono fun f member b covers inUse => (same b).mpr inUse
  · rw [list, sm]
    exact swept.count
  · rw [sm]
    exact swept.oldest
  · exact fun b inUse => swept.down b ((same b).mp inUse)
  · intro b inUse clear
    exact (same b).mpr (swept.stay b inUse fun f member => clear f (mem_append_left _ member))
  · intro p other
    rw [sm]
    exact swept.others p other

theorem Swept.dropEnt (swept : Swept s q upto marked done (e :: rest) w) (old : e.xid ≤ upto)
    (indep : ∀ fq b, marked (t.setFq q fq) b ↔ marked t b)
    (cleared : ∀ b, marked t b ↔ marked w.kern b ∧ ¬ e.Covers b) (fq : t.gFq = w.kern.gFq)
    (floor : t.fqFloor = w.kern.fqFloor) (sm : t.gSm.smFq = w.kern.gSm.smFq) :
    Swept s q upto marked (done ++ [e]) rest (w.drop q e t) := by
  have now : ((w.drop q e t).kern.gSm.smFq q) =
      { w.kern.gSm.smFq q with sfqCount := (w.kern.gSm.smFq q).sfqCount - e.count } := by
    change update t.gSm.smFq q _ q = _
    rw [update_self, sm]
  have same : ∀ b, marked (w.drop q e t).kern b ↔ marked w.kern b ∧ ¬ e.Covers b :=
    fun b => (indep _ b).trans (cleared b)
  refine ⟨swept.kept.trans (sublist_append_left _ _), ?_, ?_, ?_, ?_, ?_, ?_,
    fq.trans swept.fq, floor.trans swept.floor, ?_⟩
  · intro f member older
    rcases mem_append.mp member with was | new
    · exact swept.young f was older
    · rw [mem_singleton.mp new] at older
      omega
  · exact swept.queue.remove fun b inUse outside => (same b).mpr ⟨inUse, outside⟩
  · rw [now]
    have summed := swept.count
    simp only [map_append, sum_append, map_cons, sum_cons] at summed ⊢
    have : (w.drop q e t).kept = w.kept := rfl
    rw [this]
    omega
  · rw [now]
    exact swept.oldest
  · exact fun b inUse => swept.down b ((same b).mp inUse).1
  · intro b inUse clear
    refine (same b).mpr ⟨swept.stay b inUse fun f member => clear f (mem_append_left _ member), ?_⟩
    exact clear e (mem_append_right _ (mem_singleton.mpr rfl)) old
  intro p other
  change update t.gSm.smFq q _ p = _
  rw [update_of_ne other, sm]
  exact swept.others p other

end

/-! ### The whole loop -/

/-- What a release leaves of its queue and of the marks. -/
structure LetGo (s s' : Kern) (q : Sfq) (upto : Nat) (marked : Kern → Nat → Prop) : Prop where
  kept : (s'.queue q).Sublist (s.queue q)
  young : ∀ e ∈ s.queue q, upto < e.xid → e ∈ s'.queue q
  queue : QueueOk (marked s') (s'.queue q)
  counts : ∀ n, s'.gFq q = some n → CountsOk n.ents (s'.gSm.smFq q)
  down : ∀ b, marked s' b → marked s b
  stay : ∀ b, marked s b → (∀ e ∈ s.queue q, e.xid ≤ upto → ¬ e.Covers b) → marked s' b
  others : ∀ p ≠ q, s'.gFq p = s.gFq p ∧ s'.gSm.smFq p = s.gSm.smFq p
  present : s'.gFq q = none ↔ s.gFq q = none
  floor : s'.fqFloor = max s.fqFloor upto

theorem Kern.queue_of_some (found : s.gFq q = some n) : s.queue q = n.ents := by
  rw [Kern.queue, found]

theorem FqNode.afterSweep_ents (n : FqNode) (w : FqSweep) : (n.afterSweep w).ents = w.kept := by
  unfold FqNode.afterSweep
  split
  next empty => exact (List.isEmpty_iff.mp empty).symm
  · rfl

/-- `fq_release`'s first step. -/
def Kern.raiseFloor (s : Kern) (upto : Nat) : Kern := { s with fqFloor := max s.fqFloor upto }

theorem Swept.finish (found : s.gFq q = some n)
    (counts : CountsOk n.ents (s.gSm.smFq q))
    (raised : ∀ b, marked (s.raiseFloor upto) b ↔ marked s b)
    (indep : ∀ (t : Kern) fq nodes b, marked { t.setFq q fq with gFq := nodes } b ↔ marked t b)
    (swept : Swept (s.raiseFloor upto) q upto marked n.ents [] w) :
    LetGo s (if w.kept.length = n.ents.length then w.kern
      else { w.kern.setFq q { w.kern.gSm.smFq q with sfqOldestXid := fqOldest w.kept } with
        gFq := update w.kern.gFq q (some (n.afterSweep w)) }) q upto marked := by
  have entries := Kern.queue_of_some found
  have queue := swept.queue
  have count := swept.count
  rw [append_nil] at queue count
  have nodes : w.kern.gFq = s.gFq := swept.fq
  have down : ∀ b, marked w.kern b → marked s b := fun b inUse => (raised b).mp (swept.down b inUse)
  have stay : ∀ b, marked s b → (∀ e ∈ s.queue q, e.xid ≤ upto → ¬ e.Covers b) →
      marked w.kern b := by
    intro b inUse clear
    rw [entries] at clear
    exact swept.stay b ((raised b).mpr inUse) clear
  split
  next all =>
    -- nothing was let go, so the kept entries are the queue
    have same := swept.kept.eq_of_length all
    have entries' : w.kern.queue q = n.ents := by
      rw [Kern.queue, nodes, found]
    rw [same] at queue count
    refine ⟨by rw [entries, entries'], by rw [entries, entries']; exact fun e member _ => member,
      by rwa [entries'], ?_, down, stay, fun p other => ⟨by rw [nodes], swept.others p other⟩,
      by rw [nodes], swept.floor⟩
    intro n' found'
    cases found.symm.trans (nodes ▸ found')
    exact ⟨count, by rw [swept.oldest]; exact counts.oldest⟩
  next fewer =>
  have after : ({ w.kern.setFq q { w.kern.gSm.smFq q with sfqOldestXid := fqOldest w.kept } with
      gFq := update w.kern.gFq q (some (n.afterSweep w)) } : Kern).queue q = w.kept := by
    rw [Kern.queue]
    simp only [update_self, FqNode.afterSweep_ents]
  refine ⟨by rw [entries, after]; exact swept.kept, by rw [entries, after]; exact swept.young, ?_,
    ?_, fun b inUse => down b ((indep _ _ _ b).mp inUse),
    fun b inUse clear => (indep _ _ _ b).mpr (stay b inUse clear), ?_, by simp [found], swept.floor⟩
  · rw [after]
    exact queue.mono fun e _ b _ inUse => (indep _ _ _ b).mpr inUse
  · intro n' found'
    simp only [update_self, Option.some.injEq] at found'
    subst found'
    rw [FqNode.afterSweep_ents]
    have record : (({ w.kern.setFq q { w.kern.gSm.smFq q with sfqOldestXid := fqOldest w.kept } with
        gFq := update w.kern.gFq q (some (n.afterSweep w)) } : Kern).gSm.smFq q) =
        { w.kern.gSm.smFq q with sfqOldestXid := fqOldest w.kept } :=
      update_self q _ _
    rw [record]
    exact ⟨count, fqOldest_isOldest _ fun e member => (queue.positive e member).2⟩
  intro p other
  constructor
  · change update w.kern.gFq q _ p = _
    rw [update_of_ne other, nodes]
  · change update w.kern.gSm.smFq q _ p = _
    rw [update_of_ne other, swept.others p other]
    rfl

theorem Swept.run {keeps : Kern → Prop}
    (step : ∀ done e rest w, Swept s q upto marked done (e :: rest) w → keeps w.kern →
      Swept s q upto marked (done ++ [e]) rest (fqSweepOne q upto w e) ∧
        keeps (fqSweepOne q upto w e).kern)
    (rest done : List FqEnt) (w : FqSweep) (swept : Swept s q upto marked done rest w)
    (kept : keeps w.kern) :
    Swept s q upto marked (done ++ rest) [] (rest.foldl (fqSweepOne q upto) w) ∧
      keeps (rest.foldl (fqSweepOne q upto) w).kern := by
  induction rest generalizing done w with
  | nil =>
    rw [append_nil]
    exact ⟨swept, kept⟩
  | cons e rest ih =>
    obtain ⟨swept', kept'⟩ := step done e rest w swept kept
    have whole := ih (done ++ [e]) _ swept' kept'
    rwa [append_assoc, singleton_append] at whole

theorem Swept.start (queue : QueueOk (marked s) n.ents)
    (counts : CountsOk n.ents (s.gSm.smFq q)) (keyHoles valHoles : List Nat) :
    Swept s q upto marked [] n.ents ⟨s, [], keyHoles, valHoles⟩ :=
  ⟨List.Sublist.refl _, fun _ member => absurd member not_mem_nil, queue, counts.count, rfl,
    fun _ inUse => inUse, fun _ inUse _ => inUse, rfl, rfl, fun _ _ => rfl⟩

/-- `fq_release` on a queue, from what one entry does: `keeps` is whatever else survives. -/
theorem fqRelease_letGo (marked : Kern → Nat → Prop) (keeps : Kern → Prop)
    (raised : ∀ b, marked (s.raiseFloor upto) b ↔ marked s b)
    (indep : ∀ (t : Kern) fq nodes b, marked { t.setFq q fq with gFq := nodes } b ↔ marked t b)
    (step : ∀ done e rest w, Swept (s.raiseFloor upto) q upto marked done (e :: rest) w →
      keeps w.kern → Swept (s.raiseFloor upto) q upto marked (done ++ [e]) rest
        (fqSweepOne q upto w e) ∧
        keeps (fqSweepOne q upto w e).kern)
    (written : ∀ (t : Kern) fq nodes, keeps t → keeps { t.setFq q fq with gFq := nodes })
    (start : keeps (s.raiseFloor upto)) (queue : QueueOk (marked s) (s.queue q))
    (counts : ∀ n, s.gFq q = some n → CountsOk n.ents (s.gSm.smFq q)) :
    LetGo s (fqRelease s q upto) q upto marked ∧ keeps (fqRelease s q upto) := by
  unfold fqRelease
  dsimp only
  split
  next absent =>
    refine ⟨⟨List.Sublist.refl _, fun _ member _ => member, ?_, counts,
      fun b => (raised b).mp, fun b inUse _ => (raised b).mpr inUse, fun _ _ => ⟨rfl, rfl⟩, Iff.rfl,
      rfl⟩, start⟩
    exact queue.mono fun e _ b _ inUse => (raised b).mpr inUse
  next n found =>
  rw [Kern.queue_of_some found] at queue
  have raisedQueue :=
    queue.mono fun e _ b _ inUse => (raised b).mpr inUse
  obtain ⟨swept, kept⟩ := Swept.run step n.ents [] ⟨s.raiseFloor upto, [], n.keyHoles, n.valHoles⟩
    (Swept.start raisedQueue (counts n found) n.keyHoles n.valHoles) start
  refine ⟨Swept.finish found (counts n found) raised indep swept, ?_⟩
  split
  · exact kept
  · exact written _ _ _ kept

/-! ### The pool's queue -/

/-- Only the pool's bitmap, the queues and the floor differ. -/
structure PoolFrame (s s' : Kern) : Prop where
  mount : s'.gApfs = s.gApfs
  chunk : s'.gChunk = s.gChunk
  home : s'.gHome = s.gHome
  cib : s'.gCib = s.gCib
  view : s'.gView = s.gView
  dev : s'.dev = s.dev
  sm : { s'.gSm with smFq := s.gSm.smFq } = s.gSm

theorem clearPool_poolUsed (s : Kern) (e : FqEnt) (b : Nat) :
    ({ s with gIpbm := clearPool s.gApfs s.gIpbm e.paddr e.count } : Kern).PoolUsed b ↔
      s.PoolUsed b ∧ ¬ e.Covers b := by
  unfold Kern.PoolUsed clearPool FqEnt.Covers
  simp only [inPool_iff]
  constructor
  · rintro ⟨inside, set⟩
    split at set
    · exact absurd set Bool.false_ne_true
    next outside => exact ⟨⟨inside, set⟩, by omega⟩
  · rintro ⟨⟨inside, set⟩, outside⟩
    exact ⟨inside, by rwa [if_neg (by omega)]⟩

theorem fqSweepOne_ip {done rest : List FqEnt}
    (swept : Swept s₀ .ip upto Kern.PoolUsed done (e :: rest) w) (frame : PoolFrame s w.kern) :
    Swept s₀ .ip upto Kern.PoolUsed (done ++ [e]) rest (fqSweepOne .ip upto w e) ∧
      PoolFrame s (fqSweepOne .ip upto w e).kern := by
  unfold fqSweepOne
  split
  · exact ⟨swept.keep (fun _ => Iff.rfl) rfl rfl rfl, frame⟩
  next old =>
    rw [if_pos rfl]
    refine ⟨swept.dropEnt (by omega) (fun _ _ => Iff.rfl) (clearPool_poolUsed w.kern e) rfl rfl rfl,
      ?_⟩
    exact { frame with }

theorem fqRelease_ip (queue : QueueOk s.PoolUsed (s.queue .ip))
    (counts : ∀ n, s.gFq .ip = some n → CountsOk n.ents (s.gSm.smFq .ip)) (upto : Nat) :
    LetGo s (fqRelease s .ip upto) .ip upto Kern.PoolUsed ∧ PoolFrame s (fqRelease s .ip upto) := by
  refine fqRelease_letGo _ (PoolFrame s) (fun _ => Iff.rfl) (fun _ _ _ _ => Iff.rfl)
    (fun _ _ _ _ => fqSweepOne_ip) ?_ ?_ queue counts
  · exact fun t fq nodes frame =>
      { frame with }
  · exact ⟨rfl, rfl, rfl, rfl, rfl, rfl, rfl⟩

/-! ### The device's queue -/

/-- Only resident bitmaps, free counts, the queues and the floor differ. -/
structure MainFrame (s s' : Kern) : Prop where
  ipbm : s'.gIpbm = s.gIpbm
  home : s'.gHome = s.gHome
  view : s'.gView = s.gView
  dev : s'.dev = s.dev
  sm : { s'.gSm with smFreeCount := 0, smFq := s.gSm.smFq } = { s.gSm with smFreeCount := 0 }
  mount : { s'.gApfs with acSmFree := 0 } = { s.gApfs with acSmFree := 0 }
  cib : s'.gCib.shape = s.gCib.shape

theorem MainFrame.then {t : Kern} (frame : MainFrame s t) (moved : ChunkFrame t s') :
    MainFrame s s' :=
  ⟨moved.ipbm.trans frame.ipbm, moved.home.trans frame.home, moved.view.trans frame.view,
    moved.dev.trans frame.dev,
    (congrArg (fun sm : Spaceman => { sm with smFq := s.gSm.smFq }) moved.sm).trans frame.sm,
    moved.mount.trans frame.mount, moved.cib.trans frame.cib⟩

theorem chunkGive_eq {c : Nat} {ch : AllocChunk} (found : s.gChunk[c]? = some ch)
    (paddr count : Nat) :
    chunkGive s c paddr count = s.moveRun c (paddr - ch.chBase) count false := by
  unfold chunkGive Kern.moveRun allocCountFree Kern.editChunk
  rw [modify_congr found (f := fun ch =>
    { ch with chBm := setRun ch.chBm (paddr - ch.chBase) count false, chDirty := true })
    (g := fun c =>
      { c with chBm := setRun c.chBm (paddr - ch.chBase) count false, chDirty := true }) rfl]
  rfl

theorem fqSweepOne_main {done rest : List FqEnt} (device : q ≠ .ip)
    (swept : Swept s₀ q upto Kern.Used done (e :: rest) w)
    (kept : ChunksOk w.kern ∧ MainFrame s w.kern) :
    Swept s₀ q upto Kern.Used (done ++ [e]) rest (fqSweepOne q upto w e) ∧
      ChunksOk (fqSweepOne q upto w e).kern ∧ MainFrame s (fqSweepOne q upto w e).kern := by
  obtain ⟨ok, frame⟩ := kept
  unfold fqSweepOne
  split
  · exact ⟨swept.keep (fun _ => Iff.rfl) rfl rfl rfl, ok, frame⟩
  next old =>
  obtain ⟨adm, held⟩ := chunkFor_spec ok e.paddr
  split
  next t reached =>
    -- the chunk cannot be reached: the entry waits
    rw [reached] at adm
    exact ⟨swept.keep adm.used adm.frame.fq adm.frame.floor adm.frame.smFq, adm.ok,
      frame.then adm.frame⟩
  next c t reached =>
  rw [reached] at adm held
  obtain ⟨ch, found, covers⟩ := held c rfl
  dsimp only
  rw [getD_of_getElem? found]
  split
  · exact ⟨swept.keep adm.used adm.frame.fq adm.frame.floor adm.frame.smFq, adm.ok,
      frame.then adm.frame⟩
  next inside =>
  rw [chunkGive_eq found]
  have fits : e.paddr - ch.chBase + e.count ≤ ch.chBlocks := by omega
  -- the entry is queued, so all of its bits are still set
  have set : ∀ i, e.paddr - ch.chBase ≤ i → i < e.paddr - ch.chBase + e.count →
      ch.chBm i = !false := by
    intro i low high
    have queued : w.kern.Used (ch.chBase + i) :=
      swept.queue.marked e (by simp) _ ⟨by omega, by omega⟩
    have bit := (adm.ok.used_iff found (AllocChunk.covers_iff.mpr ⟨by omega, by omega⟩)).mp
      ((adm.used _).mpr queued)
    rwa [Nat.add_sub_cancel_left] at bit
  have moved := adm.frame.trans (t.moveRun_frame c (e.paddr - ch.chBase) e.count false)
  refine ⟨swept.dropEnt (by omega) (fun _ _ => Iff.rfl) ?_ moved.fq moved.floor moved.smFq, ?_, ?_⟩
  · intro b
    rw [adm.ok.moveRun_used found fits b, ← adm.used b]
    have base : ch.chBase + (e.paddr - ch.chBase) = e.paddr := by omega
    rw [base]
    by_cases run : e.paddr ≤ b ∧ b < e.paddr + e.count
    · simp [FqEnt.Covers, run]
    · rw [if_neg run]
      exact ⟨fun inUse => ⟨inUse, run⟩, And.left⟩
  · have given := adm.ok.moveRun found fits set
    exact { given with }
  · have after := frame.then moved
    exact { after with }

theorem fqRelease_main (device : q ≠ .ip) (ok : ChunksOk s) (queue : QueueOk s.Used (s.queue q))
    (counts : ∀ n, s.gFq q = some n → CountsOk n.ents (s.gSm.smFq q)) (upto : Nat) :
    LetGo s (fqRelease s q upto) q upto Kern.Used ∧ ChunksOk (fqRelease s q upto) ∧
      MainFrame s (fqRelease s q upto) := by
  refine fqRelease_letGo _ (fun t => ChunksOk t ∧ MainFrame s t) (fun _ => Iff.rfl)
    (fun _ _ _ _ => Iff.rfl) (fun _ _ _ _ => fqSweepOne_main device) ?_ ?_ queue counts
  · rintro t fq nodes ⟨kept, frame⟩
    exact ⟨{ kept with }, frame.ipbm, frame.home, frame.view, frame.dev, frame.sm, frame.mount,
      frame.cib⟩
  · exact ⟨{ ok with }, rfl, rfl, rfl, rfl, rfl, rfl, rfl⟩

end Style9.Apfs
