import Style9.Apfs.Checkpoint
import Style9.Lib.Hoare
import Mathlib.Data.Nat.ModEq

/-!
# An attempt at a checkpoint

Up to the superblock, every attempt at a checkpoint keeps the accounts and the superblock it
was built from, wherever it stops: it writes to the pool, to the ring of pool bitmaps and to
slots of the other rings that the live checkpoint does not use.
-/
namespace Style9.Apfs

open Style9.Lib List Act Nat
open Style9.Lib.Act (Ends)

variable {s t u : Kern} {xid : Nat} {m : Mount}

/-! ### Where a checkpoint writes -/

def Mount.InIpbm (m : Mount) (b : Nat) : Prop :=
  m.acIpbmBase ≤ b ∧ b < m.acIpbmBase + m.acIpbmSlots

def Mount.InDesc (m : Mount) (b : Nat) : Prop :=
  m.acXpDescBase ≤ b ∧ b < m.acXpDescBase + m.acXpDescBlocks

def Mount.InData (m : Mount) (b : Nat) : Prop :=
  m.acXpDataBase ≤ b ∧ b < m.acXpDataBase + m.acXpDataBlocks

/-- Block zero, the pool and the three rings do not overlap, the superblock adopted is in the
live run of the descriptor ring, and the space manager is one of the ephemerals. -/
structure RingsOk (m : Mount) : Prop where
  pool : ∀ b, inPool m b = true → b ≠ 0 ∧ ¬ m.InIpbm b ∧ ¬ m.InDesc b ∧ ¬ m.InData b
  desc : ∀ b, m.InDesc b → b ≠ 0 ∧ ¬ m.InIpbm b ∧ ¬ m.InData b
  data : ∀ b, m.InData b → b ≠ 0
  nonempty : 0 < m.acXpDescBlocks
  live : ∃ k < m.acXpDescLen, m.acSbBno = m.acXpDescBase + (m.acXpDescIndex + k) % m.acXpDescBlocks
  spaceman : ∃ e ∈ m.acEph, e.eOid = m.acSpacemanOid

theorem RingsOk.sb_inDesc (rings : RingsOk m) : m.InDesc m.acSbBno := by
  obtain ⟨k, -, place⟩ := rings.live
  have bound := mod_lt (m.acXpDescIndex + k) rings.nonempty
  exact ⟨by omega, by omega⟩

theorem RingsOk.sb_ne (rings : RingsOk m) {slot : Nat}
    (free : slotInRun slot m.acXpDescIndex m.acXpDescLen m.acXpDescBlocks = false) :
    m.acXpDescBase + slot ≠ m.acSbBno := by
  obtain ⟨k, bound, place⟩ := rings.live
  intro same
  have here : (m.acXpDescIndex + k) % m.acXpDescBlocks = slot := by omega
  have inRun : slotInRun slot m.acXpDescIndex m.acXpDescLen m.acXpDescBlocks = true := by
    simp only [slotInRun, any_eq_true, mem_range, beq_iff_eq]
    exact ⟨k, bound, here⟩
  rw [inRun] at free
  exact Bool.true_eq_false.mp free

theorem Mount.inData_dataSlot (blocks : 0 < m.acXpDataBlocks) (i : Nat) :
    m.InData (m.acXpDataBase + m.dataSlot i) :=
  ⟨Nat.le_add_right _ _, Nat.add_lt_add_left (Nat.mod_lt _ blocks) _⟩

theorem Mount.dataSlot_inj {i j : Nat} (boundI : i < m.acXpDataBlocks)
    (boundJ : j < m.acXpDataBlocks) (same : m.dataSlot i = m.dataSlot j) : i = j := by
  have mods := Nat.ModEq.add_left_cancel' m.acXpDataNext same
  exact mods.eq_of_lt_of_lt boundI boundJ

/-! ### Writes that leave the accounts alone -/

/-- Only ring fields of the space manager and some blocks of the disk differ. -/
structure RingFrame (touched : Nat → Prop) (s s' : Kern) : Prop where
  chunk : s'.gChunk = s.gChunk
  cib : s'.gCib = s.gCib
  fq : s'.gFq = s.gFq
  ipbm : s'.gIpbm = s.gIpbm
  home : s'.gHome = s.gHome
  mount : s'.gApfs = s.gApfs
  free : s'.gSm.smFreeCount = s.gSm.smFreeCount
  smFq : s'.gSm.smFq = s.gSm.smFq
  cibAddr : s'.gSm.smCibAddr = s.gSm.smCibAddr
  disk : ∀ b, ¬ touched b → s'.dev.disk b = s.dev.disk b

section
variable {touched : Nat → Prop}

theorem SpaceOk.diskBits_eq (ok : SpaceOk s) {ci : ChunkInfo} (member : ci ∈ s.infos)
    {disk : Nat → Block} (same : ∀ b, inPool s.gApfs b = true → disk b = s.dev.disk b) :
    ci.diskBits disk = ci.diskBits s.dev.disk := by
  unfold ChunkInfo.diskBits
  split
  · rfl
  next placed =>
  have named : ci.ciBitmapAddr ∈ s.named := by
    refine mem_cons_of_mem _ (mem_filter.mpr ⟨?_, by simpa using placed⟩)
    exact mem_map_of_mem member
  rw [same _ (ok.pool.taken _ named).1]

theorem SpaceOk.ring (ok : SpaceOk s) (frame : RingFrame touched s t)
    (away : ∀ b, inPool s.gApfs b = true → ¬ touched b) : SpaceOk t := by
  have infos : t.infos = s.infos := by
    unfold Kern.infos
    rw [frame.cib]
  have same : MainSame s t :=
    ⟨frame.chunk, infos, fun ci member => ok.diskBits_eq member fun b inside =>
      frame.disk b (away b inside),
      frame.free, by rw [frame.mount], frame.home, fun _ _ => by rw [frame.fq],
      fun _ _ => by rw [frame.smFq]⟩
  have pool : PoolSame s t :=
    ⟨by rw [frame.mount], by rw [frame.mount], frame.ipbm, by rw [frame.fq], by rw [frame.smFq]⟩
  have names : t.named = s.named := by
    unfold Kern.named
    rw [frame.mount, infos]
  refine ok.of (ok.main.congr same) ?_ pool.base pool.blocks same.used (by rw [frame.fq])
  rw [names]
  exact ok.pool.congr pool

theorem SpaceOk.remount (ok : SpaceOk s) (free : m.acSmFree = s.gApfs.acSmFree)
    (base : m.acIpBase = s.gApfs.acIpBase) (blocks : m.acIpBlocks = s.gApfs.acIpBlocks)
    (cib : m.acAllocCib = s.gApfs.acAllocCib) : SpaceOk { s with gApfs := m } := by
  have same : MainSame s { s with gApfs := m } :=
    ⟨rfl, rfl, fun _ _ => rfl, rfl, free, rfl, fun _ _ => rfl, fun _ _ => rfl⟩
  have names : ({ s with gApfs := m } : Kern).named = s.named := Kern.named_eq cib rfl
  refine ok.of (ok.main.congr same) ?_ base blocks same.used rfl
  rw [names]
  exact ok.pool.congr ⟨base, blocks, rfl, rfl, rfl⟩

/-- Everything in memory about the chunks is on disk, where the space manager says. -/
structure OnDisk (s : Kern) : Prop where
  clean : ∀ ch ∈ s.gChunk, ch.chDirty = false
  cib : s.CibOk

theorem OnDisk.ring (onDisk : OnDisk s) (ok : SpaceOk s) (frame : RingFrame touched s t)
    (away : ∀ b, inPool s.gApfs b = true → ¬ touched b) : OnDisk t := by
  refine ⟨by rw [frame.chunk]; exact onDisk.clean, ?_⟩
  have inside := (ok.pool.taken s.gApfs.acAllocCib mem_cons_self).1
  unfold Kern.CibOk
  rw [frame.mount, frame.cib, frame.disk _ (away _ inside)]
  exact onDisk.cib

end

/-! ### An attempt, up to the superblock -/

/-- A mounted container that can be written. -/
structure CkptOk (s : Kern) : Prop where
  space : SpaceOk s
  valid : s.gApfs.acIpValid = true
  rings : RingsOk s.gApfs
  cibAddr : s.gSm.smCibAddr = s.gApfs.acAllocCib
  super : ∀ sb, s.dev.disk s.gApfs.acSbBno = .nxsb sb →
    sb.nxSpacemanOid = s.gApfs.acSpacemanOid ∧ sb.nxXpDescBase = s.gApfs.acXpDescBase

theorem Mount.eq_of_rest {m m' : Mount} (rest : { m' with acSmFree := 0, acAllocCib := 0 } =
    { m with acSmFree := 0, acAllocCib := 0 }) :
    m' = { m with acSmFree := m'.acSmFree, acAllocCib := m'.acAllocCib } :=
  congrArg (fun n : Mount => { n with acSmFree := m'.acSmFree, acAllocCib := m'.acAllocCib }) rest

/-- From `s`, an attempt that has not written its superblock has got to `t`. -/
structure Attempt (s t : Kern) : Prop where
  ok : SpaceOk t
  mount : { t.gApfs with acSmFree := 0, acAllocCib := 0 } =
    { s.gApfs with acSmFree := 0, acAllocCib := 0 }
  cibAddr : t.gSm.smCibAddr = t.gApfs.acAllocCib
  super : t.dev.disk s.gApfs.acSbBno = s.dev.disk s.gApfs.acSbBno

theorem CkptOk.attempt (ok : CkptOk s) : Attempt s s := ⟨ok.space, rfl, ok.cibAddr, rfl⟩

section

variable (att : Attempt s t)
include att

theorem Attempt.mount_eq : t.gApfs =
    { s.gApfs with acSmFree := t.gApfs.acSmFree, acAllocCib := t.gApfs.acAllocCib } :=
  Mount.eq_of_rest att.mount

theorem Attempt.rings (ok : CkptOk s) : RingsOk t.gApfs := by
  rw [att.mount_eq]
  exact { ok.rings with }

theorem Attempt.sbBno : t.gApfs.acSbBno = s.gApfs.acSbBno := by
  rw [att.mount_eq]

theorem Attempt.ckptOk (ok : CkptOk s) : CkptOk t := by
  refine ⟨att.ok, by rw [att.mount_eq]; exact ok.valid, att.rings ok, att.cibAddr, ?_⟩
  intro sb found
  rw [att.sbBno, att.super] at found
  rw [att.mount_eq]
  exact ok.super sb found

theorem Attempt.space (ok : CkptOk s) (ok' : SpaceOk u) (frame : SpaceFrame t u) : Attempt s u := by
  refine ⟨ok', frame.mount.trans att.mount, frame.cibAddr att.cibAddr, ?_⟩
  rw [frame.disk, att.super]
  -- the superblock is in the descriptor ring, and that is not the pool's
  by_contra inside
  rw [Bool.not_eq_false] at inside
  refine ((att.rings ok).pool _ inside).2.2.1 ?_
  rw [← att.sbBno]
  exact (att.rings ok).sb_inDesc

theorem Attempt.ring {touched : Nat → Prop} (frame : RingFrame touched t u)
    (away : ∀ b, inPool t.gApfs b = true → ¬ touched b) (super : ¬ touched t.gApfs.acSbBno) :
    Attempt s u := by
  refine ⟨att.ok.ring frame away, by rw [frame.mount, att.mount], ?_, ?_⟩
  · rw [frame.cibAddr, frame.mount]
    exact att.cibAddr
  · rw [← att.sbBno, frame.disk _ super, att.sbBno]
    exact att.super

end

/-! ### Step 0 -/

/-- Something is left for `alloc_flush` to write, or what it would write is there already. -/
def FlushSafe (s : Kern) : Prop :=
  (∃ ch ∈ s.gChunk, ch.chDirty = true) ∨ s.CibOk

theorem ckptRelease_space (ok : SpaceOk s) (xid : Nat) :
    SpaceOk (ckptRelease xid s) ∧ SpaceFrame s (ckptRelease xid s) := by
  unfold ckptRelease
  split
  · obtain ⟨first, moved⟩ := ok.fqRelease .main (xid - apfsFqKeep)
    exact ⟨(first.fqRelease .ip _).1, moved.trans (first.fqRelease .ip _).2⟩
  · exact ⟨ok, SpaceFrame.refl s⟩

/-- Only the device differs, and of its blocks only some, which are all that was written. -/
structure DevFrame (touched : Nat → Prop) (s s' : Kern) : Prop where
  only : ∃ d, s' = { s with dev := d }
  disk : ∀ b, ¬ touched b → s'.dev.disk b = s.dev.disk b
  log : Logged touched s s'

section
variable {touched touched' : Nat → Prop}

theorem DevFrame.refl (touched : Nat → Prop) (s : Kern) : DevFrame touched s s :=
  ⟨⟨s.dev, rfl⟩, fun _ _ => rfl, .of_dev rfl⟩

theorem DevFrame.trans (h : DevFrame touched s t) (k : DevFrame touched t u) :
    DevFrame touched s u := by
  obtain ⟨d, rfl⟩ := h.only
  obtain ⟨d', rfl⟩ := k.only
  exact ⟨⟨d', rfl⟩, fun b outside => (k.disk b outside).trans (h.disk b outside), h.log.trans k.log⟩

theorem DevFrame.mono (h : DevFrame touched s t) (wider : ∀ b, touched b → touched' b) :
    DevFrame touched' s t :=
  ⟨h.only, fun b outside => h.disk b fun inside => outside (wider b inside), h.log.mono wider⟩

theorem DevFrame.ring (h : DevFrame touched s t) : RingFrame touched s t := by
  obtain ⟨d, rfl⟩ := h.only
  exact ⟨rfl, rfl, rfl, rfl, rfl, rfl, rfl, rfl, rfl, h.disk⟩

theorem DevFrame.sm (h : DevFrame touched s t) : t.gSm = s.gSm := by
  obtain ⟨d, rfl⟩ := h.only
  rfl

end

theorem writeBlock_ends (bno : Nat) (block : Block) (s : Kern) : Ends (writeBlock bno block) s
    (fun _ t => DevFrame (· = bno) s t ∧
      t.dev.disk bno = block) (fun _ => DevFrame (· = bno) s) := by
  rcases writeBlock_cases bno block s with ⟨e, d, result, disk, log⟩ | ⟨d, result, disk, log, -⟩
  · exact .of_error result ⟨⟨d, rfl⟩, fun b _ => congrFun disk b, .of_dev log⟩
  have frame : DevFrame (· = bno) s { s with dev := d } := by
    refine ⟨⟨d, rfl⟩, fun b elsewhere => ?_, .of_write log rfl⟩
    rw [disk, Function.update_of_ne elsewhere]
  refine .of_ok result ⟨frame, ?_⟩
  rw [disk, Function.update_self]

theorem ckptBarrier_dev (s : Kern) : DevFrame (fun _ => False) s (ckptBarrier s).2 := by
  unfold ckptBarrier
  split
  · exact ⟨⟨_, rfl⟩, fun _ _ => rfl, [.flush], rfl,
      fun b block member => nomatch mem_singleton.mp member⟩
  · exact ⟨⟨_, rfl⟩, fun _ _ => rfl, .of_dev rfl⟩

theorem ipRotate_ring (xid : Nat) (s : Kern) : RingFrame s.gApfs.InIpbm s (ipRotate xid s).2 := by
  unfold ipRotate
  dsimp only
  split
  · exact ⟨rfl, rfl, rfl, rfl, rfl, rfl, rfl, rfl, rfl, fun _ _ => rfl⟩
  next bound =>
  have wrote := writeBlock_ends (s.gApfs.acIpbmBase + s.gSm.smIpBmFreeHead) (.bits s.gIpbm) s
  have off : ∀ b, b = s.gApfs.acIpbmBase + s.gSm.smIpBmFreeHead → s.gApfs.InIpbm b := by
    rintro b rfl
    exact ⟨by omega, by omega⟩
  rcases outcome : writeBlock (s.gApfs.acIpbmBase + s.gSm.smIpBmFreeHead) (.bits s.gIpbm) s with
    ⟨e | _, t⟩
  · rw [bind_of_error outcome]
    exact ((wrote.error rfl outcome).mono off).ring
  · rw [bind_of_ok outcome]
    have frame := ((wrote.ok rfl outcome).1.mono off).ring
    exact { frame with }

theorem ckptSpace_run (valid : s.gApfs.acIpValid = true) :
    ckptSpace xid s = (do allocFlush xid; ipRotate xid : Op Nat) (ckptRelease xid s) := by
  unfold ckptSpace
  rw [if_pos valid]
  rfl

/-- Step 0 keeps the accounts, and leaves everything on disk if the flush was safe. -/
theorem ckptSpace_ends (ok : CkptOk s) : Ends (ckptSpace xid) s
    (fun _ t => Attempt s t ∧ (FlushSafe (ckptRelease xid s) → OnDisk t)) (fun _ => Attempt s) := by
  obtain ⟨okR, frameR⟩ := ckptRelease_space ok.space xid
  obtain ⟨flushed, written⟩ := allocFlush_flushed okR xid
  have attF := (ok.attempt.space ok okR frameR).space ok flushed.ok flushed.frame
  refine .congr (ckptSpace_run ok.valid) (.bind (Q := fun _ t => Attempt s t ∧
    (FlushSafe (ckptRelease xid s) → OnDisk t)) (.of_result (fun _ flush => ⟨attF, fun safe => ?_⟩)
      fun _ => attF) ?_)
  · rcases written flush with ⟨clean, same⟩ | ⟨clean, cib, -⟩
    · -- nothing was dirty, so the flush wrote nothing: what is on disk was there before
      rw [same]
      refine ⟨clean, ?_⟩
      rcases safe with ⟨ch, member, dirty⟩ | current
      · rw [clean ch member] at dirty
        exact absurd dirty Bool.false_ne_true
      · exact current
    · exact ⟨clean, cib⟩
  rintro _ t ⟨att, onDisk⟩
  have rings := att.rings ok
  have frame := ipRotate_ring xid t
  have away : ∀ b, inPool t.gApfs b = true → ¬ t.gApfs.InIpbm b :=
    fun b inside => (rings.pool b inside).2.1
  have after := att.ring frame away (rings.desc _ rings.sb_inDesc).2.1
  exact .of_result (fun _ _ => ⟨after, fun safe => (onDisk safe).ring att.ok frame away⟩) fun _ =>
    after

/-! ### Step 1 -/

/-- The slots of the ephemerals from index `i` on. -/
def Mount.DataSlots (m : Mount) (i n : Nat) (b : Nat) : Prop :=
  ∃ k, i ≤ k ∧ k < i + n ∧ b = m.acXpDataBase + m.dataSlot k

theorem ephBlock_spaceman {e : Eph} {block : Block} (oid : e.eOid = s.gApfs.acSpacemanOid)
    (value : ephBlock s e = .ok block) : block = .spaceman s.gSm := by
  unfold ephBlock at value
  split at value
  · cases value
  · exact (Except.ok.inj value).symm

/-- Each ephemeral goes to its slot; the space manager's copy is the one in memory. -/
theorem ckptEph_ends (xid : Nat) (ephs : List Eph) (i : Nat) (s : Kern)
    (fits : i + ephs.length ≤ s.gApfs.acXpDataBlocks) : Ends (ckptEph xid i ephs) s
      (fun moved t => DevFrame (s.gApfs.DataSlots i ephs.length) s t ∧
        moved = (List.range' i ephs.length).map (fun k =>
          s.gApfs.acXpDataBase + s.gApfs.dataSlot k) ∧
        ∀ k e, ephs[k]? = some e → e.eOid = s.gApfs.acSpacemanOid →
          t.dev.disk (s.gApfs.acXpDataBase + s.gApfs.dataSlot (i + k)) =
            .spaceman { s.gSm with oXid := xid })
      (fun _ => DevFrame (s.gApfs.DataSlots i ephs.length) s) := by
  induction ephs generalizing i s with
  | nil => exact .pure ⟨DevFrame.refl _ s, rfl, by simp⟩
  | cons e rest ih =>
  rw [length_cons] at fits
  have wider : ∀ b, s.gApfs.DataSlots (i + 1) rest.length b →
      s.gApfs.DataSlots i (e :: rest).length b := by
    rintro b ⟨k, low, high, place⟩
    exact ⟨k, by omega, by rw [length_cons]; omega, place⟩
  have here : ∀ b, b = s.gApfs.acXpDataBase + s.gApfs.dataSlot i →
      s.gApfs.DataSlots i (e :: rest).length b :=
    fun b same => ⟨i, le_rfl, by rw [length_cons]; omega, same⟩
  refine .lift_bind (fun _ => .refl _ s) fun block value =>
    .read_bind (.bind ((writeBlock_ends _ _ s).mono (fun _ _ h => h)
    fun _ _ frame => frame.mono here) fun _ t wrote => ?_)
  obtain ⟨own, copied⟩ := wrote
  have mount := own.ring.mount
  have later := ih (i + 1) t (by rw [mount]; omega)
  rw [mount, own.sm] at later
  refine .bind (later.mono (fun _ _ h => h) fun _ _ frame =>
    (own.mono here).trans (frame.mono wider)) ?_
  rintro moved t' ⟨frame, places, copies⟩
  refine .pure ⟨(own.mono here).trans
    (frame.mono wider), by rw [places, length_cons, List.range'_succ, map_cons], ?_⟩
  intro k e' found oid
  cases k with
  | zero =>
    obtain rfl : e = e' := by simpa using found
    -- the later slots are different ones
    rw [add_zero, frame.disk]
    · rw [copied, ephBlock_spaceman oid value]
      rfl
    · rintro ⟨k, low, high, same⟩
      have := Mount.dataSlot_inj (m := s.gApfs) (i := i) (j := k) (by omega) (by omega) (by omega)
      omega
  | succ k =>
    have copy := copies k e' (by simpa using found) oid
    rw [← copy, add_right_comm, add_assoc]

end Style9.Apfs
