import Style9.Apfs.Attempt

/-!
# What a checkpoint publishes

An attempt that returns OK has put a superblock down that leads to the space manager in
memory. Whether the chunk-info block that space manager names is the one in memory depends on
what `alloc_flush` found to do: it writes the block only when some chunk is dirty.
-/
namespace Style9.Apfs

open Style9.Lib List Nat Option
open Style9.Lib.Act (Ends)

variable {s t u : Kern} {xid : Nat} {moved : List Nat} {m : Mount} {sb : NxSuperblock}

/-! ### From the superblock on -/

/-- The space manager a superblock leads to, by way of the checkpoint map. -/
def publishedSpaceman (disk : Nat → Block) (sbBno : Nat) : Option Spaceman :=
  match disk sbBno with
  | .nxsb sb =>
    match disk (sb.nxXpDescBase + sb.nxXpDescIndex) with
    | .cpm map =>
      match map.cpmMap.find? (·.cpmOid == sb.nxSpacemanOid) with
      | some m =>
        match disk m.cpmPaddr with
        | .spaceman sm => some sm
        | _ => none
      | none => none
    | _ => none
  | _ => none

/-- The chunk-info block of the published space manager gives every resident chunk's bitmap and
the count of its clear bits. -/
def BitmapsPublished (s : Kern) : Prop :=
  ∃ sm cib, publishedSpaceman s.dev.disk s.gApfs.acSbBno = some sm ∧
    s.dev.disk sm.smCibAddr = .cib cib ∧
    ∀ ch ∈ s.gChunk, ∃ ci, cib.cibChunkInfo[ch.chSlot]? = some ci ∧
      (s.dev.disk ci.ciBitmapAddr).asBits = ch.chBm ∧
        ci.ciFreeCount = clearCount ch.chBm ch.chBlocks

theorem OnDisk.chunk (onDisk : OnDisk s) (ok : ChunksOk s) {ch : AllocChunk}
    (member : ch ∈ s.gChunk) :
    ∃ ci, s.gCib.cibChunkInfo[ch.chSlot]? = some ci ∧
      (s.dev.disk ci.ciBitmapAddr).asBits = ch.chBm ∧
        ci.ciFreeCount = clearCount ch.chBm ch.chBlocks := by
  obtain ⟨k, found⟩ := mem_iff_getElem?.mp member
  obtain ⟨ci, info, -, blocks, bitmap⟩ := ok.held ch member
  have counted := ok.counted _ ci info
  rw [Kern.chunkBits, ok.heldBits_eq found, getD_some, ← blocks] at counted
  refine ⟨ci, info, ?_, counted⟩
  rw [← bitmap]
  exact ok.clean ch member (onDisk.clean ch member)

/-- Everything the superblock will name is down. -/
structure Written (s t : Kern) (xid : Nat) (moved : List Nat) : Prop where
  att : Attempt s t
  safe : FlushSafe (ckptRelease xid s) → OnDisk t
  length : moved.length = t.gApfs.acEph.length
  inData : ∀ p ∈ moved, t.gApfs.InData p
  copies : ∀ (k : Nat) (e : Eph) (p : Nat), t.gApfs.acEph[k]? = some e →
    e.eOid = t.gApfs.acSpacemanOid →
    moved[k]? = some p → t.dev.disk p = .spaceman { t.gSm with oXid := xid }

theorem Written.dev {touched : Nat → Prop} (written : Written s t xid moved)
    (frame : DevFrame touched t u) (pool : ∀ b, inPool t.gApfs b = true → ¬ touched b)
    (data : ∀ b, t.gApfs.InData b → ¬ touched b) (super : ¬ touched t.gApfs.acSbBno) :
    Written s u xid moved := by
  have ring := frame.ring
  refine ⟨written.att.ring ring pool super,
    fun safe => (written.safe safe).ring written.att.ok ring pool,
    by rw [ring.mount]; exact written.length, by rw [ring.mount]; exact written.inData, ?_⟩
  intro k e p
  rw [ring.mount, frame.sm]
  intro found oid place
  rw [frame.disk p (data p (written.inData p (mem_of_getElem? place)))]
  exact written.copies k e p found oid place

theorem ckptMap_find (xid : Nat) (length : moved.length = m.acEph.length)
    (spaceman : ∃ e ∈ m.acEph, e.eOid = m.acSpacemanOid) :
    ∃ mapping, (ckptMap m xid moved).cpmMap.find? (·.cpmOid == m.acSpacemanOid) = some mapping ∧
      ∃ (k : Nat) (e : Eph), m.acEph[k]? = some e ∧ e.eOid = m.acSpacemanOid ∧
        moved[k]? = some mapping.cpmPaddr := by
  have rows : ∀ x ∈ (ckptMap m xid moved).cpmMap, ∃ (k : Nat) (e : Eph), m.acEph[k]? = some e ∧
      e.eOid = x.cpmOid ∧ moved[k]? = some x.cpmPaddr := by
    intro x member
    obtain ⟨k, place⟩ := mem_iff_getElem?.mp member
    obtain ⟨e, p, found, point, rfl⟩ := getElem?_zipWith_eq_some.mp place
    exact ⟨k, e, found, rfl, point⟩
  obtain ⟨e, member, oid⟩ := spaceman
  obtain ⟨k, found⟩ := mem_iff_getElem?.mp member
  obtain ⟨p, point⟩ : ∃ p, moved[k]? = some p := by
    have bound := (List.getElem?_eq_some_iff.mp found).1
    exact ⟨_, List.getElem?_eq_getElem (by omega)⟩
  have row : (⟨e.eType, e.eSubtype, e.eSize, e.eFsOid, e.eOid, p⟩ : CheckpointMapping) ∈
      (ckptMap m xid moved).cpmMap :=
    mem_of_getElem? (getElem?_zipWith_eq_some.mpr ⟨e, p, found, point, rfl⟩)
  obtain ⟨mapping, first⟩ : ∃ mapping,
      (ckptMap m xid moved).cpmMap.find? (·.cpmOid == m.acSpacemanOid) = some mapping := by
    refine isSome_iff_exists.mp (find?_isSome.mpr ⟨_, row, ?_⟩)
    simpa using oid
  have named := find?_some first
  obtain ⟨k', e', found', oid', at'⟩ := rows mapping (mem_of_find?_eq_some first)
  exact ⟨mapping, first, k', e', found', oid'.trans (by simpa using named), at'⟩

/-- What the tests before a checkpoint establish. -/
structure Ready (m : Mount) : Prop where
  data : m.acEph.length ≤ m.acXpDataBlocks
  dataBlocks : 0 < m.acXpDataBlocks
  descBlocks : 2 ≤ m.acXpDescBlocks
  mapFree : slotInRun m.mapSlot m.acXpDescIndex m.acXpDescLen m.acXpDescBlocks = false
  sbFree : slotInRun m.sbSlot m.acXpDescIndex m.acXpDescLen m.acXpDescBlocks = false

theorem ready_of_not_refused (goes : ckptRefuses m = false) : Ready m := by
  simp only [ckptRefuses, Bool.or_eq_false_iff, decide_eq_false_iff_not] at goes
  obtain ⟨⟨⟨-, ⟨hasData, fits⟩, desc⟩, mapFree, sbFree⟩, -⟩ := goes
  exact ⟨by omega, by omega, by omega, mapFree, sbFree⟩

theorem Ready.mapSlot_lt (ready : Ready m) : m.mapSlot < m.acXpDescBlocks :=
  mod_lt _ (by have := ready.descBlocks; omega)

theorem Ready.sbSlot_lt (ready : Ready m) : m.sbSlot < m.acXpDescBlocks :=
  mod_lt _ (by have := ready.descBlocks; omega)

theorem Ready.inDesc (ready : Ready m) :
    m.InDesc (m.acXpDescBase + m.mapSlot) ∧ m.InDesc (m.acXpDescBase + m.sbSlot) :=
  ⟨⟨Nat.le_add_right _ _, Nat.add_lt_add_left ready.mapSlot_lt _⟩,
    Nat.le_add_right _ _, Nat.add_lt_add_left ready.sbSlot_lt _⟩

theorem Ready.sbSlot_ne (ready : Ready m) : m.sbSlot ≠ m.mapSlot := by
  have two := ready.descBlocks
  have bound := ready.mapSlot_lt
  unfold Mount.sbSlot
  by_cases last : m.mapSlot + 1 = m.acXpDescBlocks
  · rw [last, mod_self]
    omega
  · rw [mod_eq_of_lt (by omega)]
    omega

/-- With its map and its superblock down, the checkpoint is the one this kernel goes on from. -/
theorem Written.committed {slot : Nat} (ok : CkptOk s)
    (written : Written s t xid moved) (super : ckptSuperblock s = .ok sb)
    (map : t.dev.disk (t.gApfs.acXpDescBase + t.gApfs.mapSlot) = .cpm (ckptMap t.gApfs xid moved))
    (sbAt : t.dev.disk (t.gApfs.acXpDescBase + t.gApfs.sbSlot) = .nxsb (ckptSb t.gApfs xid sb)) :
    CkptOk { t with gApfs := t.gApfs.afterCkpt xid slot moved } ∧
      (FlushSafe (ckptRelease xid s) →
        BitmapsPublished { t with gApfs := t.gApfs.afterCkpt xid slot moved }) := by
  have rings := written.att.rings ok
  have oids : sb.nxSpacemanOid = t.gApfs.acSpacemanOid ∧
      sb.nxXpDescBase = t.gApfs.acXpDescBase := by
    have found : s.dev.disk s.gApfs.acSbBno = .nxsb sb := by
      unfold ckptSuperblock at super
      split at super
      next sb' here =>
        split at super
        · rw [here, Except.ok.inj super]
        · cases super
      · split at super <;> cases super
    rw [written.att.mount_eq]
    exact ok.super sb found
  have space : SpaceOk { t with gApfs := t.gApfs.afterCkpt xid slot moved } :=
    written.att.ok.remount rfl rfl rfl rfl
  constructor
  · refine ⟨space, (written.att.ckptOk ok).valid,
      ⟨rings.pool, rings.desc, rings.data, rings.nonempty, ?_, ?_⟩,
      written.att.cibAddr, ?_⟩
    · exact ⟨1, one_lt_two, rfl⟩
    · -- the table keeps its oids
      obtain ⟨e, member, oid⟩ := rings.spaceman
      obtain ⟨k, found⟩ := mem_iff_getElem?.mp member
      have bound := (List.getElem?_eq_some_iff.mp found).1
      have length := written.length
      refine ⟨{ e with ePaddr := moved[k] }, mem_of_getElem?
        (getElem?_zipWith_eq_some.mpr ⟨e, _, found, getElem?_eq_getElem (by omega), rfl⟩), oid⟩
    · intro sb' found
      obtain rfl : ckptSb t.gApfs xid sb = sb' := Block.nxsb.inj (sbAt.symm.trans found)
      exact oids
  intro safe
  have onDisk := written.safe safe
  obtain ⟨mapping, first, k, e, found, oid, place⟩ := ckptMap_find xid written.length rings.spaceman
  have mapAt :
    t.dev.disk ((ckptSb t.gApfs xid sb).nxXpDescBase + (ckptSb t.gApfs xid sb).nxXpDescIndex) =
      .cpm (ckptMap t.gApfs xid moved) := by
    change t.dev.disk (sb.nxXpDescBase + t.gApfs.mapSlot) = _
    rw [oids.2]
    exact map
  have named : (ckptMap t.gApfs xid moved).cpmMap.find?
      (·.cpmOid == (ckptSb t.gApfs xid sb).nxSpacemanOid) = some mapping := by
    change find? (fun x : CheckpointMapping => x.cpmOid == sb.nxSpacemanOid) _ = _
    rw [oids.1]
    exact first
  refine ⟨{ t.gSm with oXid := xid }, t.gCib, ?_, ?_, fun ch member =>
    onDisk.chunk written.att.ok.main.chunks member⟩
  · change publishedSpaceman t.dev.disk (t.gApfs.acXpDescBase + t.gApfs.sbSlot) = _
    simp only [publishedSpaceman, sbAt, mapAt, named, written.copies k e _ found oid place]
  · change t.dev.disk t.gSm.smCibAddr = _
    rw [written.att.cibAddr]
    exact onDisk.cib

theorem ckptAnchor_dev (sb : NxSuperblock) (s : Kern) : DevFrame (· = 0) s (ckptAnchor sb s) := by
  have wrote := writeBlock_ends 0 (.nxsb sb) s
  unfold ckptAnchor Act.ignore
  rcases outcome : writeBlock 0 (.nxsb sb) s with ⟨e | ⟨⟩, t⟩
  · rw [Act.bind_of_error outcome]
    exact wrote.error rfl outcome
  · rw [Act.bind_of_ok outcome]
    exact (wrote.ok rfl outcome).1.trans ((ckptBarrier_dev t).mono fun _ h => h.elim)

/-- The superblock is refused, or it is down and the mount is the new checkpoint's. -/
theorem ckptCommit_cases (xid slot : Nat) (moved : List Nat) (sb : NxSuperblock) (t : Kern) :
    ∃ u, DevFrame (· = t.gApfs.acXpDescBase + t.gApfs.sbSlot) t u ∧
      ((∃ e, ckptCommit xid slot moved sb t = (.error e, u)) ∨
        u.dev.disk (t.gApfs.acXpDescBase + t.gApfs.sbSlot) = .nxsb (ckptSb t.gApfs xid sb) ∧
          ∃ v, DevFrame (· = 0) u v ∧
            (ckptCommit xid slot moved sb t).2 =
              { v with gApfs := t.gApfs.afterCkpt xid slot moved }) := by
  have wrote :=
    writeBlock_ends (t.gApfs.acXpDescBase + t.gApfs.sbSlot) (.nxsb (ckptSb t.gApfs xid sb)) t
  unfold ckptCommit
  dsimp only
  rcases outcome : writeBlock (t.gApfs.acXpDescBase + t.gApfs.sbSlot)
    (.nxsb (ckptSb t.gApfs xid sb)) t with
    ⟨e | ⟨⟩, u⟩
  · exact ⟨u, wrote.error rfl outcome, .inl ⟨e, rfl⟩⟩
  obtain ⟨frame, sbAt⟩ := wrote.ok rfl outcome
  have flush := (ckptBarrier_dev u).mono (fun b (h : False) => (h.elim : b = 0))
  refine ⟨u, frame, .inr ⟨sbAt, ?_⟩⟩
  dsimp only
  rcases outcome' : ckptBarrier u with ⟨e | ⟨⟩, v⟩
  · rw [outcome'] at flush
    exact ⟨v, flush, rfl⟩
  · rw [outcome'] at flush
    exact ⟨_, flush.trans (ckptAnchor_dev (ckptSb t.gApfs xid sb) v), rfl⟩

theorem Written.desc {bno : Nat} (ok : CkptOk s) (written : Written s t xid moved)
    (inside : t.gApfs.InDesc bno) (free : bno ≠ t.gApfs.acSbBno) (frame : DevFrame (· = bno) t u) :
    Written s u xid moved := by
  have rings := written.att.rings ok
  refine written.dev frame ?_ ?_ free.symm
  · rintro b pool rfl
    exact (rings.pool _ pool).2.2.1 inside
  · rintro b data rfl
    exact (rings.desc _ inside).2.2 data

theorem Written.afterwards {v : Kern} (slot : Nat) (ok : CkptOk s)
    (written : Written s t xid moved) (ready : Ready t.gApfs) (super : ckptSuperblock s = .ok sb)
    (map : t.dev.disk (t.gApfs.acXpDescBase + t.gApfs.mapSlot) = .cpm (ckptMap t.gApfs xid moved))
    (sbAt : t.dev.disk (t.gApfs.acXpDescBase + t.gApfs.sbSlot) = .nxsb (ckptSb t.gApfs xid sb))
    (frame : DevFrame (· = 0) t v) : CkptOk { v with gApfs := t.gApfs.afterCkpt xid slot moved } ∧
      (FlushSafe (ckptRelease xid s) →
        BitmapsPublished { v with gApfs := t.gApfs.afterCkpt xid slot moved }) := by
  have rings := written.att.rings ok
  have mount := frame.ring.mount
  have descIn : ∀ slot < t.gApfs.acXpDescBlocks, t.gApfs.acXpDescBase + slot ≠ 0 :=
    fun slot bound =>
    (rings.desc _ ⟨by omega, by omega⟩).1
  have written' := written.dev frame (fun b inside => (rings.pool b inside).1)
    (fun b inside => rings.data b inside) (rings.desc _ rings.sb_inDesc).1
  rw [← mount]
  refine written'.committed ok super ?_ ?_
  · rw [mount, frame.disk _ (descIn _ ready.mapSlot_lt)]
    exact map
  · rw [mount, frame.disk _ (descIn _ ready.sbSlot_lt)]
    exact sbAt

theorem ckptCommit_ends (slot : Nat) (ok : CkptOk s)
    (super : ckptSuperblock s = .ok sb) (written : Written s t xid moved) (ready : Ready t.gApfs)
    (map : t.dev.disk (t.gApfs.acXpDescBase + t.gApfs.mapSlot) = .cpm (ckptMap t.gApfs xid moved)) :
    Ends (ckptCommit xid slot moved sb) t
      (fun _ u => CkptOk u ∧ (FlushSafe (ckptRelease xid s) → BitmapsPublished u)) (fun _ =>
        CkptOk) := by
  obtain ⟨u, frame, outcome⟩ := ckptCommit_cases xid slot moved sb t
  have down := written.desc ok ready.inDesc.2 ((written.att.rings ok).sb_ne ready.sbFree) frame
  rcases outcome with ⟨e, failed⟩ | ⟨sbAt, v, later, result⟩
  · exact .of_error failed (down.att.ckptOk ok)
  have mount := frame.ring.mount
  have map' : u.dev.disk (t.gApfs.acXpDescBase + t.gApfs.mapSlot) =
      .cpm (ckptMap t.gApfs xid moved) := by
    rw [← map]
    exact frame.disk _ fun same => ready.sbSlot_ne (by omega)
  rw [← mount] at sbAt map' ready result
  have after := down.afterwards slot ok ready super map' sbAt later
  rw [← result] at after
  exact .of_result (fun _ _ => after) fun _ => after.1

/-! ### The whole -/

theorem ckptEph_written (ok : CkptOk s) (ready : Ready s.gApfs) (att : Attempt s t)
    (safe : FlushSafe (ckptRelease xid s) → OnDisk t) :
    Ends (ckptEph xid 0 t.gApfs.acEph) t (fun moved u => Written s u xid moved) (fun _ =>
      Attempt s) := by
  have rings := att.rings ok
  have sizes : t.gApfs.acEph.length ≤ t.gApfs.acXpDataBlocks ∧ 0 < t.gApfs.acXpDataBlocks := by
    rw [att.mount_eq]
    exact ⟨ready.data, ready.dataBlocks⟩
  have slotIn := Mount.inData_dataSlot sizes.2
  have away : ∀ b, inPool t.gApfs b = true → ¬ t.gApfs.DataSlots 0 t.gApfs.acEph.length b := by
    rintro b inside ⟨k, -, -, rfl⟩
    exact (rings.pool _ inside).2.2.2 (slotIn k)
  have kept : ∀ u, DevFrame (t.gApfs.DataSlots 0 t.gApfs.acEph.length) t u → Attempt s u := by
    refine fun u frame => att.ring frame.ring away ?_
    rintro ⟨k, -, -, same⟩
    exact (rings.desc _ rings.sb_inDesc).2.2 (same ▸ slotIn k)
  refine (ckptEph_ends xid t.gApfs.acEph 0 t (by omega)).mono ?_ fun _ => kept
  rintro moved u ⟨frame, places, copies⟩
  have mount := frame.ring.mount
  refine ⟨kept u frame, fun h => (safe h).ring att.ok frame.ring away, ?_, fun p member => ?_,
    fun k e p found oid place => ?_⟩
  · rw [mount, places, length_map, length_range']
  · rw [places] at member
    rw [mount]
    obtain ⟨k, -, rfl⟩ := mem_map.mp member
    exact slotIn k
  rw [mount] at found oid
  rw [frame.sm]
  have copy := copies k e found oid
  have bound := (List.getElem?_eq_some_iff.mp found).1
  rw [places, List.getElem?_map, List.getElem?_range' (by omega)] at place
  simp only [map_some, one_mul, some.injEq] at place
  rw [← place]
  exact copy

/-- An attempt at a checkpoint leaves a container that can be written, however far it gets; one
that succeeds publishes the bitmaps if the flush in it was safe. -/
theorem fsApfsCheckpoint_ends (ok : CkptOk s) : Ends fsApfsCheckpoint s
    (fun _ u => CkptOk u ∧ (FlushSafe (ckptRelease (s.gApfs.acXid + 1) s) → BitmapsPublished u))
      (fun _ => CkptOk) := by
  have failed : ∀ t, Attempt s t → CkptOk t := fun t att => att.ckptOk ok
  refine .guard_bind ok fun goes => .read_bind (.lift_bind (fun _ => ok) fun sb super => ?_)
  have ready := ready_of_not_refused (by simpa using goes)
  refine .bind ((ckptSpace_ends ok).mono (fun _ _ h => h) fun _ => failed) fun slot t₁ space =>
    .read_bind ?_
  refine .bind ((ckptEph_written ok ready space.1 space.2).mono (fun _ _ h => h) fun _ => failed)
    fun moved t₂ written =>
    .read_bind ?_
  have ready₂ : Ready t₂.gApfs := by
    rw [written.att.mount_eq]
    exact { ready with }
  have desc : ∀ u, DevFrame (· = t₂.gApfs.acXpDescBase + t₂.gApfs.mapSlot) t₂ u →
      Written s u (s.gApfs.acXid + 1) moved :=
    fun u => written.desc ok ready₂.inDesc.1 ((written.att.rings ok).sb_ne ready₂.mapFree)
  refine .bind ((writeBlock_ends _ _ t₂).mono (fun _ _ h => h) fun _ u frame =>
    failed u (desc u frame).att)
    fun _ t₃ wrote => ?_
  obtain ⟨frame, map⟩ := wrote
  have down := desc t₃ frame
  have flush := ckptBarrier_dev t₃
  have down' := down.dev flush (fun _ _ => id) (fun _ _ => id) id
  refine .bind (Q := fun _ t => t = (ckptBarrier t₃).2) (.of_result (fun _ _ => rfl) fun _ =>
    failed _ down'.att) ?_
  rintro _ _ rfl
  have mount := flush.ring.mount.trans frame.ring.mount
  refine ckptCommit_ends slot ok super down' (by rwa [mount]) ?_
  rw [mount, flush.disk _ id]
  exact map

/-! ### Attempts and retries -/

/-- One routine of the allocator, or one attempt at a checkpoint, however it ends. -/
inductive CkptStep : Kern → Kern → Prop
  | space {s t : Kern} : SpaceStep s t → CkptStep s t
  | checkpoint (s : Kern) : CkptStep s (fsApfsCheckpoint s).2

theorem CkptOk.step (ok : CkptOk s) (step : CkptStep s t) : CkptOk t := by
  cases step with
  | space step =>
    exact (ok.attempt.space ok (ok.space.step step).1 (ok.space.step step).2).ckptOk ok
  | checkpoint =>
    rcases outcome : fsApfsCheckpoint s with ⟨e | ⟨⟩, t⟩
    · exact (fsApfsCheckpoint_ends ok).error rfl outcome
    · exact ((fsApfsCheckpoint_ends ok).ok rfl outcome).1

theorem CkptOk.run (ok : CkptOk s) (steps : Relation.ReflTransGen CkptStep s t) : CkptOk t := by
  induction steps with
  | refl => exact ok
  | tail _ step ih => exact ih.step step

/-- Whatever was tried before, a checkpoint that returns OK publishes the bitmaps in memory,
provided that when its `alloc_flush` ran some chunk was dirty or the chunk-info block on disk
was the one in memory. -/
theorem checkpoint_publishes_bitmaps (mounted : CkptOk s)
    (steps : Relation.ReflTransGen CkptStep s t)
    (safe : FlushSafe (ckptRelease (t.gApfs.acXid + 1) t))
    (returned : fsApfsCheckpoint t = (.ok (), u)) :
    BitmapsPublished u :=
  ((fsApfsCheckpoint_ends (mounted.run steps)).ok rfl returned).2 safe

theorem smallKern_ckptOk : CkptOk smallKern := by
  have pool : ∀ b, inPool smallKern.gApfs b = true → 4 ≤ b ∧ b < 8 :=
    fun b inside => inPool_iff.mp inside
  refine ⟨smallKern_ok, rfl, ⟨?_, ?_, ?_, by decide, ⟨1, by decide, rfl⟩, ⟨_, mem_cons_self, rfl⟩⟩,
    rfl, ?_⟩
  · intro b inside
    obtain ⟨low, high⟩ := pool b inside
    refine ⟨by omega, fun h => ?_, fun h => ?_, fun h => ?_⟩
    · have : 8 ≤ b := h.1
      omega
    · have : 12 ≤ b := h.1
      omega
    · have : 16 ≤ b := h.1
      omega
  · intro b inside
    have low : 12 ≤ b := inside.1
    have high : b < 12 + 4 := inside.2
    refine ⟨by omega, fun h => ?_, fun h => ?_⟩
    · have : b < 8 + 4 := h.2
      omega
    · have : 16 ≤ b := h.1
      omega
  · intro b inside
    have low : 16 ≤ b := inside.1
    omega
  · intro sb found
    obtain rfl := Block.nxsb.inj found
    exact ⟨rfl, rfl⟩

/-- A pool block was given back, and a block taken: the next checkpoint has a bitmap to put down
and room for it and for the chunk-info block. -/
def roomyKern : Kern := (allocBlocks 1 0 (fqRelease (ipFree 6 smallKern) .ip 5)).2

theorem checkpoint_publishes_roomy : FlushSafe (ckptRelease (roomyKern.gApfs.acXid + 1) roomyKern) ∧
    (fsApfsCheckpoint roomyKern).1 = .ok () ∧ BitmapsPublished (fsApfsCheckpoint roomyKern).2 := by
  have free : CkptStep smallKern (ipFree 6 smallKern) :=
    .space ⟨.ipFree 6, fun _ => ⟨fun e queued => absurd queued not_mem_nil, by decide⟩, rfl⟩
  have release : CkptStep (ipFree 6 smallKern) (fqRelease (ipFree 6 smallKern) .ip 5) :=
    .space ⟨.fqRelease .ip 5, trivial, rfl⟩
  have take : CkptStep (fqRelease (ipFree 6 smallKern) .ip 5) roomyKern :=
    .space ⟨.allocBlocks 1 0, trivial, rfl⟩
  have dirty : (ckptRelease (roomyKern.gApfs.acXid + 1) roomyKern).gChunk.any AllocChunk.chDirty =
      true := by
    decide +kernel
  have safe : FlushSafe (ckptRelease (roomyKern.gApfs.acXid + 1) roomyKern) :=
    .inl (any_eq_true.mp dirty)
  have returned : (fsApfsCheckpoint roomyKern).1 = .ok () := by decide +kernel
  exact ⟨safe, returned, checkpoint_publishes_bitmaps smallKern_ckptOk
    (((Relation.ReflTransGen.single free).tail release).tail take) safe (Act.run_eq returned)⟩

/-! ### The retry that publishes a stale chunk-info block -/

def Block.asCib : Block → Option ChunkInfoBlock
  | .cib x => some x
  | _ => none

/-- A block was taken, and a checkpoint was tried: the bitmap went to the last free pool block,
and none was left for the chunk-info block. -/
def retryKern : Kern := (fsApfsCheckpoint (allocBlocks 1 0 smallKern).2).2

/-- The second attempt finds no chunk dirty, writes nothing in step 0 and returns OK. The
chunk-info block it publishes is the one from before the block was taken. -/
theorem retry_publishes_stale_bitmaps : CkptOk smallKern ∧
    Relation.ReflTransGen CkptStep smallKern retryKern ∧
    (fsApfsCheckpoint (allocBlocks 1 0 smallKern).2).1 = .error .noAlloc ∧
    (fsApfsCheckpoint retryKern).1 = .ok () ∧
      ¬ BitmapsPublished (fsApfsCheckpoint retryKern).2 := by
  have take : CkptStep smallKern (allocBlocks 1 0 smallKern).2 :=
    .space ⟨.allocBlocks 1 0, trivial, rfl⟩
  refine ⟨smallKern_ckptOk,
    (Relation.ReflTransGen.single take).tail (.checkpoint _), by decide +kernel,
    by decide +kernel, ?_⟩
  have addr : (publishedSpaceman (fsApfsCheckpoint retryKern).2.dev.disk
      (fsApfsCheckpoint retryKern).2.gApfs.acSbBno).map Spaceman.smCibAddr = some 5 := by
        decide +kernel
  have stale : ((fsApfsCheckpoint retryKern).2.dev.disk 5).asCib =
      some ⟨5, 4, [⟨4, 0, 32, 8, 4⟩]⟩ := by
    decide +kernel
  have held : (fsApfsCheckpoint retryKern).2.gChunk.map (fun ch =>
    (ch.chSlot, clearCount ch.chBm ch.chBlocks)) =
      [(0, 7)] := by decide +kernel
  rintro ⟨sm, cib, published, point, chunks⟩
  rw [published, map_some, some.injEq] at addr
  rw [addr] at point
  rw [point] at stale
  cases stale
  obtain ⟨ch, member, slot, clear⟩ : ∃ ch ∈ (fsApfsCheckpoint retryKern).2.gChunk, ch.chSlot = 0 ∧
      clearCount ch.chBm ch.chBlocks = 7 := by
    have row : (0, 7) ∈ (fsApfsCheckpoint retryKern).2.gChunk.map
        (fun ch => (ch.chSlot, clearCount ch.chBm ch.chBlocks)) := by
      rw [held]
      exact mem_cons_self
    obtain ⟨ch, member, same⟩ := mem_map.mp row
    exact ⟨ch, member, (Prod.mk.inj same).1, (Prod.mk.inj same).2⟩
  obtain ⟨ci, info, -, counted⟩ := chunks ch member
  rw [slot] at info
  cases info
  rw [clear] at counted
  exact absurd counted (by decide)

end Style9.Apfs
