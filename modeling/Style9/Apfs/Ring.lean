import Style9.Apfs.Publish
import Style9.Lib.Chain

/-!
# The ring of pool bitmaps over attempts

`ip_rotate` takes the head of the free list for the new bitmap and hangs the slot it replaces on
the tail, before anything is committed; only a checkpoint that lands moves the live slot. As long
as no attempt stops in between, the list and the live slot are all the slots, each once, and the
slot of the last published checkpoint is never written.
-/
namespace Style9.Apfs

open Style9.Lib List Act Option
open Style9.Lib.Act (Ends)

variable {s t u : Kern} {sm : Spaceman} {free : List Nat} {slots live : Nat} {p : Nat → Prop}

/-! ### The free list -/

/-- `free` is the free list, from its head to its tail, and with the live slot it is all the
slots. -/
structure RingOk (slots live : Nat) (sm : Spaceman) (free : List Nat) : Prop where
  small : slots ≤ apfsBtoffInvalid
  table : slots ≤ sm.smIpBmFreeNext.length
  chain : Chain sm.smIpBmFreeNext apfsBtoffInvalid sm.smIpBmFreeHead free
  tail : free.getLast? = some sm.smIpBmFreeTail
  cover : (live :: free).Perm (range slots)

section

variable (ring : RingOk slots live sm free)
include ring

theorem RingOk.nodup : (live :: free).Nodup := ring.cover.nodup_iff.mpr nodup_range

theorem RingOk.lt {slot : Nat} (member : slot ∈ live :: free) :
    slot < slots := mem_range.mp (ring.cover.mem_iff.mp member)

theorem RingOk.length : free.length + 1 = slots := by
  have same := ring.cover.length_eq
  rwa [length_cons, length_range] at same

/-- The head leaves the list and the replaced slot is hung on its tail. With two slots in the list
the one taken is marked as outside it; with one, its entry is left pointing at the other. -/
theorem RingOk.rotated (xid : Nat) : ∃ rest, free = sm.smIpBmFreeHead :: rest ∧
      RingOk slots sm.smIpBmFreeHead (sm.rotated slots sm.smIpBmFreeHead live xid)
        (rest ++ [live]) ∧
      (rest ≠ [] →
        (sm.rotated slots sm.smIpBmFreeHead live xid).smIpBmFreeNext[sm.smIpBmFreeHead]? =
        some apfsBtoffInvalid) := by
  have nodup := ring.nodup
  have liveLt := ring.lt mem_cons_self
  have tailLt := ring.lt (mem_cons_of_mem _ (mem_of_getLast? ring.tail))
  have table := ring.table
  have bound := ring.small
  cases hfree : free with
  | nil =>
    have last := ring.tail
    rw [hfree] at last
    cases last
  | cons slot rest =>
  have chain := ring.chain
  have last := ring.tail
  have cover := ring.cover
  rw [hfree] at chain last cover nodup
  obtain ⟨here, after, link, chain'⟩ := chain
  rw [here]
  have slotIn := (List.getElem?_eq_some_iff.mp link).1
  obtain ⟨apart, nodup'⟩ := nodup_cons.mp nodup
  obtain ⟨slotOut, nodupRest⟩ := nodup_cons.mp nodup'
  have slotNe : slot ≠ live := fun same => apart (same ▸ mem_cons_self)
  have cover' : (slot :: (rest ++ [live])).Perm (range slots) := by
    refine List.Perm.trans ?_ cover
    exact (perm_append_singleton live (slot :: rest))
  have value : sm.smIpBmFreeNext.getD slot 0 = after := by
    rw [getD_eq_getElem?_getD, link, getD_some]
  refine ⟨rest, rfl, ?_, ?_⟩
  · refine ⟨bound, ?_, ?_, ?_, cover'⟩
    · change slots ≤ List.length (List.set _ live _)
      rw [length_set, if_pos tailLt, length_set, length_set]
      exact table
    · cases rest with
      | nil =>
        -- the list runs out, so the replaced slot is its head too
        change Chain _ _ (if slots ≤ sm.smIpBmFreeNext.getD slot 0 then live else _) _
        rw [value, chain', if_pos bound]
        exact ⟨rfl, apfsBtoffInvalid, getElem?_set_self (by
          rw [if_pos tailLt, length_set, length_set]; omega), rfl⟩
      | cons slot' rest =>
        change Chain _ _ (if slots ≤ sm.smIpBmFreeNext.getD slot 0 then live else _) _
        have small : ¬ slots ≤ after := by
          rw [chain'.1]
          have below : slot' < slots := ring.lt (hfree ▸ by simp)
          omega
        rw [value, if_neg small, Spaceman.rotated, if_pos tailLt]
        exact (chain'.set slotOut apfsBtoffInvalid).hang nodupRest last
          (fun member => apart (mem_cons_of_mem _ member)) (by rw [length_set]; omega)
    · change _ = some live
      rw [getLast?_append, getLast?_singleton, some_or]
  intro more
  have tailOther : sm.smIpBmFreeTail ≠ slot := by
    rintro same
    cases rest with
    | nil => exact more rfl
    | cons slot' rest =>
      exact slotOut (same ▸ mem_of_getLast? last)
  change (set _ live _)[slot]? = _
  rw [getElem?_set_ne slotNe.symm, if_pos tailLt, getElem?_set_ne tailOther,
    getElem?_set_self slotIn]

/-! ### What leaves the ring alone -/

theorem RingOk.of_ring {sm' : Spaceman} (same : sm'.ring = sm.ring) :
    RingOk slots live sm' free := by
  obtain ⟨head, tail, next⟩ : sm'.smIpBmFreeHead = sm.smIpBmFreeHead ∧
      sm'.smIpBmFreeTail = sm.smIpBmFreeTail ∧ sm'.smIpBmFreeNext = sm.smIpBmFreeNext := by
    simpa [Spaceman.ring] using same
  exact ⟨ring.small, by rw [next]; exact ring.table, by rw [head, next]; exact ring.chain,
    by rw [tail]; exact ring.tail, ring.cover⟩

end

/-- The ring and the mount stay, up to the allocator's own fields. -/
structure Aside (p : Nat → Prop) (s t : Kern) : Prop where
  ring : t.gSm.ring = s.gSm.ring
  mount : { t.gApfs with acSmFree := 0, acAllocCib := 0 } =
    { s.gApfs with acSmFree := 0, acAllocCib := 0 }
  log : Logged p s t

theorem Aside.refl (p : Nat → Prop) (s : Kern) : Aside p s s := ⟨rfl, rfl, .of_dev rfl⟩

theorem Aside.trans (h : Aside p s t) (k : Aside p t u) : Aside p s u :=
  ⟨k.ring.trans h.ring, k.mount.trans h.mount, h.log.trans k.log⟩

theorem SpaceFrame.aside (frame : SpaceFrame s t) (pool : ∀ b, Apfs.inPool s.gApfs b = true → p b) :
    Aside p s t :=
  ⟨frame.ring, frame.mount, frame.log.mono pool⟩

theorem Aside.of_dev {touched : Nat → Prop} (frame : DevFrame touched s t)
    (inside : ∀ b, touched b → p b) :
    Aside p s t :=
  ⟨congrArg Spaceman.ring frame.sm, by rw [frame.ring.mount], frame.log.mono inside⟩

/-! ### One attempt -/

/-- The free list of a mounted container is `free`. -/
def Kern.Ring (s : Kern) (free : List Nat) : Prop :=
  RingOk s.gApfs.acIpbmSlots s.gApfs.acIpbmSlot s.gSm free

/-- The block of the slot the last published checkpoint's pool bitmap is in. -/
def Kern.liveBitmap (s : Kern) : Nat := s.gApfs.acIpbmBase + s.gApfs.acIpbmSlot

/-- A container that can be written, with its ring in order and clear of block zero and of the
data ring. -/
structure RingReady (s : Kern) (free : List Nat) : Prop where
  ok : CkptOk s
  ring : s.Ring free
  apart : ∀ b, s.gApfs.InIpbm b → b ≠ 0 ∧ ¬ s.gApfs.InData b

theorem RingReady.inIpbm (ready : RingReady s free) {slot : Nat}
    (member : slot ∈ s.gApfs.acIpbmSlot :: free) :
    s.gApfs.InIpbm (s.gApfs.acIpbmBase + slot) :=
  ⟨Nat.le_add_right _ _, Nat.add_lt_add_left (ready.ring.lt member) _⟩

theorem RingReady.pool (ready : RingReady s free) (b : Nat) (inside : inPool s.gApfs b = true) :
    b ≠ s.liveBitmap := by
  rintro rfl
  exact (ready.ok.rings.pool _ inside).2.1 (ready.inIpbm mem_cons_self)

theorem RingReady.data (ready : RingReady s free) (b : Nat) (inside : s.gApfs.InData b) :
    b ≠ s.liveBitmap := by
  rintro rfl
  exact (ready.apart _ (ready.inIpbm mem_cons_self)).2 inside

theorem RingReady.desc (ready : RingReady s free) (b : Nat) (inside : s.gApfs.InDesc b) :
    b ≠ s.liveBitmap := by
  rintro rfl
  exact (ready.ok.rings.desc _ inside).2.1 (ready.inIpbm mem_cons_self)

/-- Past `ip_rotate`: the ring has moved on, the mount has not. -/
structure Rotated (s t : Kern) : Prop where
  ring : t.gSm.ring =
    (s.gSm.rotated s.gApfs.acIpbmSlots s.gSm.smIpBmFreeHead s.gApfs.acIpbmSlot
      (s.gApfs.acXid + 1)).ring
  mount : { t.gApfs with acSmFree := 0, acAllocCib := 0 } =
    { s.gApfs with acSmFree := 0, acAllocCib := 0 }
  log : Logged (· ≠ s.liveBitmap) s t

structure Landed (s t : Kern) : Prop where
  ring : t.gSm.ring =
    (s.gSm.rotated s.gApfs.acIpbmSlots s.gSm.smIpBmFreeHead s.gApfs.acIpbmSlot
      (s.gApfs.acXid + 1)).ring
  xid : t.gApfs.acXid = s.gApfs.acXid + 1
  slots : t.gApfs.acIpbmSlots = s.gApfs.acIpbmSlots
  slot : t.gApfs.acIpbmSlot = s.gSm.smIpBmFreeHead
  places : t.gApfs.acIpbmBase = s.gApfs.acIpbmBase ∧ t.gApfs.acXpDataBase = s.gApfs.acXpDataBase ∧
    t.gApfs.acXpDataBlocks = s.gApfs.acXpDataBlocks
  log : Logged (· ≠ s.liveBitmap) s t

theorem Rotated.then (rot : Rotated s t) (aside : Aside (· ≠ s.liveBitmap) t u) : Rotated s u :=
  ⟨aside.ring.trans rot.ring, aside.mount.trans rot.mount, rot.log.trans aside.log⟩

/-- `ip_rotate` writes the head slot, which is not the live one, and changes the ring only if the
drive took it. -/
theorem RingReady.ipRotate (ready : RingReady s free) (before : Aside (· ≠ s.liveBitmap) s t) :
    Ends (ipRotate (s.gApfs.acXid + 1)) t (fun slot u => slot = s.gSm.smIpBmFreeHead ∧ Rotated s u)
      (fun _ => Aside (· ≠ s.liveBitmap) s) := by
  obtain ⟨head, tail, next⟩ : t.gSm.smIpBmFreeHead = s.gSm.smIpBmFreeHead ∧
      t.gSm.smIpBmFreeTail = s.gSm.smIpBmFreeTail ∧
        t.gSm.smIpBmFreeNext = s.gSm.smIpBmFreeNext := by
    simpa [Spaceman.ring] using before.ring
  have base : t.gApfs.acIpbmBase = s.gApfs.acIpbmBase := by rw [Mount.eq_of_rest before.mount]
  have slots : t.gApfs.acIpbmSlots = s.gApfs.acIpbmSlots := by rw [Mount.eq_of_rest before.mount]
  have slot : t.gApfs.acIpbmSlot = s.gApfs.acIpbmSlot := by rw [Mount.eq_of_rest before.mount]
  obtain ⟨rest, free_eq, -⟩ := ready.ring.rotated 0
  have other : ∀ b, b = t.gApfs.acIpbmBase + t.gSm.smIpBmFreeHead → b ≠ s.liveBitmap := by
    rintro b rfl same
    have apart := (nodup_cons.mp ready.ring.nodup).1
    rw [base, head] at same
    refine apart ?_
    rw [free_eq, ← Nat.add_left_cancel same]
    exact mem_cons_self
  by_cases full : t.gSm.smIpBmFreeHead ≥ t.gApfs.acIpbmSlots
  · exact .of_error (if_pos full) before
  refine .congr (if_neg full) (.bind ((writeBlock_ends _ _ t).mono (fun _ _ h => h) fun _ u frame =>
    before.trans (.of_dev frame other)) ?_)
  rintro _ u ⟨frame, -⟩
  have wrote := Aside.of_dev frame other
  obtain ⟨d, rfl⟩ := frame.only
  refine .congr (y := Pure.pure t.gSm.smIpBmFreeHead) rfl
    (.pure ⟨head, ?_, before.mount, before.log.trans wrote.log⟩)
  simp only [Spaceman.ring, Spaceman.rotated, head, tail, next, slots, slot]

theorem RingReady.ckptSpace (ready : RingReady s free) :
    Ends (ckptSpace (s.gApfs.acXid + 1)) s (fun slot u => slot = s.gSm.smIpBmFreeHead ∧ Rotated s u)
      (fun _ => Aside (· ≠ s.liveBitmap) s) := by
  obtain ⟨okR, frameR⟩ := ckptRelease_space ready.ok.space (s.gApfs.acXid + 1)
  have flushed :=
    (frameR.trans (allocFlush_flushed okR (s.gApfs.acXid + 1)).1.frame).aside ready.pool
  refine .congr (ckptSpace_run ready.ok.valid)
    (.bind (.of_result (fun _ _ => flushed) fun _ => flushed) fun _ t aside => ?_)
  exact ready.ipRotate aside

/-- What an attempt past `ip_rotate` becomes: nothing more, or the checkpoint that lands. -/
theorem RingReady.ckptCommit (ready : RingReady s free) (fits : Ready s.gApfs) (moved : List Nat)
    (sb : NxSuperblock) (rot : Rotated s t) :
    Ends (ckptCommit (s.gApfs.acXid + 1) s.gSm.smIpBmFreeHead moved sb) t (fun _ => Landed s)
      (fun _ u => Rotated s u ∨ Landed s u) := by
  have zero : ∀ b, b = 0 → b ≠ s.liveBitmap := by
    rintro b rfl same
    exact (ready.apart _ (ready.inIpbm mem_cons_self)).1 same.symm
  have inDesc : ∀ b, b = t.gApfs.acXpDescBase + t.gApfs.sbSlot → b ≠ s.liveBitmap := by
    rintro b rfl
    rw [Mount.eq_of_rest rot.mount]
    exact ready.desc _ fits.inDesc.2
  obtain ⟨u, frame, ⟨e, failed⟩ | ⟨-, v, later, result⟩⟩ :=
    ckptCommit_cases (s.gApfs.acXid + 1) s.gSm.smIpBmFreeHead moved sb t
  · exact .of_error failed (.inl (rot.then (.of_dev frame inDesc)))
  -- whatever follows the superblock's write, the mount is the new checkpoint's
  have written := rot.log.trans ((frame.log.mono inDesc).trans (later.log.mono zero))
  have landed :
      Landed s (Apfs.ckptCommit (s.gApfs.acXid + 1) s.gSm.smIpBmFreeHead moved sb t).2 := by
    rw [result]
    refine ⟨by rw [← rot.ring, ← frame.sm, ← later.sm], rfl, ?_, ?_, ?_, written⟩
    · rw [Mount.eq_of_rest rot.mount]
      rfl
    · rw [Mount.eq_of_rest rot.mount]
      exact if_pos ready.ok.valid
    · rw [Mount.eq_of_rest rot.mount]
      exact ⟨rfl, rfl, rfl⟩
  exact .of_result (fun _ _ => landed) fun _ => .inr landed

/-- How far an attempt got. -/
def Reached (s u : Kern) : Prop := Aside (· ≠ s.liveBitmap) s u ∨ Rotated s u ∨ Landed s u

theorem RingReady.attempt (ready : RingReady s free) :
    Ends fsApfsCheckpoint s (fun _ => Landed s) fun _ => Reached s := by
  have start : Reached s s := .inl (.refl _ s)
  have turned : ∀ t, Rotated s t → Reached s t := fun _ rot => .inr (.inl rot)
  refine .guard_bind start fun goes => .read_bind (.lift_bind (fun _ => start) fun sb _ => ?_)
  have fits := ready_of_not_refused (by simpa using goes)
  refine .bind (ready.ckptSpace.mono (fun _ _ h => h) fun _ _ h => .inl h) ?_
  rintro _ t₁ ⟨rfl, rot₁⟩
  have data : ∀ u, DevFrame (t₁.gApfs.DataSlots 0 t₁.gApfs.acEph.length) t₁ u → Rotated s u := by
    refine fun u frame => rot₁.then (.of_dev frame ?_)
    rintro _ ⟨k, -, -, rfl⟩
    rw [Mount.eq_of_rest rot₁.mount]
    exact ready.data _ (Mount.inData_dataSlot fits.dataBlocks k)
  have room : 0 + t₁.gApfs.acEph.length ≤ t₁.gApfs.acXpDataBlocks := by
    rw [Mount.eq_of_rest rot₁.mount, Nat.zero_add]
    exact fits.data
  refine .read_bind (.bind
    ((ckptEph_ends _ _ 0 t₁ room).mono (fun _ u h => data u h.1) fun _ u frame =>
    turned u (data u frame)) fun moved t₂ rot₂ => .read_bind ?_)
  have map : ∀ u, DevFrame (· = t₂.gApfs.acXpDescBase + t₂.gApfs.mapSlot) t₂ u → Rotated s u := by
    refine fun u frame => rot₂.then (.of_dev frame ?_)
    rintro b rfl
    rw [Mount.eq_of_rest rot₂.mount]
    exact ready.desc _ fits.inDesc.1
  refine .bind ((writeBlock_ends _ _ t₂).mono (fun _ u h => map u h.1) fun _ u frame =>
    turned u (map u frame))
    fun _ t₃ rot₃ => ?_
  have flushed := rot₃.then (.of_dev (ckptBarrier_dev t₃) fun _ h => h.elim)
  refine .bind (.of_result (fun _ _ => flushed) fun _ => turned _ flushed) fun _ t₄ rot₄ => ?_
  exact (ready.ckptCommit fits moved sb rot₄).mono (fun _ _ h => h) fun _ _ h => .inr h

theorem RingReady.reached (ready : RingReady s free) : Reached s (fsApfsCheckpoint s).2 := by
  rcases outcome : fsApfsCheckpoint s with ⟨e | ⟨⟩, u⟩
  · exact ready.attempt.error rfl outcome
  · exact .inr (.inr (ready.attempt.ok rfl outcome))

theorem Reached.log (reached : Reached s u) : Logged (· ≠ s.liveBitmap) s u := by
  rcases reached with aside | rot | landed
  · exact aside.log
  · exact rot.log
  · exact landed.log

/-! ### Attempts that are not stopped in between -/

/-- The drive takes the next so many requests, and writes are allowed. -/
def Kern.takes (t : Kern) (n : Nat) : Bool := t.gView.isNone && (t.dev.refuse.take n).all (!·)

theorem Kern.takes_succ {n : Nat} (takes : t.takes (n + 1) = true) :
    t.gView = none ∧ t.dev.answer.1 = true ∧ (t.dev.answer.2.take n).all (!·) = true := by
  simp only [Kern.takes, Bool.and_eq_true, isNone_iff_eq_none] at takes
  refine ⟨takes.1, ?_⟩
  unfold Device.answer
  cases coming : t.dev.refuse with
  | nil => exact ⟨rfl, by simp⟩
  | cons no rest => simpa [coming] using takes.2

theorem writeBlock_taken {n : Nat} (takes : t.takes (n + 1) = true) (bno : Nat) (block : Block) :
    ∃ d, writeBlock bno block t = (.ok (), { t with dev := d }) ∧
      ({ t with dev := d } : Kern).takes n = true ∧
        d.disk = Function.update t.dev.disk bno block := by
  obtain ⟨view, taken, later⟩ := Kern.takes_succ takes
  refine ⟨⟨Function.update t.dev.disk bno block, t.dev.log ++ [.write bno block], t.dev.answer.2⟩,
    ?_, by simp [Kern.takes, view, later], rfl⟩
  unfold writeBlock
  rw [view, taken]
  rfl

theorem ckptBarrier_taken {n : Nat} (takes : t.takes (n + 1) = true) :
    ∃ d, ckptBarrier t = (.ok (), { t with dev := d }) ∧
      ({ t with dev := d } : Kern).takes n = true := by
  obtain ⟨view, taken, later⟩ := Kern.takes_succ takes
  refine ⟨⟨t.dev.disk, t.dev.log ++ [.flush], t.dev.answer.2⟩, ?_,
    by simp [Kern.takes, view, later]⟩
  unfold ckptBarrier
  rw [taken]
  rfl

theorem setXid_sealed (xid : Nat) (block : Block) : (block.setXid xid).sealed = block.sealed := by
  cases block <;> rfl

theorem ephBlock_sealed {e : Eph} {block : Block} (value : ephBlock t e = .ok block) :
    block.sealed = true := by
  unfold ephBlock at value
  split at value
  · cases value
  split at value
  · cases value
    rfl
  split at value
  · cases value
    rfl
  split at value
  next there =>
    cases value
    exact there
  · cases value

/-- What could be read of the ephemerals can be read after more of them are written. -/
theorem ephBlock_readable {e : Eph} {d : Device}
    (disk : ∀ b, (t.dev.disk b).sealed = true → (d.disk b).sealed = true)
    (readable : (ephBlock t e).isOk = true) :
    (ephBlock { t with dev := d } e).isOk = true := by
  unfold ephBlock at readable ⊢
  split
  next size => rw [if_pos size] at readable; cases readable
  next size =>
  rw [if_neg size] at readable
  split
  · rfl
  next other =>
  rw [if_neg other] at readable
  rw [show fqMem { t with dev := d } e.eOid = fqMem t e.eOid from rfl]
  cases held : fqMem t e.eOid with
  | some n => rfl
  | none =>
  rw [held] at readable
  dsimp only at readable ⊢
  split at readable
  next there => rw [if_pos (disk _ there)]; rfl
  · cases readable

theorem ckptEph_taken (xid : Nat) {n : Nat} (ephs : List Eph) (i : Nat) (t : Kern)
    (takes : t.takes (ephs.length + n) = true)
    (readable : ∀ e ∈ ephs, (ephBlock t e).isOk = true) :
    ∃ moved d, ckptEph xid i ephs t = (.ok moved, { t with dev := d }) ∧
      ({ t with dev := d } : Kern).takes n = true := by
  induction ephs generalizing i t with
  | nil => exact ⟨[], t.dev, rfl, by simpa using takes⟩
  | cons e rest ih =>
  obtain ⟨first, others⟩ := forall_mem_cons.mp readable
  obtain ⟨block, value⟩ : ∃ block, ephBlock t e = .ok block := by
    cases value : ephBlock t e with
    | error err => rw [value] at first; cases first
    | ok block => exact ⟨block, rfl⟩
  rw [length_cons, Nat.add_right_comm] at takes
  obtain ⟨d, wrote, later, disk⟩ := writeBlock_taken takes
    (t.gApfs.acXpDataBase + t.gApfs.dataSlot i) (block.setXid xid)
  have still : ∀ b, (t.dev.disk b).sealed = true → (d.disk b).sealed = true := by
    intro b there
    rw [disk, Function.update_apply]
    split
    · rw [setXid_sealed, ephBlock_sealed value]
    · exact there
  obtain ⟨moved, d', went, after⟩ := ih (i + 1) { t with dev := d } later
    fun e' member => ephBlock_readable still (others e' member)
  refine ⟨(t.gApfs.acXpDataBase + t.gApfs.dataSlot i) :: moved, d', ?_, after⟩
  have got : lift (ephBlock · e) t = (.ok block, t) := lift_ok_iff.mpr ⟨value, rfl⟩
  unfold ckptEph
  rw [bind_of_ok got, read_bind, bind_of_ok wrote, bind_of_ok went]
  rfl

/-- Once `ip_rotate` has written the pool's bitmap, the drive takes every request up to the
superblock's write, and every ephemeral can be read. -/
def Kern.Whole (s : Kern) : Prop := ∀ slot t, ckptSpace (s.gApfs.acXid + 1) s = (.ok slot, t) →
  t.takes (t.gApfs.acEph.length + 3) = true ∧ ∀ e ∈ t.gApfs.acEph, (ephBlock t e).isOk = true

/-- An attempt that is not stopped in between and publishes nothing leaves the ring as it was. -/
theorem ring_of_whole (ready : RingReady s free) (whole : s.Whole)
    (xid : (fsApfsCheckpoint s).2.gApfs.acXid = s.gApfs.acXid) :
    (fsApfsCheckpoint s).2.gSm.ring = s.gSm.ring := by
  let test : Op Unit := Act.guard (fun s => !ckptRefuses s.gApfs) .inval
  cases goes : ckptRefuses s.gApfs with
  | true =>
    have refused : test s = (.error .inval, s) := if_neg (by simp [goes])
    unfold fsApfsCheckpoint
    rw [bind_of_error refused]
  | false =>
  have passed : test s = (.ok (), s) := if_pos (by simp [goes])
  cases super : ckptSuperblock s with
  | error e =>
    have failed : lift ckptSuperblock s = (.error e, s) := by rw [lift, super]
    unfold fsApfsCheckpoint
    rw [bind_of_ok passed, read_bind, bind_of_error failed]
  | ok sb =>
  have found : lift ckptSuperblock s = (.ok sb, s) := lift_ok_iff.mpr ⟨super, rfl⟩
  rcases space : ckptSpace (s.gApfs.acXid + 1) s with ⟨e | slot, t⟩
  · unfold fsApfsCheckpoint
    rw [bind_of_ok passed, read_bind, bind_of_ok found, bind_of_error space]
    exact (ready.ckptSpace.error rfl space).ring
  -- Every request succeeds, so that the checkpoint is published.
  obtain ⟨takes, readable⟩ := whole slot t space
  obtain ⟨moved, d₁, ephs, takes₁⟩ :=
    ckptEph_taken (s.gApfs.acXid + 1) t.gApfs.acEph 0 t takes readable
  obtain ⟨d₂, map, takes₂, -⟩ := writeBlock_taken takes₁ (t.gApfs.acXpDescBase + t.gApfs.mapSlot)
    (.cpm (ckptMap t.gApfs (s.gApfs.acXid + 1) moved))
  obtain ⟨d₃, flush, takes₃⟩ := ckptBarrier_taken takes₂
  obtain ⟨d₄, wrote, -, -⟩ := writeBlock_taken takes₃ (t.gApfs.acXpDescBase + t.gApfs.sbSlot)
    (.nxsb (ckptSb t.gApfs (s.gApfs.acXid + 1) sb))
  have published : (fsApfsCheckpoint s).2.gApfs.acXid = s.gApfs.acXid + 1 := by
    unfold fsApfsCheckpoint
    rw [bind_of_ok passed, read_bind, bind_of_ok found, bind_of_ok space, read_bind,
      bind_of_ok ephs,
      read_bind, bind_of_ok map, bind_of_ok flush, ckptCommit]
    dsimp only
    rw [wrote]
    dsimp only
    split <;> rfl
  omega

/-! ### Attempts in a row -/

/-- A routine of the allocator, or an attempt that is not stopped between `ip_rotate` and the
superblock. -/
inductive RingStep : Kern → Kern → Prop
  | space {s t : Kern} : SpaceStep s t → RingStep s t
  | checkpoint (s : Kern) : s.Whole → RingStep s (fsApfsCheckpoint s).2

theorem RingReady.aside (ready : RingReady s free) (aside : Aside p s t) (ok : CkptOk t) :
    RingReady t free := by
  refine ⟨ok, ?_, ?_⟩
  · rw [Kern.Ring, Mount.eq_of_rest aside.mount]
    exact ready.ring.of_ring aside.ring
  · rw [Mount.eq_of_rest aside.mount]
    exact ready.apart

theorem RingReady.landed (ready : RingReady s free) (landed : Landed s t) (ok : CkptOk t) :
    ∃ free', RingReady t free' ∧
      (3 ≤ t.gApfs.acIpbmSlots →
        t.gSm.smIpBmFreeNext[t.gApfs.acIpbmSlot]? = some apfsBtoffInvalid) := by
  obtain ⟨rest, free_eq, ring, marked⟩ := ready.ring.rotated (s.gApfs.acXid + 1)
  obtain ⟨base, dataBase, dataBlocks⟩ := landed.places
  refine ⟨rest ++ [s.gApfs.acIpbmSlot], ⟨ok, ?_, ?_⟩, ?_⟩
  · rw [Kern.Ring, landed.slots, landed.slot]
    exact ring.of_ring landed.ring
  · unfold Mount.InIpbm Mount.InData
    rw [base, landed.slots, dataBase, dataBlocks]
    exact ready.apart
  intro three
  have length := ready.ring.length
  have next : t.gSm.smIpBmFreeNext = (s.gSm.rotated s.gApfs.acIpbmSlots s.gSm.smIpBmFreeHead
      s.gApfs.acIpbmSlot (s.gApfs.acXid + 1)).smIpBmFreeNext :=
        congrArg (fun r => r.2.2) landed.ring
  rw [next, landed.slot]
  refine marked ?_
  rintro rfl
  rw [landed.slots] at three
  rw [free_eq, length_singleton] at length
  omega

theorem RingReady.step (ready : RingReady s free) (step : RingStep s t) :
    ∃ free', RingReady t free' := by
  cases step with
  | space step =>
    exact ⟨free, ready.aside ((ready.ok.space.step step).2.aside (p := fun _ => True) fun _ _ =>
      trivial)
      (ready.ok.step (.space step))⟩
  | checkpoint whole =>
  have ok := ready.ok.step (.checkpoint s)
  rcases ready.reached with aside | rot | landed
  · exact ⟨free, ready.aside aside ok⟩
  · -- the attempt would have left the live slot at the tail of the list
    have xid : (fsApfsCheckpoint s).2.gApfs.acXid = s.gApfs.acXid := by
      rw [Mount.eq_of_rest rot.mount]
    have tail : s.gApfs.acIpbmSlot = s.gSm.smIpBmFreeTail :=
      congrArg (fun r => r.2.1) (rot.ring.symm.trans (ring_of_whole ready whole xid))
    have member := mem_of_getLast? ready.ring.tail
    rw [← tail] at member
    exact absurd member (nodup_cons.mp ready.ring.nodup).1
  · obtain ⟨free', ready', -⟩ := ready.landed landed ok
    exact ⟨free', ready'⟩

theorem RingReady.run (ready : RingReady s free) (steps : Relation.ReflTransGen RingStep s t) :
    ∃ free', RingReady t free' := by
  induction steps with
  | refl => exact ⟨free, ready⟩
  | tail _ step ih =>
    obtain ⟨free', ready'⟩ := ih
    exact ready'.step step

/-- Through any allocator steps and any attempts none of which stops between `ip_rotate` and the
superblock, the free list and the live slot are all the slots, each once; the next attempt, however
it ends, does not write the live slot; and if it returns OK the list is in order around the new
live slot, whose own entry is `0xFFFF` when the ring has three slots or more. -/
theorem ring_conserved (ready : RingReady s free) (steps : Relation.ReflTransGen RingStep s t) :
    (∃ free', t.Ring free') ∧ Logged (· ≠ t.liveBitmap) t (fsApfsCheckpoint t).2 ∧
      ∀ u, fsApfsCheckpoint t = (.ok (), u) → (∃ free', u.Ring free') ∧
        (3 ≤ u.gApfs.acIpbmSlots →
          u.gSm.smIpBmFreeNext[u.gApfs.acIpbmSlot]? = some apfsBtoffInvalid) := by
  obtain ⟨free', ready'⟩ := ready.run steps
  refine ⟨⟨free', ready'.ring⟩, ready'.reached.log, fun u returned => ?_⟩
  have ok := ready'.ok.step (.checkpoint t)
  rw [returned] at ok
  obtain ⟨free'', ready'', marked⟩ := ready'.landed (ready'.attempt.ok rfl returned) ok
  exact ⟨⟨free'', ready''.ring⟩, marked⟩

theorem smallKern_ringReady : RingReady smallKern [1, 2, 3] := by
  refine ⟨smallKern_ckptOk, ⟨by decide, by decide, ?_, rfl, by decide⟩, ?_⟩
  · exact ⟨rfl, 2, rfl, rfl, 3, rfl, rfl, apfsBtoffInvalid, rfl, rfl⟩
  rintro b ⟨low, high⟩
  have low : 8 ≤ b := low
  have high : b < 8 + 4 := high
  refine ⟨by omega, fun h => ?_⟩
  have : 16 ≤ b := h.1
  omega

/-! ### Attempts that stop after `ip_rotate` -/

def IoEvent.place : IoEvent → Option Nat
  | .write bno _ => some bno
  | .flush => none

theorem not_logged_of_place {bno : Nat} {old : List (Option Nat)}
    (before : s.dev.log.map IoEvent.place = old)
    (after : ∃ rest, t.dev.log.map IoEvent.place = old ++ rest ∧ some bno ∈ rest) :
    ¬ Logged (· ≠ bno) s t := by
  rintro ⟨new, log, only⟩
  obtain ⟨rest, places, member⟩ := after
  rw [log, map_append, before] at places
  rw [← append_cancel_left places] at member
  obtain ⟨e, inNew, place⟩ := mem_map.mp member
  cases e with
  | write b block => exact only b block inNew (some.inj place)
  | flush => cases place

/-- The small container on a drive that will refuse some of the coming requests. -/
def refusingKern (refuse : List Bool) : Kern :=
  { smallKern with dev := { smallKern.dev with refuse := refuse } }

theorem refusingKern_ringReady (refuse : List Bool) :
    RingReady (refusingKern refuse) [1, 2, 3] := by
  have frame : DevFrame (fun _ => False) smallKern (refusingKern refuse) :=
    ⟨⟨_, rfl⟩, fun _ _ => rfl, .of_dev rfl⟩
  have ok := (smallKern_ckptOk.attempt.ring frame.ring (fun _ _ => id) id).ckptOk smallKern_ckptOk
  exact ⟨ok, smallKern_ringReady.ring, smallKern_ringReady.apart⟩

/-- A drive that refuses the pool's bitmap once. -/
def lateKern : Kern := (fsApfsCheckpoint (refusingKern [true])).2

theorem lateKern_whole : lateKern.Whole := by
  intro slot t space
  have left : (ckptSpace (lateKern.gApfs.acXid + 1) lateKern).2.takes 6 = true ∧
      (ckptSpace (lateKern.gApfs.acXid + 1) lateKern).2.gApfs.acEph.length = 3 ∧
      ∀ e ∈ (ckptSpace (lateKern.gApfs.acXid + 1) lateKern).2.gApfs.acEph,
        (ephBlock (ckptSpace (lateKern.gApfs.acXid + 1) lateKern).2 e).isOk = true := by
    decide +kernel
  rw [space] at left
  refine ⟨?_, left.2.2⟩
  rw [left.2.1]
  exact left.1

/-- An attempt whose pool bitmap is refused, one that succeeds, and then another one. -/
theorem ring_conserved_small : RingReady (refusingKern [true]) [1, 2, 3] ∧
    (fsApfsCheckpoint (refusingKern [true])).1 = .error .io ∧
    (fsApfsCheckpoint lateKern).1 = .ok () ∧
    (fsApfsCheckpoint (fsApfsCheckpoint lateKern).2).1 = .ok () ∧
    (∃ free, (fsApfsCheckpoint lateKern).2.Ring free) ∧
    Logged (· ≠ (fsApfsCheckpoint lateKern).2.liveBitmap) (fsApfsCheckpoint lateKern).2
      (fsApfsCheckpoint (fsApfsCheckpoint lateKern).2).2 ∧
    (∃ free, (fsApfsCheckpoint (fsApfsCheckpoint lateKern).2).2.Ring free) ∧
    (fsApfsCheckpoint (fsApfsCheckpoint lateKern).2).2.gSm.smIpBmFreeNext[2]? = some 0xFFFF := by
  have refused : (ckptSpace ((refusingKern [true]).gApfs.acXid + 1) (refusingKern [true])).1.isOk =
      false := by decide +kernel
  have whole : (refusingKern [true]).Whole := by
    intro slot t space
    rw [space] at refused
    cases refused
  have again : (fsApfsCheckpoint (fsApfsCheckpoint lateKern).2).1 = .ok () := by decide +kernel
  obtain ⟨kept, away, after⟩ := ring_conserved (refusingKern_ringReady [true])
    ((Relation.ReflTransGen.single (.checkpoint _ whole)).tail
      (.checkpoint lateKern lateKern_whole))
  obtain ⟨order, marked⟩ := after _ (run_eq again)
  have live : (fsApfsCheckpoint (fsApfsCheckpoint lateKern).2).2.gApfs.acIpbmSlot = 2 := by
    decide +kernel
  rw [live] at marked
  exact ⟨refusingKern_ringReady _, by decide +kernel, by decide +kernel, again, kept, away, order,
    marked (by decide +kernel)⟩

def twoSlotKern : Kern :=
  { smallKern with
    gApfs := { smallKern.gApfs with acIpbmSlots := 2 }
    gSm := { smallKern.gSm with
      smIpBmFreeHead := 1, smIpBmFreeTail := 1, smIpBmFreeNext := [0xFFFF, 0xFFFF] } }

/-- The drive takes the pool's bitmap and refuses the first ephemeral. One such attempt, and a
checkpoint that succeeds leaves a slot that is neither live nor in the list. Three, and the next
attempt writes over the live slot. With two slots, a checkpoint that succeeds at once leaves the
live slot's entry pointing at the free one. -/
theorem retry_loses_slots : (RingReady (refusingKern [false, true]) [1, 2, 3] ∧
      (fsApfsCheckpoint (refusingKern [false, true])).1 = .error .io ∧
      (fsApfsCheckpoint (fsApfsCheckpoint (refusingKern [false, true])).2).1 = .ok () ∧
      ¬ ∃ free, (fsApfsCheckpoint (fsApfsCheckpoint (refusingKern [false, true])).2).2.Ring free) ∧
    (RingReady (refusingKern [false, true, false, true, false, true]) [1, 2, 3] ∧
      ∃ t, t = (fsApfsCheckpoint (fsApfsCheckpoint (fsApfsCheckpoint
          (refusingKern [false, true, false, true, false, true])).2).2).2 ∧
        t.liveBitmap = (refusingKern []).liveBitmap ∧
          ¬ Logged (· ≠ t.liveBitmap) t (fsApfsCheckpoint t).2) ∧
    (twoSlotKern.Ring [1] ∧ (fsApfsCheckpoint twoSlotKern).1 = .ok () ∧
      (fsApfsCheckpoint twoSlotKern).2.gApfs.acIpbmSlot = 1 ∧
      (fsApfsCheckpoint twoSlotKern).2.gSm.smIpBmFreeNext[1]? = some 0) := by
  refine ⟨⟨refusingKern_ringReady _, by decide +kernel, by decide +kernel, ?_⟩,
    ⟨refusingKern_ringReady _, _, rfl, by decide +kernel, ?_⟩,
    ?_, by decide +kernel, by decide +kernel,
    by decide +kernel⟩
  · have slots :
        (fsApfsCheckpoint (fsApfsCheckpoint (refusingKern [false, true])).2).2.gApfs.acIpbmSlots =
          4 := by
      decide +kernel
    have table : (fsApfsCheckpoint (fsApfsCheckpoint (refusingKern [false, true])).2).2.gSm.ring =
        (3, 0, [0xFFFF, 0xFFFF, 0xFFFF, 0]) := by decide +kernel
    rintro ⟨free, ring⟩
    have length := ring.length
    have head := congrArg (fun r => r.1) table
    have next := congrArg (fun r => r.2.2) table
    dsimp only [Spaceman.ring] at head next
    have chain := ring.chain
    rw [head, next] at chain
    -- the list is 3, 0 and ends there, one slot short
    match free, length, chain with
    | [a, b, c], _, ⟨isA, x, atA, isB, y, atB, isC, z, atC, _⟩ =>
      subst isA
      obtain rfl : x = 0 := by simpa using atA.symm
      subst isB
      obtain rfl : y = 0xFFFF := by simpa using atB.symm
      subst isC
      simp at atC
  · refine not_logged_of_place (show _ = [some 9, some 10, some 11] by decide +kernel)
      ⟨[some 8, some 19, some 20, some 21, some 14, none, some 15, none, some 0,
        none], by decide +kernel, by decide⟩
  · exact ⟨by decide, by decide, ⟨rfl, apfsBtoffInvalid, rfl, rfl⟩, rfl, by decide⟩

end Style9.Apfs
