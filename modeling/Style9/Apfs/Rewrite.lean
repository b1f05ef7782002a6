import Mathlib.Data.List.Nodup
import Style9.Apfs.Records

/-!
# Refused writes

A write finds out about the next extent when it has moved the one before. What it refuses in between
stays half done: here is how much. Moving a run changes no byte but those of the write, whatever
becomes of the trees on the way.
-/
namespace Style9.Apfs.Runs

open Style9.Lib List Act

variable {v v₀ v' t : Vol} {el r : FileRun} {buf : Nat → UInt8} {wlo whi first id : Nat}

/-! ### What the trees leave alone -/

/-- A property of volumes that asking for something does not touch. -/
def Patient (P : Vol → Prop) : Prop := ∀ v refuse, P v → P { v with refuse := refuse }

theorem granted_keeps {P : Vol → Prop} (patient : Patient P) : granted.Keeps P := by
  intro v holds
  unfold granted
  split
  next rest _ => exact patient v rest holds
  · exact holds

theorem grantedOr_keeps {P : Vol → Prop} (patient : Patient P) (e : Err) :
    (grantedOr e).Keeps P := by
  refine (granted_keeps patient).bind fun yes => ?_
  split
  · exact .pure ()
  · exact .fail e

/-- The same files with the same bytes, and no block was let go. -/
structure Alike (v v' : Vol) : Prop where
  runs : v'.runs = v.runs
  data : v'.data = v.data
  used : ∀ b, v.used b = true → v'.used b = true

theorem Alike.refl (v : Vol) : Alike v v := ⟨rfl, rfl, fun _ used => used⟩

theorem Alike.patient : Patient (Alike v₀) := fun _ _ alike => { alike with }

theorem grantedOr_alike (e : Err) : (grantedOr e).Keeps (Alike v₀) :=
  grantedOr_keeps Alike.patient e

theorem allocBlocks_alike (n : Nat) : (allocBlocks n).Keeps (Alike v₀) := by
  intro v alike
  unfold allocBlocks
  split
  · split
    · exact ⟨alike.runs, alike.data, fun b used => by simp [Vol.take, alike.used b used]⟩
    · exact { alike with }
  · exact { alike with }
  · exact alike

theorem freeBlocks_alike (b n : Nat) : (freeBlocks b n).Keeps (Alike v₀) :=
  (grantedOr_alike _).bind fun _ => .modify fun _ alike => { alike with }

theorem nodeCow_alike (old : Nat) : (nodeCow old).Keeps (Alike v₀) := by
  refine (allocBlocks_alike 1).bind fun new => Act.Keeps.bind ?_ fun _ => .pure _
  exact ((grantedOr_alike _).onFail (freeBlocks_alike new 1)).bind fun _ => freeBlocks_alike old 1

theorem cowAll_alike (path : List Slot) : (cowAll path).Keeps (Alike v₀) := by
  induction path with
  | nil => exact .pure []
  | cons slot rest ih =>
    exact (Act.Keeps.read _).bind fun old => (nodeCow_alike old).bind fun _ =>
      ih.bind fun _ => .pure _

theorem spineUpdate_alike (oid paddr : Nat) : (spineUpdate oid paddr).Keeps (Alike v₀) := by
  refine (Act.Keeps.read _).bind fun known => ?_
  split
  · exact .fail _
  · exact (Act.Keeps.read _).bind fun path => (cowAll_alike path).bind fun _ =>
      .modify fun _ alike => { alike with }

section Extref

theorem extrefDescend_alike (start : Nat) : (extrefDescend start).Keeps (Alike v₀) := by
  refine (Act.Keeps.read _).bind fun root => ?_
  split
  · exact .fail _
  refine (grantedOr_alike _).bind fun _ => (Act.Keeps.read _).bind fun tree => ?_
  cases tree with
  | leaf recs => exact .pure _
  | other => exact .fail _
  | index kids =>
  dsimp only
  split
  · exact .fail _
  · exact (grantedOr_alike _).bind fun _ => .pure _

theorem cowExtrefRoot_alike (tree : Extref) : (cowExtrefRoot tree).Keeps (Alike v₀) :=
  (Act.Keeps.read _).bind fun old => (nodeCow_alike old).bind fun _ =>
    .modify fun _ alike => { alike with }

theorem extrefSettle_alike (tree : Extref) (slot : Nat) (recs : List PhysRun) :
    (extrefSettle tree slot recs).Keeps (Alike v₀) := by
  cases tree with
  | index kids => exact (nodeCow_alike _).bind fun _ => cowExtrefRoot_alike _
  | leaf recs => exact cowExtrefRoot_alike _
  | other => exact cowExtrefRoot_alike _

theorem counted_alike (f : Nat → Nat) :
    (modify fun v => { v with acFsAllocCount := f v.acFsAllocCount } : VolOp Unit).Keeps
      (Alike v₀) :=
  .modify fun _ alike => { alike with }

theorem extrefGrowLevel_alike : extrefGrowLevel.Keeps (Alike v₀) := by
  refine (grantedOr_alike _).bind fun _ => (grantedOr_alike _).bind fun _ =>
    (Act.Keeps.read _).bind fun tree => ?_
  cases tree with
  | index kids => exact .fail _
  | other => exact .fail _
  | leaf recs =>
  dsimp only
  split
  · exact .fail _
  refine (allocBlocks_alike 1).bind fun lo =>
    ((allocBlocks_alike 1).onFail (freeBlocks_alike lo 1)).bind fun hi => Act.Keeps.bind ?_ fun _ =>
      counted_alike (· + 2)
  exact ((grantedOr_alike _).bind fun _ => cowExtrefRoot_alike _).onFail fun v alike =>
    freeBlocks_alike hi 1 _ (freeBlocks_alike lo 1 v alike)

theorem extrefSplitLeaf_alike (start : Nat) : (extrefSplitLeaf start).Keeps (Alike v₀) := by
  refine (grantedOr_alike _).bind fun _ => (extrefDescend_alike start).bind fun (tree, slot) => ?_
  cases tree with
  | leaf recs => exact .fail _
  | other => exact .fail _
  | index kids =>
  dsimp only
  split
  · exact .fail _
  refine (allocBlocks_alike 1).bind fun hi => Act.Keeps.bind ?_ fun _ =>
    (extrefSettle_alike _ _ _).bind fun _ => counted_alike (· + 1)
  exact ((grantedOr_alike _).bind fun _ => grantedOr_alike _).onFail (freeBlocks_alike hi 1)

theorem extrefInsertOnce_alike (pv : PhysRun) {full : Extref → VolOp Unit}
    (keeps : ∀ tree, (full tree).Keeps (Alike v₀)) :
    (extrefInsertOnce pv full).Keeps (Alike v₀) := by
  refine (extrefDescend_alike _).bind fun (tree, slot) =>
    (granted_keeps Alike.patient).bind fun room => ?_
  split
  · exact extrefSettle_alike _ _ _
  · exact keeps tree

theorem extrefInsertLoop_alike (pv : PhysRun) (tries : Nat) :
    (extrefInsertLoop pv tries).Keeps (Alike v₀) := by
  induction tries with
  | zero => exact extrefInsertOnce_alike pv fun _ => .fail _
  | succ tries ih =>
  refine extrefInsertOnce_alike pv fun tree => Act.Keeps.bind ?_ fun _ => ih
  unfold extrefMakeRoom
  split
  · exact extrefSplitLeaf_alike _
  · exact extrefGrowLevel_alike

theorem extrefShrink_alike (start : Nat) : (extrefShrink start).Keeps (Alike v₀) := by
  refine (grantedOr_alike _).bind fun _ => (extrefDescend_alike start).bind fun (tree, slot) => ?_
  dsimp only
  split
  · exact .fail _
  split
  · exact .fail _
  split
  · split
    · exact (freeBlocks_alike _ 1).bind fun _ => (cowExtrefRoot_alike _).bind fun _ =>
        counted_alike (· - 1)
    · exact extrefSettle_alike _ _ _
  · exact extrefSettle_alike _ _ _

theorem extrefMove_alike (oldStart newStart blocks : Nat) :
    (extrefMove oldStart newStart blocks).Keeps (Alike v₀) := by
  refine (grantedOr_alike _).bind fun _ => (extrefDescend_alike _).bind fun (tree, slot) => ?_
  dsimp only
  split
  · exact .fail _
  split
  · exact .fail _
  split
  · exact (extrefShrink_alike _).bind fun _ => (grantedOr_alike _).bind fun _ =>
      extrefInsertLoop_alike _ 2
  · exact extrefSettle_alike _ _ _

end Extref

/-! ### Moving a run -/

/-- A volume in order: the blocks of a file are in use, block zero is nobody's, and no byte has two
records. -/
structure Vol.Sound (v : Vol) : Prop where
  taken : ∀ r ∈ v.runs, ∀ b ∈ r.blockList, v.used b = true
  zero : v.used 0 = true
  keys : (v.runs.map fun r => (r.id, r.logical)).Nodup
  single : ∀ a ∈ v.runs, ∀ b ∈ v.runs, ∀ id i, a.covers id i = true → b.covers id i = true → a = b

theorem FileRun.covers_iff {i : Nat} :
    r.covers id i = true ↔ r.id = id ∧ r.logical ≤ i ∧ i < r.logical + r.len := by
  simp [FileRun.covers]

theorem FileRun.mem_blockList {b : Nat} :
    b ∈ r.blockList ↔ r.phys ≠ 0 ∧ r.phys ≤ b ∧ b < r.phys + r.blocks := by
  unfold FileRun.blockList
  split
  · simp_all
  · simp_all [mem_range'_1]

theorem FileRun.block_lt {i : Nat} (covers : r.covers id i = true) :
    (i - r.logical) / apfsBlockSize < r.blocks := by
  obtain ⟨-, low, high⟩ := FileRun.covers_iff.mp covers
  unfold FileRun.blocks apfsBlockSize
  omega

theorem FileRun.covers_moved (el : FileRun) (first : Nat) (r : FileRun) (id i : Nat) :
    (el.moved first r).covers id i = r.covers id i := by
  unfold FileRun.moved
  split <;> rfl

/-- A byte of the copy of a run. -/
def FileRun.copied (el : FileRun) (first : Nat) (buf : Nat → UInt8) (wlo whi : Nat) (v : Vol)
    (b j : Nat) : UInt8 :=
  rewritten buf wlo whi (el.logical + (b - first) * apfsBlockSize + j)
    (v.data (el.phys + (b - first)) j)

/-- What a run that was relocated leaves: its bytes with those of the write in blocks that were not
in use, its record, and everything else. -/
structure Relocated (el : FileRun) (first : Nat) (buf : Nat → UInt8) (wlo whi : Nat) (v v' : Vol) :
    Prop where
  nonzero : first ≠ 0
  fresh : ∀ b, first ≤ b → b < first + el.blocks → v.used b = false
  runs : v'.runs = v.runs.map (el.moved first)
  data : ∀ b j, v'.data b j =
    if first ≤ b ∧ b < first + el.blocks then el.copied first buf wlo whi v b j else v.data b j
  used : ∀ b, v.used b = true ∨ first ≤ b ∧ b < first + el.blocks → v'.used b = true

theorem allocBlocks_ok {n : Nat} (run : allocBlocks n v = (.ok first, v')) :
    (∀ b, first ≤ b → b < first + n → v.used b = false) ∧
      v' = { v.take first n with grants := v'.grants } := by
  unfold allocBlocks at run
  split at run
  · split at run
    next unused =>
      cases run
      refine ⟨fun b low high => ?_, rfl⟩
      simpa using all_eq_true.mp unused b (mem_range'_1.mpr ⟨low, high⟩)
    · cases run
  · cases run
  · cases run

/-- The loop that copies blocks, none of which lands on one that is still to be read. -/
theorem copyBlocks_ok {bs : List Nat} (apart : ∀ b ∈ bs, ∀ c ∈ bs, first + b ≠ el.phys + c)
    (run : copyBlocks el first buf wlo whi bs v = (.ok (), v')) :
    v'.runs = v.runs ∧ v'.used = v.used ∧ ∀ b j, v'.data b j =
      if first ≤ b ∧ b - first ∈ bs then el.copied first buf wlo whi v b j else v.data b j := by
  induction bs generalizing v with
  | nil =>
    cases run
    exact ⟨rfl, rfl, fun b j => by simp⟩
  | cons c rest ih =>
  obtain ⟨_, t, copied, run⟩ := bind_ok run
  obtain ⟨_, t₁, asked, copied⟩ := bind_ok copied
  obtain ⟨_, t₂, again, copied⟩ := bind_ok copied
  let same : Vol → Prop := fun w => w.runs = v.runs ∧ w.used = v.used ∧ w.data = v.data
  have patient : Patient same := fun _ _ holds => holds
  obtain ⟨runs, used, data⟩ :=
    (grantedOr_keeps patient _).ok ((grantedOr_keeps patient _).ok ⟨rfl, rfl, rfl⟩ asked) again
  cases copied
  obtain ⟨runs', used', data'⟩ := ih (fun b inB d inD => apart b (mem_cons_of_mem _ inB) d
    (mem_cons_of_mem _ inD)) run
  refine ⟨runs'.trans runs, used'.trans used, fun b j => ?_⟩
  rw [data']
  dsimp only
  by_cases later : first ≤ b ∧ b - first ∈ rest
  · -- The block read for it is not the one just written.
    have other : el.phys + (b - first) ≠ first + c :=
      (apart c mem_cons_self _ (mem_cons_of_mem _ later.2)).symm
    rw [if_pos later, if_pos ⟨later.1, mem_cons_of_mem _ later.2⟩]
    simp only [FileRun.copied, Function.update_of_ne other, data]
  rw [if_neg later]
  by_cases here : b = first + c
  · subst here
    rw [if_pos ⟨Nat.le_add_right _ _, by simp⟩]
    simp [FileRun.copied, data]
  rw [data, if_neg fun inside => ?_, Function.update_of_ne here]
  rcases mem_cons.mp inside.2 with equal | member
  · omega
  · exact later ⟨inside.1, member⟩

theorem extentRelocate_ok (ok : v.Sound) (member : el ∈ v.runs) (backed : el.phys ≠ 0)
    (run : extentRelocate el buf wlo whi v = (.ok (), v')) :
    ∃ first, Relocated el first buf wlo whi v v' := by
  unfold extentRelocate at run
  split at run
  · cases run
  next sized =>
  obtain ⟨first, t₁, took, run⟩ := bind_ok run
  obtain ⟨fresh, taken⟩ := allocBlocks_ok took
  obtain ⟨newLeaf, t₂, leaf, run⟩ := bind_ok run
  obtain ⟨_, c, copied, leaf⟩ := bind_ok (onFail_ok leaf)
  obtain ⟨_, t₃, moved, run⟩ := bind_ok run
  obtain ⟨_, t₄, spine, run⟩ := bind_ok run
  rw [modify_bind] at run
  -- A block of the run is in use, and one that was taken was not.
  have apart (b : Nat) (inB : b ∈ range el.blocks) (c : Nat) (inC : c ∈ range el.blocks) :
      first + b ≠ el.phys + c := by
    intro clash
    rw [List.mem_range] at inB inC
    have used :=
      ok.taken el member (el.phys + c) (FileRun.mem_blockList.mpr ⟨backed, by omega, by omega⟩)
    rw [← clash, fresh _ (by omega) (by omega)] at used
    cases used
  obtain ⟨runs, used, data⟩ := copyBlocks_ok apart copied
  have kept : Alike c t₄ := by
    have leaf : Alike c t₂ := ((grantedOr_alike _).bind fun _ => (Act.Keeps.read _).bind fun old =>
      nodeCow_alike old).ok (.refl c) leaf
    exact (spineUpdate_alike _ _).ok ((extrefMove_alike _ _ _).ok leaf moved) spine
  have freed := (freeBlocks_alike _ _).ok (.refl _) run
  have nonzero : first ≠ 0 := by
    rintro rfl
    cases ok.zero.symm.trans (fresh 0 le_rfl (by omega))
  rw [taken] at runs used data
  refine ⟨first, nonzero, fresh, ?_, fun b j => ?_, fun b owned => ?_⟩
  · rw [freed.runs, kept.runs, runs]
    rfl
  · rw [freed.data, kept.data, data]
    refine if_congr (and_congr_right fun low => ?_) rfl rfl
    rw [List.mem_range]
    omega
  · refine freed.used b (kept.used b ?_)
    rw [used]
    simpa [Vol.take] using owned

/-- The bytes after a run was relocated: those of the run are the new ones where the write has
any. -/
theorem Relocated.byteAt (ok : v.Sound) (member : el ∈ v.runs) (backed : el.phys ≠ 0)
    (moved : Relocated el first buf wlo whi v v') (id i : Nat) : v'.byteAt id i =
      if el.covers id i = true then rewritten buf wlo whi i (v.byteAt id i) else v.byteAt id i := by
  have located : v'.runs.reverse.find? (·.covers id i) =
      (v.runs.reverse.find? (·.covers id i)).map (el.moved first) := by
    rw [moved.runs, ← map_reverse, find?_map]
    congr 2
    funext r
    exact el.covers_moved first r id i
  unfold Vol.byteAt
  rw [located]
  cases found : v.runs.reverse.find? (·.covers id i) with
  | none =>
    rw [if_neg]
    · rfl
    · simpa using find?_eq_none.mp found el (mem_reverse.mpr member)
  | some r =>
  have listed := mem_reverse.mp (mem_of_find?_eq_some found)
  have covers : r.covers id i = true := by simpa using find?_some found
  have inside := FileRun.block_lt covers
  by_cases same : r = el
  · -- The byte is in the run that moved.
    subst same
    obtain ⟨-, low, -⟩ := FileRun.covers_iff.mp covers
    have here : r.logical + (i - r.logical) / apfsBlockSize * apfsBlockSize +
        (i - r.logical) % apfsBlockSize = i := by
      rw [Nat.add_assoc, Nat.div_add_mod', Nat.add_sub_cancel' low]
    have name : r.moved first r = { r with phys := first } := if_pos ⟨rfl, rfl⟩
    rw [if_pos covers, Option.map_some, name]
    dsimp only
    rw [if_neg moved.nonzero, if_neg backed, moved.data,
      if_pos ⟨Nat.le_add_right _ _, Nat.add_lt_add_left inside _⟩, FileRun.copied,
      Nat.add_sub_cancel_left, here]
  have other : el.moved first r = r := by
    refine if_neg fun key => same ?_
    exact inj_on_of_nodup_map ok.keys listed member (by rw [key.1, key.2])
  have apart : ¬ el.covers id i = true := fun too =>
    same (ok.single r listed el member id i covers too)
  rw [if_neg apart, Option.map_some, other]
  dsimp only
  split
  · rfl
  next nonzero =>
  -- Its block is in use, so the copy did not land there.
  have taken := ok.taken r listed (r.phys + (i - r.logical) / apfsBlockSize)
    (FileRun.mem_blockList.mpr ⟨nonzero, Nat.le_add_right _ _, Nat.add_lt_add_left inside _⟩)
  rw [moved.data, if_neg]
  intro landed
  rw [moved.fresh _ landed.1 landed.2] at taken
  cases taken

theorem Vol.Sound.alike (ok : v.Sound) (alike : Alike v v') : v'.Sound := by
  obtain ⟨taken, zero, keys, single⟩ := ok
  rw [← alike.runs] at taken keys single
  exact ⟨fun r member b listed => alike.used b (taken r member b listed), alike.used 0 zero, keys,
    single⟩

theorem Vol.Sound.relocated (ok : v.Sound) (moved : Relocated el first buf wlo whi v v')
    (member : el ∈ v.runs) : v'.Sound := by
  refine ⟨?_, moved.used 0 (.inl ok.zero), ?_, ?_⟩
  · rw [moved.runs]
    intro r' member' b listed
    obtain ⟨r, inR, rfl⟩ := mem_map.mp member'
    refine moved.used b ?_
    by_cases key : r.id = el.id ∧ r.logical = el.logical
    · right
      have same : r = el := inj_on_of_nodup_map ok.keys inR member (by rw [key.1, key.2])
      rw [FileRun.moved, if_pos key, FileRun.mem_blockList] at listed
      exact same ▸ listed.2
    · rw [FileRun.moved, if_neg key] at listed
      exact .inl (ok.taken r inR b listed)
  · have keys : (fun r : FileRun => (r.id, r.logical)) ∘ el.moved first =
        fun r => (r.id, r.logical) := by
      funext r
      simp only [Function.comp, FileRun.moved]
      split <;> rfl
    rw [moved.runs, map_map, keys]
    exact ok.keys
  · rw [moved.runs]
    intro a inA b inB id i coversA coversB
    obtain ⟨a, listedA, rfl⟩ := mem_map.mp inA
    obtain ⟨b, listedB, rfl⟩ := mem_map.mp inB
    rw [FileRun.covers_moved] at coversA coversB
    rw [ok.single a listedA b listedB id i coversA coversB]

/-! ### How far a write gets -/

/-- Where the extents that follow one another from an offset end: at a hole, at a byte without a
record, or after so many of them. -/
def Vol.reach (v : Vol) (id stop : Nat) : Nat → Nat → Nat
  | 0, pos => pos
  | more + 1, pos =>
    if pos < stop then
      match v.runs.find? (·.covers id pos) with
      | none => pos
      | some el => if el.phys = 0 then pos else v.reach id stop more (el.logical + el.len)
    else pos

/-- Moving a run makes no hole, and no end. -/
theorem Relocated.reach (moved : Relocated el first buf wlo whi v v') (ok : v.Sound)
    (member : el ∈ v.runs) (backed : el.phys ≠ 0) (id stop more pos : Nat) :
    v'.reach id stop more pos = v.reach id stop more pos := by
  induction more generalizing pos with
  | zero => rfl
  | succ more ih =>
  have located : v'.runs.find? (·.covers id pos) =
      (v.runs.find? (·.covers id pos)).map (el.moved first) := by
    rw [moved.runs, find?_map]
    congr 2
    funext r
    exact el.covers_moved first r id pos
  unfold Vol.reach
  rw [located]
  split
  · cases found : v.runs.find? (·.covers id pos) with
    | none => rfl
    | some r =>
    have hole : (el.moved first r).phys = 0 ↔ r.phys = 0 := by
      unfold FileRun.moved
      split
      next key =>
        have same : r = el := inj_on_of_nodup_map ok.keys (mem_of_find?_eq_some found) member
          (by rw [key.1, key.2])
        exact iff_of_false moved.nonzero (same ▸ backed)
      · rfl
    have stops : (el.moved first r).logical + (el.moved first r).len = r.logical + r.len := by
      unfold FileRun.moved
      split <;> rfl
    simp only [Option.map_some, hole, stops, ih]
  · rfl

theorem Alike.byteAt (alike : Alike v v') : v'.byteAt = v.byteAt := by
  unfold Vol.byteAt
  rw [alike.runs, alike.data]

theorem Alike.reach (alike : Alike v v') (stop more pos : Nat) :
    v'.reach id stop more pos = v.reach id stop more pos := by
  induction more generalizing pos with
  | zero => rfl
  | succ more ih =>
  unfold Vol.reach
  simp only [alike.runs, ih]

/-- A file whose bytes are those of a write up to some offset, and the old ones otherwise. -/
def PartWritten (id off stop : Nat) (buf : Nat → UInt8) (reached : Nat) (v v' : Vol) : Prop :=
  ∀ i, v'.byteAt id i = if off ≤ i ∧ i < reached ∧ i < stop then buf (i - off) else v.byteAt id i

theorem orFail_refused {α : Type} {x : VolOp α} (run : orFail x v = (.error .refused, v')) :
    False := by
  unfold orFail at run
  split at run <;> cases run

theorem orFail_ok {α : Type} {x : VolOp α} {a : α} (run : orFail x v = (.ok a, v')) :
    x v = (.ok a, v') := by
  unfold orFail at run
  split at run
  next ran =>
    cases run
    exact ran
  · cases run

theorem PartWritten.trans {off stop reached : Nat} {mid : Nat} (le : mid ≤ reached)
    (first : PartWritten id off stop buf mid v t)
    (second : PartWritten id off stop buf reached t v') :
    PartWritten id off stop buf reached v v' := by
  intro i
  rw [second i, first i]
  by_cases inside : off ≤ i ∧ i < reached ∧ i < stop
  · rw [if_pos inside, if_pos inside]
  · rw [if_neg inside, if_neg inside, if_neg (by omega)]

theorem Vol.le_reach (v : Vol) (id stop more pos : Nat) : pos ≤ v.reach id stop more pos := by
  induction more generalizing pos with
  | zero => exact le_rfl
  | succ more ih =>
  unfold Vol.reach
  split
  · split
    · exact le_rfl
    next el found =>
      have covers : el.covers id pos = true := by simpa using find?_some found
      rw [FileRun.covers_iff] at covers
      split
      · exact le_rfl
      · exact le_trans (by omega) (ih _)
  · exact le_rfl

/-- The loop of a write up to its refusal, once the bytes before an offset are written. -/
theorem pwriteLoop_bytes {off stop more pos : Nat} (ok : v.Sound)
    (done : PartWritten id off stop buf pos v v)
    (run : pwriteLoop id off stop buf more pos v = (.error .refused, v')) :
    PartWritten id off stop buf (v.reach id stop more pos) v v' := by
  induction more generalizing v pos with
  | zero =>
    unfold pwriteLoop at run
    split at run
    · cases run
      exact done
    · cases run
  | succ more ih =>
  unfold pwriteLoop at run
  unfold Vol.reach
  split at run
  case isFalse => cases run
  next within =>
  rw [if_pos within]
  rcases bind_error run with failed | ⟨_, v₁, scanned, run⟩
  · exact (orFail_refused failed).elim
  have alike := (grantedOr_alike _).ok (.refl v) (orFail_ok scanned)
  rw [read_bind, alike.runs] at run
  replace ok := ok.alike alike
  replace done : PartWritten id off stop buf pos v₁ v₁ := by
    rwa [PartWritten, alike.byteAt]
  have from_start {reached : Nat} (written : PartWritten id off stop buf reached v₁ v') :
      PartWritten id off stop buf reached v v' := by
    rwa [PartWritten, alike.byteAt] at written
  cases located : v.runs.find? (·.covers id pos) with
  | none =>
    rw [located] at run
    cases run
    exact from_start done
  | some el =>
  rw [located] at run
  dsimp only at run ⊢
  split at run
  next hole =>
    cases run
    rw [if_pos hole]
    exact from_start done
  next backed =>
  rw [if_neg backed]
  have member : el ∈ v₁.runs := alike.runs ▸ mem_of_find?_eq_some located
  have covers : el.covers id pos = true := by simpa using find?_some located
  obtain ⟨here, start, past⟩ := FileRun.covers_iff.mp covers
  rcases bind_error run with failed | ⟨_, t, relocated, run⟩
  · exact (orFail_refused failed).elim
  obtain ⟨first, moved⟩ := extentRelocate_ok ok member backed (orFail_ok relocated)
  have next : PartWritten id off stop buf (el.logical + el.len) v₁ t := by
    intro i
    rw [moved.byteAt ok member backed]
    by_cases within : el.covers id i = true
    · rw [if_pos within, rewritten]
      rw [FileRun.covers_iff] at within
      exact if_congr (by omega) rfl rfl
    rw [if_neg within]
    rw [FileRun.covers_iff] at within
    -- Outside of the run: before the offset it is written already.
    by_cases before : off ≤ i ∧ i < pos ∧ i < stop
    · rw [if_pos (by omega), done i, if_pos before]
    · rw [if_neg (by omega)]
  have again : PartWritten id off stop buf (el.logical + el.len) t t := by
    intro i
    rw [next i]
    split <;> rfl
  have written := ih (ok.relocated moved member) again run
  rw [moved.reach ok member backed, alike.reach] at written
  exact from_start (next.trans (v.le_reach ..) written)

/-- A write that refuses its range leaves the bytes of the file as they were just where it refuses
the range for its length, or where the bytes of the extents that it reaches are those of the write
already. -/
theorem pwrite_refused_whole {size off len : Nat} (ok : v.Sound)
    (run : fsApfsPwrite id size off buf len v = (.error .refused, v')) :
    v'.byteAt id = v.byteAt id ↔ size ≤ off ∨ size < rangeEnd off len ∨
      ∀ i, off ≤ i → i < v.reach id (rangeEnd off len) apfsWriteExtentsMax off →
        i < rangeEnd off len → v.byteAt id i = buf (i - off) := by
  unfold fsApfsPwrite at run
  split at run
  case isTrue => cases run
  split at run
  next past =>
    cases run
    exact iff_of_true rfl (by tauto)
  next fits =>
  rcases bind_error run with failed | ⟨_, t, allowed, run⟩
  · exact (orFail_refused failed).elim
  have alike := (grantedOr_alike _).ok (.refl v) (orFail_ok allowed)
  rcases bind_error run with looped | ⟨_, u, -, run⟩
  · have written := pwriteLoop_bytes (ok.alike alike) (fun i => by rw [if_neg (by omega)]) looped
    rw [alike.reach, PartWritten, alike.byteAt] at written
    constructor
    · intro same
      refine .inr (.inr fun i low reached high => ?_)
      rw [← congrFun same i, written i, if_pos ⟨low, reached, high⟩]
    · intro short
      funext i
      rw [written i]
      split
      next inside => exact ((short.resolve_left (by omega)).resolve_left (by omega) i inside.1
        inside.2.1 inside.2.2).symm
      · rfl
  · cases run

/-! ### A hole -/

def smallSpine : List Slot := [.volOmapNode 0, .volOmap, .volSb, .ctrOmapNode 0, .ctrOmap]

def smallSlots : List Slot := [.catalogNode 7, .extrefRoot] ++ smallSpine

/-- A volume with one leaf of each tree and nothing in its queues, and on it a file of two records
of a block each: the first at block 20, the second where it is said. -/
def twoBlocks (second : Nat) (physRuns : List PhysRun) (used : List Nat)
    (grants : List (Option Nat)) : Vol where
  runs := [⟨3, 0, 4096, 20, 7⟩, ⟨3, 4096, 4096, second, 7⟩]
  extref := .leaf physRuns
  slots := smallSlots
  place
    | .catalogNode _ => 50
    | .extrefRoot => 51
    | .volOmapNode _ => 52
    | .volOmap => 53
    | .volSb => 54
    | .ctrOmapNode _ => 55
    | .ctrOmap => 56
  spinePath := fun _ => smallSpine
  used := fun b => b == 0 || (decide (50 ≤ b) && decide (b ≤ 56)) || used.contains b
  queue := []
  data := fun _ _ => 1
  acFsAllocCount := 9
  grants := grants
  refuse := []

/-- The second record is a hole. -/
def holed : Vol := twoBlocks 0 [⟨20, 1, 1⟩] [20] ((List.range' 60 14).map some)

theorem holed_sound : holed.Sound := by
  refine ⟨by decide, rfl, by decide, ?_⟩
  intro a inA b inB id i coversA coversB
  rw [FileRun.covers_iff] at coversA coversB
  simp only [holed, twoBlocks, mem_cons, not_mem_nil, or_false] at inA inB
  rcases inA with rfl | rfl <;> rcases inB with rfl | rfl
  · rfl
  · simp only at coversA coversB
    omega
  · simp only at coversA coversB
    omega
  · rfl

/-- A write over the block and the hole of the bytes that are there: the block moves, and nothing is
different. -/
theorem pwrite_refused_whole_hole : ∃ v', fsApfsPwrite 3 8192 0 (fun _ => 1) 8192 holed =
    (.error .refused, v') ∧ v'.runs ≠ holed.runs ∧ v'.byteAt 3 = holed.byteAt 3 := by
  have run := run_out (show (fsApfsPwrite 3 8192 0 (fun _ => 1) 8192 holed).1 = .error .refused
    by decide +kernel)
  refine ⟨_, run, by decide +kernel, (pwrite_refused_whole holed_sound run).mpr (.inr (.inr ?_))⟩
  intro i _ reached _
  have reach : holed.reach 3 (rangeEnd 0 8192) apfsWriteExtentsMax 0 = 4096 := by decide +kernel
  rw [reach] at reached
  have located : holed.runs.reverse.find? (·.covers 3 i) = some ⟨3, 0, 4096, 20, 7⟩ := by
    simp [holed, twoBlocks, FileRun.covers, reached, Nat.not_le.mpr reached]
  rw [Vol.byteAt, located]
  rfl

/-- A write of other bytes over the block and the hole is refused, and the block is written. -/
theorem refused_write_writes : holed.Sound ∧ holed.byteAt 3 0 = 1 ∧
    ∃ v', fsApfsPwrite 3 8192 0 (fun _ => 2) 8192 holed = (.error .refused, v') ∧
      v'.byteAt 3 0 = 2 :=
  ⟨holed_sound, by decide +kernel, _, run_out (by decide +kernel), by decide +kernel⟩

end Style9.Apfs.Runs
