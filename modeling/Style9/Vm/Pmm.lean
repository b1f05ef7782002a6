import Style9.Lib.Count
import Style9.Lib.Runs
import Style9.Vm.Calls

/-!
# The frame allocator

`pmm_alloc_page` takes the first free frame from the hint on and wraps around. `pmm_alloc_pages`
looks for a run in two windows, from the hint to the end and from the bottom to the hint, and skips
from each occupied frame to the one behind it. Frees move the hint back, and a run taken further up
leaves the holes it skipped below the hint. Beside the bitmap every frame has a count of owners, and
two totals are kept in step: frames in use, and frames with more than one owner.

Frame numbers and totals are natural numbers; the sums the source takes of a caller's numbers wrap
at 64 bits. A frame past the bitmap that the search would read is an error here.
-/
namespace Style9.Vm

open Style9.Lib List Act Nat Function

/-! ### State -/

/-- `MEMMAP_*`. -/
inductive MemmapType where
  | free
  | reserved
  | acpi
  | nvs
  | badram
  deriving DecidableEq

structure MemmapEntry where
  meBase : Nat
  meLength : Nat
  meType : MemmapType
  deriving DecidableEq

/-- The bitmap, the owners and the hint, with the two totals. -/
structure Allocator where
  pmm : Pmm
  pmmUsedCount : Nat
  pmmSharedCount : Nat

/-- The assertions of the allocator, the panics of its start, and a search that has left the bitmap.
-/
inductive PmmPanic where
  | noFreeRegion
  | noRoom
  | unaligned
  | outOfRange
  | doubleFree
  | reserved
  | runOverrun
  | runShared
  | notAllocated
  | ownersWrap
  | bitmapEnd
  deriving DecidableEq

abbrev PmmRun : Type → Type := Act Allocator PmmPanic

def paInvalid : Nat := 0

def pageIndex (pa : Nat) : Nat := pa / vmPageSize

def paFromIndex (f : Frame) : Nat := f * vmPageSize

def paRoundDown (x : Nat) : Nat := x / vmPageSize * vmPageSize

def paRoundUp (x : Nat) : Nat := paRoundDown ((x + (vmPageSize - 1)) % 2 ^ 64)

def pmmHardCapBytes : Nat := 2 ^ 30

theorem pageIndex_paFromIndex (f : Nat) : pageIndex (paFromIndex f) = f :=
  Nat.mul_div_cancel f (by decide)

theorem paFromIndex_lt_iff {f stop : Nat} (aligned : stop % vmPageSize = 0) :
    paFromIndex f < stop ↔ f < pageIndex stop := by
  unfold paFromIndex pageIndex vmPageSize at *
  omega

namespace Allocator

def bitmapBits (a : Allocator) : Nat := (a.pmm.managed + 63) / 64 * 64

def markUsed (a : Allocator) (f : Frame) : Allocator :=
  { a with pmm := { a.pmm with used := update a.pmm.used f true } }

def markFree (a : Allocator) (f : Frame) : Allocator :=
  { a with pmm := { a.pmm with used := update a.pmm.used f false } }

def refSet (a : Allocator) (f : Frame) (v : Nat) : Allocator where
  pmm := { a.pmm with refs := update a.pmm.refs f v }
  pmmUsedCount := a.pmmUsedCount
  pmmSharedCount :=
    if 1 < a.pmm.refs f ∧ v ≤ 1 then a.pmmSharedCount - 1
    else if a.pmm.refs f ≤ 1 ∧ 1 < v then a.pmmSharedCount + 1
    else a.pmmSharedCount

def setHint (a : Allocator) (h : Nat) : Allocator := { a with pmm := { a.pmm with hint := h } }

def addUsed (a : Allocator) (n : Nat) : Allocator := { a with pmmUsedCount := a.pmmUsedCount + n }

def subUsed (a : Allocator) (n : Nat) : Allocator := { a with pmmUsedCount := a.pmmUsedCount - n }

/-! ### Start -/

/-- One frame of `mark_range_used`. -/
def reserveOne (a : Allocator) (f : Frame) : Allocator :=
  if a.pmm.used f then a else (a.markUsed f).addUsed 1

/-- One frame of a free region, in `pmm_init`. -/
def releaseOne (a : Allocator) (f : Frame) : Allocator :=
  if a.pmm.used f then (a.markFree f).subUsed 1 else a

/-- The frames of the loop `for (pa = start; pa < end; pa += PAGE_SIZE)` over page addresses. -/
def framesBetween (start stop : Nat) : List Frame :=
  range' (pageIndex start) (pageIndex (stop - start))

def markRangeUsed (a : Allocator) (base length : Nat) : Allocator :=
  if length = 0 then a
  else
    let start := paRoundDown base
    let stop := paRoundUp ((base + length) % 2 ^ 64)
    let finish := a.pmm.managed * vmPageSize
    if finish ≤ start then a
    else (framesBetween start (if finish < stop then finish else stop)).foldl reserveOne a

end Allocator

namespace MemmapEntry

def stop (e : MemmapEntry) : Nat := (e.meBase + e.meLength) % 2 ^ 64

variable (memmap : List MemmapEntry)

/-- The highest end of a free region, in the first loop of `pmm_init`. -/
def maxFreeEnd : Nat :=
  memmap.foldl (fun m e => if e.meType = .free ∧ m < e.stop then e.stop else m) 0

def managedEnd : Nat :=
  paRoundUp (if pmmHardCapBytes < maxFreeEnd memmap then pmmHardCapBytes else maxFreeEnd memmap)

/-- The free region's whole pages below the managed end. -/
def frames (finish : Nat) (e : MemmapEntry) : List Frame :=
  if e.meType ≠ .free then []
  else
    let stop := paRoundDown e.stop
    Allocator.framesBetween (paRoundUp e.meBase) (if finish < stop then finish else stop)

/-- `carve_bitmap_storage`. -/
def carve (kstart kend finish needed : Nat) : List MemmapEntry → Nat
  | [] => paInvalid
  | e :: rest =>
    if e.meType ≠ .free then carve kstart kend finish needed rest
    else
      let base := paRoundUp e.meBase
      let stop := paRoundDown e.stop
      let base := if base < 0x100000 then 0x100000 else base
      let base := if base < kend ∧ kstart < stop then kend else base
      let stop := if finish < stop then finish else stop
      if stop ≤ base ∨ stop - base < needed then carve kstart kend finish needed rest else base

/-- The size of the bitmap and the owner counts. -/
def carveBytes : Nat :=
  paRoundUp ((pageIndex (managedEnd memmap) + 63) / 64 * 8) + pageIndex (managedEnd memmap) * 2

/-- Where they are. -/
def bmPa (kernelStart kernelEnd : Nat) : Nat :=
  carve (paRoundDown kernelStart) (paRoundUp kernelEnd) (managedEnd memmap) (carveBytes memmap)
    memmap

end MemmapEntry

namespace Allocator

/-- Every managed frame in use and without an owner. -/
def full (managed : Nat) : Allocator := ⟨⟨managed, fun _ => true, fun _ => 0, 0⟩, managed, 0⟩

/-- `pmm_init`, for a memory map and the bounds of the kernel image. -/
def pmmInit (memmap : List MemmapEntry) (kernelStart kernelEnd : Nat) : Except PmmPanic Allocator :=
  if MemmapEntry.maxFreeEnd memmap = 0 then .error .noFreeRegion
  else
    let finish := MemmapEntry.managedEnd memmap
    let managed := pageIndex finish
    let bmBytes := (managed + 63) / 64 * 8
    let carveBytes := paRoundUp bmBytes + managed * 2
    let kstart := paRoundDown kernelStart
    let kend := paRoundUp kernelEnd
    let bm := MemmapEntry.carve kstart kend finish carveBytes memmap
    if bm = paInvalid then .error .noRoom
    else
      let freed := (memmap.flatMap (MemmapEntry.frames finish)).foldl releaseOne (full managed)
      let low := freed.markRangeUsed 0 0x100000
      let image := low.markRangeUsed kstart ((kend + (2 ^ 64 - kstart)) % 2 ^ 64)
      .ok (image.markRangeUsed bm carveBytes)

/-! ### Calls -/

def pmmAllocPage : PmmRun Nat := fun a =>
  match a.pmm.order.find? fun f => !a.pmm.used f with
  | none => (.ok paInvalid, a)
  | some f =>
    (.ok (paFromIndex f), (((a.markUsed f).refSet f 1).addUsed 1).setHint (if a.pmm.managed ≤ f + 1
      then 0 else f + 1))

/-- The inner loop of `pmm_alloc_pages`: how many of the next `n` frames are free before the first
that is not. -/
def runAt (a : Allocator) : Nat → Frame → Except PmmPanic Nat
  | 0, _ => .ok 0
  | n + 1, f =>
    if a.bitmapBits ≤ f then .error .bitmapEnd
    else if a.pmm.used f then .ok 0
    else (a.runAt n (f + 1)).map (· + 1)

/-- One window of `pmm_alloc_pages`, up to `limit`. -/
def scan (a : Allocator) (n limit : Nat) : Nat → Frame → Except PmmPanic (Option Frame)
  | 0, _ => .ok none
  | fuel + 1, start =>
    if (start + n) % 2 ^ 64 ≤ limit then
      match a.runAt n start with
      | .error e => .error e
      | .ok run => if run = n then .ok (some start) else a.scan n limit fuel (start + run + 1)
    else .ok none

/-- Both windows; each pass of a loop starts at a later frame, and none starts past the bitmap. -/
def search (a : Allocator) (n : Nat) : Except PmmPanic (Option Frame) :=
  match a.scan n a.pmm.managed (a.bitmapBits + 1) a.pmm.hint with
  | .ok none => a.scan n a.pmm.hint (a.bitmapBits + 1) 0
  | found => found

/-- The run at `start` is handed out. -/
def take (a : Allocator) (start n : Nat) : Allocator :=
  (((range' start n).foldl (fun a f => (a.markUsed f).refSet f 1) a).addUsed n).setHint (start + n)

def pmmAllocPages (npages : Nat) : PmmRun Nat := fun a =>
  if npages = 0 then (.ok paInvalid, a)
  else if npages = 1 then pmmAllocPage a
  else
    match a.search npages with
    | .error e => (.error e, a)
    | .ok none => (.ok paInvalid, a)
    | .ok (some start) => (.ok (paFromIndex start), a.take start npages)

def pmmFreePage (pa : Nat) : PmmRun Unit := do
  guard (fun _ => pa % vmPageSize == 0) .unaligned
  guard (fun a => pa < a.pmm.managed * vmPageSize) .outOfRange
  let f := pageIndex pa
  guard (fun a => a.pmm.used f) .doubleFree
  guard (fun a => a.pmm.refs f != 0) .reserved
  modify fun a => a.refSet f (a.pmm.refs f - 1)
  let left ← read fun a => a.pmm.refs f
  if left ≠ 0 then pure ()
  else modify fun a => ((a.markFree f).subUsed 1).setHint (if f < a.pmm.hint then f else a.pmm.hint)

/-- The loop of `pmm_free_pages`. -/
def freeRun : List Frame → PmmRun Unit
  | [] => pure ()
  | f :: rest => do
    guard (fun a => f < a.pmm.managed) .runOverrun
    guard (fun a => a.pmm.used f) .doubleFree
    guard (fun a => a.pmm.refs f == 1) .runShared
    modify fun a => (a.refSet f 0).markFree f
    freeRun rest

def pmmFreePages (pa npages : Nat) : PmmRun Unit := do
  guard (fun _ => pa % vmPageSize == 0) .unaligned
  freeRun (range' (pageIndex pa) npages)
  modify fun a => (a.subUsed npages).setHint (if pageIndex pa < a.pmm.hint then pageIndex pa
    else a.pmm.hint)

def pmmPageRef (pa : Nat) : PmmRun Unit := do
  guard (fun _ => pa % vmPageSize == 0) .unaligned
  guard (fun a => pa < a.pmm.managed * vmPageSize) .outOfRange
  let f := pageIndex pa
  guard (fun a => a.pmm.used f && a.pmm.refs f != 0) .notAllocated
  guard (fun a => a.pmm.refs f != 0xFFFF) .ownersWrap
  modify fun a => a.refSet f (a.pmm.refs f + 1)

def pmmReserve (base length : Nat) : PmmRun Unit := modify fun a => a.markRangeUsed base length

inductive Call where
  | allocPage
  | allocPages (npages : Nat)
  | freePage (pa : Nat)
  | freePages (pa npages : Nat)
  | pageRef (pa : Nat)
  | reserve (base length : Nat)

/-- The state a call leaves if no assertion stops the machine. -/
def after {α : Type} (x : PmmRun α) (a : Allocator) : Option Allocator :=
  match x a with
  | (.ok _, a') => some a'
  | (.error _, _) => none

def next (a : Allocator) : Call → Option Allocator
  | .allocPage => after pmmAllocPage a
  | .allocPages n => after (pmmAllocPages n) a
  | .freePage pa => after (pmmFreePage pa) a
  | .freePages pa n => after (pmmFreePages pa n) a
  | .pageRef pa => after (pmmPageRef pa) a
  | .reserve base length => after (pmmReserve base length) a

/-! ### The totals -/

/-- The bookkeeping for a number of frames in use: the shared ones are counted, an owned frame is in
use, and a count fits its sixteen bits. -/
structure Tallied (a : Allocator) (u : Nat) : Prop where
  used : u = count (fun f => a.pmm.used f = true) a.pmm.managed
  shared : a.pmmSharedCount = count (fun f => 1 < a.pmm.refs f) a.pmm.managed
  owned : ∀ f, a.pmm.refs f ≠ 0 → a.pmm.used f = true
  sixteen : ∀ f, a.pmm.refs f < 2 ^ 16

/-- What every call keeps: the number of frames in use is the total, frame zero is in use and
nobody's, the hint is inside, and no more is managed than the cap allows. -/
structure Counted (a : Allocator) : Prop where
  tallied : a.Tallied a.pmmUsedCount
  bottom : a.pmm.used 0 = true ∧ a.pmm.refs 0 = 0
  hint : a.pmm.hint ≤ a.pmm.managed
  capped : a.pmm.managed ≤ 2 ^ 18

open MemmapEntry

variable {a a' a₁ : Allocator} {f g n u v p pa : Nat} {m : Bool} {memmap : List MemmapEntry}
  {kernelStart kernelEnd : Nat} {P : Frame → Prop} {r : Unit}

@[simp] theorem used_markUsed :
    (a.markUsed f).pmm.used g = if g = f then true else a.pmm.used g := by
  simp only [markUsed, update_apply]

@[simp] theorem used_markFree :
    (a.markFree f).pmm.used g = if g = f then false else a.pmm.used g := by
  simp only [markFree, update_apply]

@[simp] theorem refs_refSet : (a.refSet f v).pmm.refs g = if g = f then v else a.pmm.refs g := by
  simp only [refSet, update_apply]

@[simp] theorem refs_markFree : (a.markFree f).pmm.refs g = a.pmm.refs g := rfl
@[simp] theorem used_refSet : (a.refSet f v).pmm.used g = a.pmm.used g := rfl

theorem pmmSharedCount_refSet :
    (a.refSet f v).pmmSharedCount = if 1 < a.pmm.refs f ∧ v ≤ 1 then a.pmmSharedCount - 1
    else if a.pmm.refs f ≤ 1 ∧ 1 < v then a.pmmSharedCount + 1 else a.pmmSharedCount := rfl

theorem Tallied.refSet (tallied : a.Tallied u) (inside : f < a.pmm.managed)
    (taken : v ≠ 0 → a.pmm.used f = true) (small : v < 2 ^ 16) : (a.refSet f v).Tallied u := by
  have same : ∀ g ≠ f, (1 < a.pmm.refs g ↔ 1 < (a.refSet f v).pmm.refs g) := by
    intro g other
    simp only [refs_refSet, if_neg other]
  have here : (a.refSet f v).pmm.refs f = v := by simp only [refs_refSet, if_true]
  have shared := tallied.shared
  refine ⟨tallied.used, ?_, ?_, ?_⟩
  · -- it leaves the shared frames, joins them, or stays what it was
    change _ = count (fun g => 1 < (a.refSet f v).pmm.refs g) a.pmm.managed
    rw [pmmSharedCount_refSet]
    split
    next leaves =>
      have total := count_leave inside same leaves.1 (by rw [here]; omega)
      omega
    next =>
    split
    next joins =>
      have total := count_join inside same (by omega) (by rw [here]; omega)
      omega
    · have total := count_keep inside same (by rw [here]; omega)
      omega
  · intro g nonzero
    rw [refs_refSet] at nonzero
    split at nonzero
    next here => exact here ▸ taken nonzero
    · exact tallied.owned g nonzero
  intro g
  rw [refs_refSet]
  split
  · exact small
  · exact tallied.sixteen g

theorem Tallied.markUsed (tallied : a.Tallied u) (inside : f < a.pmm.managed)
    (free : a.pmm.used f = false) :
    (a.markUsed f).Tallied (u + 1) := by
  refine ⟨?_, tallied.shared, ?_, tallied.sixteen⟩
  · have same : ∀ g ≠ f, (a.pmm.used g = true ↔ (a.markUsed f).pmm.used g = true) := by
      intro g other
      simp only [used_markUsed, if_neg other]
    rw [tallied.used]
    refine (count_join (q := fun g => (a.markUsed f).pmm.used g = true) inside same ?_ ?_).symm
    · simp [free]
    · simp
  intro g nonzero
  rw [used_markUsed]
  split
  · rfl
  · exact tallied.owned g nonzero

theorem Tallied.markFree (tallied : a.Tallied (u + 1)) (inside : f < a.pmm.managed)
    (taken : a.pmm.used f = true)
    (unowned : a.pmm.refs f = 0) : (a.markFree f).Tallied u := by
  refine ⟨?_, tallied.shared, ?_, tallied.sixteen⟩
  · have same : ∀ g ≠ f, (a.pmm.used g = true ↔ (a.markFree f).pmm.used g = true) := by
      intro g other
      simp only [used_markFree, if_neg other]
    have total :=
      count_leave (q := fun g => (a.markFree f).pmm.used g = true) inside same taken (by simp)
    have before := tallied.used
    change u = count (fun g => (a.markFree f).pmm.used g = true) a.pmm.managed
    omega
  intro g nonzero
  rw [used_markFree]
  split
  next here => exact absurd (here ▸ unowned) nonzero
  · exact tallied.owned g nonzero

theorem Tallied.positive (tallied : a.Tallied u) (inside : f < a.pmm.managed)
    (taken : a.pmm.used f = true) : 0 < u := by
  rw [tallied.used]
  refine lt_of_lt_of_le ?_ (count_monotone _ inside)
  rw [count_succ, if_pos taken]
  exact succ_pos _

/-! ### Start -/

/-- The frames of `P` are marked and the total is told; the owners and the hint stay. -/
structure Marked (a : Allocator) (m : Bool) (P : Frame → Prop) (a' : Allocator) : Prop where
  tallied : a'.Tallied a'.pmmUsedCount
  used : ∀ f, (P f → a'.pmm.used f = m) ∧ (¬ P f → a'.pmm.used f = a.pmm.used f)
  refs : a'.pmm.refs = a.pmm.refs
  managed : a'.pmm.managed = a.pmm.managed
  hint : a'.pmm.hint = a.pmm.hint

theorem Marked.refl (tallied : a.Tallied a.pmmUsedCount) (already : ∀ f, P f → a.pmm.used f = m) :
    Marked a m P a :=
  ⟨tallied, fun f => ⟨already f, fun _ => rfl⟩, rfl, rfl, rfl⟩

theorem Marked.trans {Q : Frame → Prop} (first : Marked a m P a₁) (second : Marked a₁ m Q a') :
    Marked a m (fun f => P f ∨ Q f) a' where
  tallied := second.tallied
  used f := by
    refine ⟨fun either => ?_, fun neither => ?_⟩
    · by_cases later : Q f
      · exact (second.used f).1 later
      · rw [(second.used f).2 later]
        exact (first.used f).1 (either.resolve_right later)
    · obtain ⟨before, later⟩ := not_or.mp neither
      rw [(second.used f).2 later, (first.used f).2 before]
  refs := second.refs.trans first.refs
  managed := second.managed.trans first.managed
  hint := second.hint.trans first.hint

theorem Marked.taken (marked : Marked a true P a') (taken : a.pmm.used f = true) :
    a'.pmm.used f = true := by
  by_cases here : P f
  · exact (marked.used f).1 here
  · exact ((marked.used f).2 here).trans taken

theorem Marked.fold {step : Allocator → Frame → Allocator} {l : List Frame}
    (tallied : a.Tallied a.pmmUsedCount)
    (one : ∀ b f, f ∈ l → b.Tallied b.pmmUsedCount → b.pmm.refs = a.pmm.refs →
      b.pmm.managed = a.pmm.managed →
      Marked b m (· = f) (step b f)) : Marked a m (· ∈ l) (l.foldl step a) := by
  induction l generalizing a with
  | nil => exact .refl tallied nofun
  | cons f l ih =>
  have first := one a f mem_cons_self tallied rfl rfl
  have rest := ih first.tallied fun b g member tallied refs managed =>
    one b g (mem_cons_of_mem f member) tallied (refs.trans first.refs) (managed.trans first.managed)
  simpa only [mem_cons, foldl_cons] using first.trans rest

theorem reserveOne_marked (tallied : a.Tallied a.pmmUsedCount) (inside : f < a.pmm.managed) :
    Marked a true (· = f) (reserveOne a f) := by
  unfold reserveOne
  split
  next taken => exact .refl tallied fun g here => here ▸ taken
  next free =>
  have marked := tallied.markUsed inside (Bool.not_eq_true _ ▸ free)
  refine ⟨{ marked with }, fun g => ⟨fun here => ?_, fun other => ?_⟩, rfl, rfl, rfl⟩
  · exact used_markUsed.trans (if_pos here)
  · exact used_markUsed.trans (if_neg other)

theorem releaseOne_marked (tallied : a.Tallied a.pmmUsedCount) (inside : f < a.pmm.managed)
    (unowned : a.pmm.refs f = 0) :
    Marked a false (· = f) (releaseOne a f) := by
  unfold releaseOne
  split
  next taken =>
    have nonzero := tallied.positive inside taken
    have freed :=
      Tallied.markFree (by rw [Nat.sub_add_cancel nonzero]; exact tallied) inside taken unowned
    refine ⟨{ freed with }, fun g => ⟨fun here => ?_, fun other => ?_⟩, rfl, rfl, rfl⟩
    · exact used_markFree.trans (if_pos here)
    · exact used_markFree.trans (if_neg other)
  next free => exact .refl tallied fun g here => here ▸ Bool.not_eq_true _ ▸ free

theorem mem_framesBetween {start stop : Nat} (low : start % vmPageSize = 0)
    (high : stop % vmPageSize = 0) :
    f ∈ framesBetween start stop ↔ start ≤ paFromIndex f ∧ paFromIndex f < stop := by
  unfold framesBetween pageIndex paFromIndex vmPageSize at *
  rw [mem_range'_1]
  omega

/-- The frames `mark_range_used` reserves. -/
def Spanned (managed base length f : Nat) : Prop :=
  length ≠ 0 ∧ f < managed ∧ paRoundDown base ≤ paFromIndex f ∧
    paFromIndex f < paRoundUp ((base + length) % 2 ^ 64)

theorem markRangeUsed_marked (base length : Nat) (tallied : a.Tallied a.pmmUsedCount) :
    Marked a true (Spanned a.pmm.managed base length) (a.markRangeUsed base length) := by
  unfold markRangeUsed
  split
  next empty => exact .refl tallied fun f spanned => absurd empty spanned.1
  next nonzero =>
  dsimp only
  split
  next beyond =>
    refine .refl tallied fun f spanned => ?_
    obtain ⟨-, inside, low, -⟩ := spanned
    unfold paFromIndex vmPageSize at *
    omega
  next =>
  have low : paRoundDown base % vmPageSize = 0 := mul_mod_left _ _
  have members : (· ∈ framesBetween (paRoundDown base) (if a.pmm.managed * vmPageSize <
      paRoundUp ((base + length) % 2 ^ 64) then a.pmm.managed * vmPageSize
      else paRoundUp ((base + length) % 2 ^ 64))) = Spanned a.pmm.managed base length := by
    funext f
    rw [mem_framesBetween low (by split <;> exact mul_mod_left _ _)]
    unfold Spanned paFromIndex vmPageSize
    simp only [eq_iff_iff]
    split <;> omega
  rw [← members]
  refine .fold tallied fun b f member tallied _ managed => reserveOne_marked tallied ?_
  rw [managed]
  exact ((congrFun members f).mp member).2.1

theorem tallied_full (managed : Nat) : (full managed).Tallied (full managed).pmmUsedCount := by
  refine ⟨?_, ?_, fun f nonzero => absurd rfl nonzero, fun f => Nat.two_pow_pos 16⟩
  · simp [full]
  · simp [full]

theorem managedEnd_pos (nonzero : maxFreeEnd memmap ≠ 0) : 0 < pageIndex (managedEnd memmap) := by
  unfold managedEnd pageIndex paRoundUp paRoundDown vmPageSize pmmHardCapBytes
  split <;> omega

theorem managedEnd_le (memmap : List MemmapEntry) : pageIndex (managedEnd memmap) ≤ 2 ^ 18 := by
  unfold managedEnd pageIndex paRoundUp paRoundDown vmPageSize pmmHardCapBytes
  split <;> omega

theorem managedEnd_mod (memmap : List MemmapEntry) : managedEnd memmap % vmPageSize = 0 :=
  mul_mod_left _ _

theorem mem_frames {e : MemmapEntry} {finish : Nat} (aligned : finish % vmPageSize = 0) :
    f ∈ e.frames finish ↔ e.meType = .free ∧ paRoundUp e.meBase ≤ paFromIndex f ∧
      paFromIndex f < paRoundDown e.stop ∧
      paFromIndex f < finish := by
  unfold frames
  split
  next other => simp [other]
  next free =>
  have low : paRoundUp e.meBase % vmPageSize = 0 := mul_mod_left _ _
  have high : paRoundDown e.stop % vmPageSize = 0 := mul_mod_left _ _
  rw [mem_framesBetween low (by split <;> assumption)]
  split <;> simp only [not_not.mp free, true_and] <;> omega

/-- The frames that `pmm_init` reserves: of the first megabyte, of the image and of the bookkeeping.
-/
def KeptBack (memmap : List MemmapEntry) (kernelStart kernelEnd f : Nat) : Prop :=
  (Spanned (pageIndex (managedEnd memmap)) 0 0x100000 f ∨
    Spanned (pageIndex (managedEnd memmap)) (paRoundDown kernelStart)
      ((paRoundUp kernelEnd + (2 ^ 64 - paRoundDown kernelStart)) % 2 ^ 64) f) ∨
    Spanned (pageIndex (managedEnd memmap)) (bmPa memmap kernelStart kernelEnd)
      (carveBytes memmap) f

theorem pmmInit_spec (start : pmmInit memmap kernelStart kernelEnd = .ok a) :
    a.Tallied a.pmmUsedCount ∧ (∀ f, a.pmm.refs f = 0) ∧
      a.pmm.managed = pageIndex (managedEnd memmap) ∧
      a.pmm.hint = 0 ∧ bmPa memmap kernelStart kernelEnd ≠ paInvalid ∧
      ∀ f : Nat, a.pmm.used f = false ↔ f ∈ memmap.flatMap (frames (managedEnd memmap)) ∧
        ¬ KeptBack memmap kernelStart kernelEnd f := by
  unfold pmmInit at start
  split at start
  · cases start
  next nonzero =>
  dsimp only at start
  split at start
  · cases start
  next room =>
  cases start
  have aligned := managedEnd_mod memmap
  have freed : Marked (full (pageIndex (managedEnd memmap))) false
      (· ∈ memmap.flatMap (frames (managedEnd memmap)))
      ((memmap.flatMap (frames (managedEnd memmap))).foldl releaseOne
        (full (pageIndex (managedEnd memmap)))) := by
    refine .fold (tallied_full _) fun b f member tallied refs managed => ?_
    refine releaseOne_marked tallied ?_ (congrFun refs f)
    obtain ⟨e, -, member⟩ := mem_flatMap.mp member
    rw [managed]
    exact (paFromIndex_lt_iff aligned).mp ((mem_frames aligned).mp member).2.2.2
  have low := markRangeUsed_marked 0 0x100000 freed.tallied
  have image := markRangeUsed_marked (paRoundDown kernelStart)
    ((paRoundUp kernelEnd + (2 ^ 64 - paRoundDown kernelStart)) % 2 ^ 64) low.tallied
  have done := markRangeUsed_marked (bmPa memmap kernelStart kernelEnd) (carveBytes memmap)
    image.tallied
  rw [image.managed, low.managed, freed.managed] at done
  rw [low.managed, freed.managed] at image
  rw [freed.managed] at low
  have kept := (low.trans image).trans done
  refine ⟨done.tallied, congrFun (kept.refs.trans freed.refs), kept.managed.trans freed.managed,
    kept.hint.trans freed.hint, room, fun f => ?_⟩
  by_cases back : KeptBack memmap kernelStart kernelEnd f
  · exact iff_of_false (fun free => Bool.false_ne_true (free.symm.trans ((kept.used f).1 back)))
      fun both => both.2 back
  refine (iff_of_eq (congrArg (· = false) ((kept.used f).2 back))).trans ?_
  by_cases offered : f ∈ memmap.flatMap (frames (managedEnd memmap))
  · exact iff_of_true ((freed.used f).1 offered) ⟨offered, back⟩
  · exact iff_of_false (fun free => Bool.false_ne_true (free.symm.trans ((freed.used f).2 offered)))
      fun both => offered both.1

theorem pmmInit_counted (start : pmmInit memmap kernelStart kernelEnd = .ok a) : a.Counted := by
  obtain ⟨tallied, refs, managed, hint, -, used⟩ := pmmInit_spec start
  have nonzero : maxFreeEnd memmap ≠ 0 := by
    intro failed
    rw [pmmInit, if_pos failed] at start
    cases start
  refine ⟨tallied, ⟨?_, refs 0⟩, ?_, ?_⟩
  · rw [← Bool.not_eq_false, used]
    exact fun both => both.2 (.inl (.inl ⟨by decide, managedEnd_pos nonzero, by decide, by decide⟩))
  · omega
  · rw [managed]
    exact managedEnd_le memmap

/-! ### One call -/

theorem mem_order (hint : a.pmm.hint ≤ a.pmm.managed) : f ∈ a.pmm.order ↔ f < a.pmm.managed := by
  unfold Pmm.order
  rw [mem_map]
  constructor
  · rintro ⟨i, member, rfl⟩
    have below := mem_range.mp member
    split <;> omega
  intro inside
  by_cases after : a.pmm.hint ≤ f
  · refine ⟨f - a.pmm.hint, mem_range.mpr (by omega), ?_⟩
    rw [if_neg (by omega)]
    omega
  · refine ⟨f + a.pmm.managed - a.pmm.hint, mem_range.mpr (by omega), ?_⟩
    rw [if_pos (by omega)]
    omega

/-- The frames from `p` on are managed and free. -/
def FreeRun (a : Allocator) (p n : Nat) : Prop :=
  p + n ≤ a.pmm.managed ∧ ∀ j < n, a.pmm.used (p + j) = false

/-- The frames from `p` on have been handed out, each to one owner, and nothing else has changed. -/
structure Taken (a : Allocator) (p n : Nat) (a' : Allocator) : Prop where
  managed : a'.pmm.managed = a.pmm.managed
  used : ∀ f : Nat, a'.pmm.used f = if p ≤ f ∧ f < p + n then true else a.pmm.used f
  refs : ∀ f : Nat, a'.pmm.refs f = if p ≤ f ∧ f < p + n then 1 else a.pmm.refs f

theorem Counted.positive (counted : a.Counted) (free : a.pmm.used f = false) : 0 < f := by
  rcases Nat.eq_zero_or_pos f with rfl | positive
  · rw [counted.bottom.1] at free
    cases free
  · exact positive

theorem occupy_fold (tallied : a.Tallied u) (free : a.FreeRun f n) :
    ∃ a', (range' f n).foldl (fun a f => (a.markUsed f).refSet f 1) a = a' ∧ a'.Tallied (u + n) ∧
      Taken a f n a' ∧
      a'.pmmUsedCount = a.pmmUsedCount := by
  induction n generalizing a f u with
  | zero =>
    refine ⟨a, rfl, tallied, ⟨rfl, fun g => ?_, fun g => ?_⟩, rfl⟩
    · rw [if_neg (by omega)]
    · rw [if_neg (by omega)]
  | succ n ih =>
  rw [range'_succ]
  have inside : f < a.pmm.managed := by
    have below := free.1
    omega
  have marked := tallied.markUsed inside (free.2 0 (succ_pos n))
  have owned : ((a.markUsed f).refSet f 1).Tallied (u + 1) :=
    marked.refSet inside (fun _ => by simp) (by decide)
  have rest : ((a.markUsed f).refSet f 1).FreeRun (f + 1) n := by
    refine ⟨?_, fun j below => ?_⟩
    · have below := free.1
      change f + 1 + n ≤ a.pmm.managed
      omega
    · rw [used_refSet, used_markUsed, if_neg (by omega), add_assoc, add_comm 1]
      exact free.2 (j + 1) (by omega)
  obtain ⟨a', fold, tallied', taken, total⟩ := ih owned rest
  refine ⟨a', fold, by rw [add_comm n, ← add_assoc]; exact tallied',
    ⟨taken.managed, fun g => ?_, fun g => ?_⟩, total⟩
  · rw [taken.used, used_refSet, used_markUsed]
    split_ifs <;> first | rfl | omega
  · rw [taken.refs, refs_refSet]
    split_ifs <;> first | rfl | omega

/-- In use and nobody's: `pmm_init` reserved it, or it was reserved later. -/
def Held (a : Allocator) (f : Nat) : Prop := a.pmm.used f = true ∧ a.pmm.refs f = 0

theorem Held.apart (held : a.Held f) (free : a.FreeRun p n) : ¬ (p ≤ f ∧ f < p + n) := by
  rintro ⟨low, high⟩
  have opened := free.2 (f - p) (by omega)
  rw [Nat.add_sub_cancel' low, held.1] at opened
  cases opened

theorem Held.taken (held : a.Held f) (free : a.FreeRun p n) (taken : Taken a p n a') :
    a'.Held f := by
  have outside := held.apart free
  unfold Held
  rw [taken.used, taken.refs, if_neg outside, if_neg outside]
  exact held

theorem Counted.take (counted : a.Counted) (run : a.FreeRun p n) :
    Taken a p n (a.take p n) ∧ (a.take p n).Counted := by
  obtain ⟨b, rfl, tallied, taken, total⟩ := occupy_fold counted.tallied run
  have whole : Taken a p n (a.take p n) := { taken with }
  refine ⟨whole, ⟨?_, Held.taken counted.bottom run whole, ?_, ?_⟩⟩
  · have count : (a.take p n).pmmUsedCount = a.pmmUsedCount + n := congrArg (· + n) total
    rw [count]
    exact { tallied with }
  · rw [whole.managed]
    exact run.1
  · rw [whole.managed]
    exact counted.capped

theorem pmmAllocPage_spec (counted : a.Counted) :
    ((∀ p, ¬ a.FreeRun p 1) ∧ pmmAllocPage a = (.ok paInvalid, a)) ∨
      ∃ p a', a.FreeRun p 1 ∧ pmmAllocPage a = (.ok (paFromIndex p), a') ∧ Taken a p 1 a' ∧
        a'.Counted := by
  unfold pmmAllocPage
  cases found : a.pmm.order.find? fun f => !a.pmm.used f with
  | none =>
    refine .inl ⟨?_, rfl⟩
    rintro p ⟨inside, free⟩
    have taken := find?_eq_none.mp found p ((mem_order counted.hint).mpr (by omega))
    rw [show a.pmm.used p = false from free 0 one_pos] at taken
    exact taken rfl
  | some p =>
  have inside := (mem_order counted.hint).mp (mem_of_find?_eq_some found)
  have free : a.pmm.used p = false := by simpa using find?_some found
  have run : a.FreeRun p 1 := by
    refine ⟨inside, fun j below => ?_⟩
    rw [lt_one_iff.mp below]
    exact free
  -- only the hint is not that of a run of one
  obtain ⟨taken, counted'⟩ := counted.take run
  refine .inr ⟨p, _, run, rfl, { taken with },
    ⟨{ counted'.tallied with }, counted'.bottom, ?_, counted.capped⟩⟩
  split
  · exact Nat.zero_le _
  next below => exact Nat.le_of_not_le below

/-! ### The search for a run -/

theorem runAt_ok (inside : f + n ≤ a.bitmapBits) : ∃ r, a.runAt n f = .ok r := by
  induction n generalizing f with
  | zero => exact ⟨0, rfl⟩
  | succ n ih =>
  rw [runAt, if_neg (by omega)]
  split
  · exact ⟨0, rfl⟩
  · obtain ⟨r, run⟩ := ih (f := f + 1) (by omega)
    exact ⟨r + 1, by rw [run]; rfl⟩

theorem runAt_sound {r : Nat} (run : a.runAt n f = .ok r) :
    r ≤ n ∧ (∀ j < r, a.pmm.used (f + j) = false) ∧
    (r < n → a.pmm.used (f + r) = true) ∧ (0 < r → f + r ≤ a.bitmapBits) := by
  induction n generalizing f r with
  | zero =>
    cases run
    exact ⟨le_refl 0, nofun, fun below => absurd below (lt_irrefl 0),
      fun nonzero => absurd nonzero (lt_irrefl 0)⟩
  | succ n ih =>
  rw [runAt] at run
  split at run
  · cases run
  next inside =>
  split at run
  next taken =>
    cases run
    exact ⟨zero_le _, nofun, fun _ => taken, fun nonzero => absurd nonzero (lt_irrefl 0)⟩
  next free =>
  cases more : a.runAt n (f + 1) with
  | error e =>
    rw [more] at run
    cases run
  | ok extra =>
  rw [more] at run
  obtain rfl : extra + 1 = r := Except.ok.inj run
  obtain ⟨short, frees, stopped, finish⟩ := ih more
  have next : ∀ j, f + (j + 1) = f + 1 + j := by omega
  refine ⟨by omega, fun j below => ?_, fun below => ?_, fun _ => by omega⟩
  · cases j with
    | zero => exact Bool.not_eq_true _ ▸ free
    | succ j =>
      rw [next]
      exact frees j (by omega)
  · rw [next]
    exact stopped (by omega)

theorem managed_le_bitmapBits : a.pmm.managed ≤ a.bitmapBits := by
  unfold bitmapBits
  omega

/-- One window: what it returns lies in it, and if it returns none, no free run does. -/
theorem scan_spec (limit fuel : Nat) (fits : a.pmm.managed + n < 2 ^ 64)
    (within : limit ≤ a.pmm.managed)
    (start : f ≤ a.pmm.managed) (enough : limit < f + fuel) :
    ∃ r, a.scan n limit fuel f = .ok r ∧ (∀ q, r = some q → f ≤ q ∧ q + n ≤ limit) ∧
      (r = none → ∀ p, f ≤ p → p + n ≤ limit → ¬ a.FreeRun p n) := by
  induction fuel generalizing f with
  | zero =>
    exact ⟨none, rfl, nofun, fun _ p after inside => absurd (show limit < p by omega) (by omega)⟩
  | succ fuel ih =>
  by_cases inside : f + n ≤ limit
  · have bits := a.managed_le_bitmapBits
    obtain ⟨r, run⟩ := runAt_ok (a := a) (f := f) (n := n) (by omega)
    obtain ⟨short, -, stopped, -⟩ := runAt_sound run
    rw [scan, if_pos (by rw [mod_eq_of_lt (by omega)]; exact inside), run]
    dsimp only
    split
    next whole => exact ⟨some f, rfl, fun q here => Option.some.inj here ▸ ⟨le_rfl, inside⟩, nofun⟩
    next broken =>
    obtain ⟨o, scanned, within, rest⟩ := ih (f := f + r + 1) (by omega) (by omega)
    refine ⟨o, scanned, fun q here => ⟨by have := within q here; omega, (within q here).2⟩,
      fun failed p after last run => ?_⟩
    by_cases skipped : p ≤ f + r
    · -- it would hold the frame that stopped the count
      have free := run.2 (f + r - p) (by omega)
      rw [Nat.add_sub_cancel' skipped, stopped (by omega)] at free
      cases free
    · exact rest failed p (by omega) last run
  · rw [scan, if_neg (by rw [mod_eq_of_lt (by omega)]; exact inside)]
    exact ⟨none, rfl, nofun, fun _ p after last => absurd last (by omega)⟩

/-- What is asked for is found or not, and the bitmap is not left, unless the sum wraps; if it is
not found, what there is lies across the hint. -/
theorem search_spec (counted : a.Counted) (fits : a.pmm.managed + n < 2 ^ 64) :
    ∃ r, a.search n = .ok r ∧
    (∀ q, r = some q → a.pmm.hint ≤ q ∨ q + n ≤ a.pmm.hint) ∧
    (r = none → ∀ p, a.FreeRun p n → p < a.pmm.hint ∧ a.pmm.hint < p + n) := by
  have bits := a.managed_le_bitmapBits
  have hint := counted.hint
  unfold search
  obtain ⟨r, first, higher, above⟩ :=
    scan_spec a.pmm.managed (a.bitmapBits + 1) fits le_rfl hint (by omega)
  rw [first]
  cases r with
  | some p => exact ⟨some p, rfl, fun q here => .inl (higher q here).1, nofun⟩
  | none =>
  obtain ⟨r, second, lower, below⟩ :=
    scan_spec a.pmm.hint (a.bitmapBits + 1) fits hint (zero_le _) (by omega)
  refine ⟨r, second, fun q here => .inr (lower q here).2, fun failed p run => ?_⟩
  have inside := run.1
  by_contra across
  by_cases after : a.pmm.hint ≤ p
  · exact above rfl p after inside run
  · exact below failed p (zero_le p) (by omega) run

/-- Whatever a window returns is a free run of managed frames, also where the sum wraps. -/
theorem scan_sound {limit fuel : Nat} (capped : a.pmm.managed ≤ 2 ^ 18) (positive : 0 < n)
    (within : limit ≤ a.pmm.managed)
    (found : a.scan n limit fuel f = .ok (some p)) : a.FreeRun p n := by
  induction fuel generalizing f with
  | zero => cases found
  | succ fuel ih =>
  rw [scan] at found
  split at found
  next inside =>
    split at found
    · cases found
    next r run =>
    split at found
    next whole =>
      cases found
      subst whole
      obtain ⟨-, free, -, finish⟩ := runAt_sound run
      have last := finish positive
      have bits : a.bitmapBits ≤ 2 ^ 18 + 63 := by
        unfold bitmapBits
        omega
      exact ⟨by omega, free⟩
    · exact ih found
  · cases found

theorem search_sound (counted : a.Counted) (positive : 0 < n) (found : a.search n = .ok (some p)) :
    a.FreeRun p n := by
  unfold search at found
  split at found
  · exact scan_sound counted.capped positive counted.hint found
  · exact scan_sound counted.capped positive le_rfl found

/-- A window whose first sum is past its end is not looked at. -/
theorem scan_past {limit fuel : Nat} (past : limit < (f + n) % 2 ^ 64) :
    a.scan n limit fuel f = .ok none := by
  cases fuel with
  | zero => rfl
  | succ fuel => rw [scan, if_neg (not_le.mpr past)]

/-- A count that could leave the bitmap stops at a frame in use or leaves it. -/
theorem runAt_wide (inside : f ≤ a.bitmapBits) (wide : a.bitmapBits < f + n) :
    (∃ r, a.runAt n f = .ok r ∧ r < n ∧ f + r < a.bitmapBits) ∨
      a.runAt n f = .error .bitmapEnd ∧ ∀ g, f ≤ g → g < a.bitmapBits → a.pmm.used g = false := by
  induction n generalizing f with
  | zero => omega
  | succ n ih =>
  rw [runAt]
  split
  next finish => exact .inr ⟨rfl, fun g after before => absurd before (by omega)⟩
  next more =>
  split
  next taken => exact .inl ⟨0, rfl, succ_pos n, by omega⟩
  next free =>
  rcases ih (f := f + 1) (by omega) (by omega) with ⟨r, run, short, stop⟩ | ⟨run, frees⟩
  · exact .inl ⟨r + 1, by rw [run]; rfl, by omega, by omega⟩
  · refine .inr ⟨by rw [run]; rfl, fun g after before => ?_⟩
    rcases after.eq_or_lt with rfl | later
    · simpa using free
    · exact frees g later before

/-- Where the sum wraps, the first window reaches as far past the managed frames as the length falls
short of the number range. -/
theorem scan_wrapped {d fuel : Nat} (wraps : n + d = 2 ^ 64) (low : d ≤ f)
    (word : a.pmm.managed < n) (bits : a.bitmapBits < n)
    (padding : ∀ g, a.pmm.managed ≤ g → a.pmm.used g = true) (inside : f ≤ a.bitmapBits)
    (enough : a.bitmapBits < f + fuel) :
    a.scan n a.pmm.managed fuel f =
      if a.pmm.managed + d < a.bitmapBits ∨ a.pmm.managed + d < f then .ok none
        else .error .bitmapEnd := by
  induction fuel generalizing f with
  | zero => omega
  | succ fuel ih =>
  have sum : (f + n) % 2 ^ 64 = f - d := by
    rw [show f + n = f - d + 2 ^ 64 by omega, add_mod_right, mod_eq_of_lt (by omega)]
  by_cases past : a.pmm.managed + d < f
  · rw [if_pos (.inr past)]
    exact scan_past (by rw [sum]; omega)
  rw [scan, sum, if_pos (by omega)]
  rcases runAt_wide (n := n) inside (by omega) with ⟨r, run, short, stop⟩ | ⟨run, frees⟩
  · rw [run]
    dsimp only
    rw [if_neg (Nat.ne_of_lt short), ih (by omega) (by omega) (by omega)]
    congr 1
    exact propext (by omega)
  · rw [run, if_neg]
    rintro (room | later)
    · -- the padding behind the managed frames would have stopped the count
      have stopped := frees (max f a.pmm.managed) (le_max_left ..) (by omega)
      rw [padding _ (le_max_right ..)] at stopped
      cases stopped
    · exact past later

/-! ### Every call -/

/-- A call that returns hands out a free run or changes nothing, also where the sum wraps; where it
does not, what is refused lies across the hint. -/
theorem pmmAllocPages_cases {r : Nat} (counted : a.Counted)
    (run : pmmAllocPages n a = (.ok r, a')) :
    (r = paInvalid ∧ a' = a ∧ (0 < n → a.pmm.managed + n < 2 ^ 64 →
      ∀ p, a.FreeRun p n → p < a.pmm.hint ∧ a.pmm.hint < p + n)) ∨
    ∃ p, 0 < n ∧ a.FreeRun p n ∧ r = paFromIndex p ∧ Taken a p n a' ∧ a'.Counted ∧
      (a.pmm.managed + n < 2 ^ 64 → a.pmm.hint ≤ p ∨ p + n ≤ a.pmm.hint) := by
  unfold pmmAllocPages at run
  split at run
  next failed =>
    cases run
    exact .inl ⟨rfl, rfl, fun nonzero => absurd failed (ne_of_gt nonzero)⟩
  have positive : 0 < n := by omega
  split at run
  next single =>
    subst single
    rcases pmmAllocPage_spec counted with ⟨full, alone⟩ | ⟨p, a₁, free, found, taken, counted₁⟩
    · rw [alone] at run
      cases run
      exact .inl ⟨rfl, rfl, fun _ _ p free => absurd free (full p)⟩
    · rw [found] at run
      cases run
      exact .inr ⟨p, positive, free, rfl, taken, counted₁, fun _ => by omega⟩
  split at run
  · cases run
  next failed =>
    cases run
    refine .inl ⟨rfl, rfl, fun _ fits => ?_⟩
    obtain ⟨r, found, -, across⟩ := search_spec counted fits
    exact across (Except.ok.inj (found.symm.trans failed))
  next start found =>
  cases run
  have window (fits : a.pmm.managed + n < 2 ^ 64) : a.pmm.hint ≤ start ∨
      start + n ≤ a.pmm.hint := by
    obtain ⟨r, found', window, -⟩ := search_spec counted fits
    exact window start (Except.ok.inj (found'.symm.trans found))
  have free := search_sound counted positive found
  obtain ⟨taken, counted'⟩ := counted.take free
  exact .inr ⟨start, positive, free, rfl, taken, counted', window⟩

theorem pmmAllocPages_ok (counted : a.Counted) (fits : a.pmm.managed + n < 2 ^ 64) :
    ∃ r a', pmmAllocPages n a = (.ok r, a') := by
  unfold pmmAllocPages
  split
  · exact ⟨_, _, rfl⟩
  split
  · rcases pmmAllocPage_spec counted with ⟨-, alone⟩ | ⟨p, a', -, found, -⟩
    · exact ⟨_, _, alone⟩
    · exact ⟨_, _, found⟩
  obtain ⟨r, found, -, -⟩ := search_spec counted fits
  rw [found]
  cases r <;> exact ⟨_, _, rfl⟩

theorem pmmAllocPages_spec (counted : a.Counted) (fits : a.pmm.managed + n < 2 ^ 64) :
    pmmAllocPages n a = (.ok paInvalid, a) ∨
      ∃ p a', 0 < n ∧ a.FreeRun p n ∧ pmmAllocPages n a = (.ok (paFromIndex p), a') ∧
        Taken a p n a' ∧ a'.Counted := by
  obtain ⟨r, a', run⟩ := pmmAllocPages_ok counted fits
  rcases pmmAllocPages_cases counted run with ⟨rfl, rfl, -⟩ |
    ⟨p, positive, free, rfl, taken, counted', -⟩
  · exact .inl run
  · exact .inr ⟨p, a', positive, free, run, taken, counted'⟩

theorem low_of_owned (bottom : a.pmm.refs 0 = 0) (owned : a.pmm.refs f ≠ 0) : 0 < f := by
  rcases Nat.eq_zero_or_pos f with rfl | positive
  · exact absurd bottom owned
  · exact positive

/-- A frame with owners is given back or shared; the held frame has none. -/
theorem Held.other (held : a.Held f) (owned : a.pmm.refs g ≠ 0) :
    (a.refSet g v).Held f ∧ ((a.refSet g v).markFree g).Held f := by
  have other : f ≠ g := by
    rintro rfl
    exact owned held.2
  unfold Held
  rw [used_markFree, refs_markFree, refs_refSet, if_neg other, if_neg other]
  exact ⟨held, held⟩

/-- What every call leaves. -/
structure Kept (a a' : Allocator) : Prop where
  counted : a'.Counted
  held : ∀ f, a.Held f → a'.Held f
  managed : a'.pmm.managed = a.pmm.managed

theorem Counted.refSet (counted : a.Counted) (inside : f < a.pmm.managed) (owned : a.pmm.refs f ≠ 0)
    (taken : a.pmm.used f = true) (small : v < 2 ^ 16) : Kept a (a.refSet f v) where
  counted :=
    ⟨counted.tallied.refSet inside (fun _ => taken) small, (Held.other counted.bottom owned).1,
      counted.hint,
    counted.capped⟩
  held _ held := (held.other owned).1
  managed := rfl

/-- The bookkeeping after some frames have been freed, before the total is told. -/
structure Freed (a : Allocator) (n : Nat) (a' : Allocator) : Prop where
  tallied : ∀ u, a.Tallied u → ∃ w, u = w + n ∧ a'.Tallied w
  held : ∀ f, a.Held f → a'.Held f
  total : a'.pmmUsedCount = a.pmmUsedCount
  hint : a'.pmm.hint = a.pmm.hint
  managed : a'.pmm.managed = a.pmm.managed

theorem Freed.kept (freed : Freed a n a') (counted : a.Counted) (hint : g ≤ a.pmm.managed) :
    Kept a ((a'.subUsed n).setHint g) := by
  obtain ⟨w, total, left⟩ := freed.tallied a.pmmUsedCount counted.tallied
  have tallied : a'.Tallied (a'.pmmUsedCount - n) := by
    rw [freed.total, total, Nat.add_sub_cancel]
    exact left
  refine ⟨⟨{ tallied with }, freed.held 0 counted.bottom, ?_, ?_⟩, freed.held, freed.managed⟩
  · change g ≤ a'.pmm.managed
    rw [freed.managed]
    exact hint
  · change a'.pmm.managed ≤ _
    rw [freed.managed]
    exact counted.capped

theorem freed_one (inside : f < a.pmm.managed) (taken : a.pmm.used f = true)
    (owned : a.pmm.refs f ≠ 0) :
    Freed a 1 ((a.refSet f 0).markFree f) := by
  refine ⟨fun u tallied => ?_, fun _ held => (held.other owned).2, rfl, rfl, rfl⟩
  have unowned := tallied.refSet inside (fun nonzero => absurd rfl nonzero) (by decide)
  obtain ⟨w, rfl⟩ := Nat.exists_eq_add_of_le' (tallied.positive inside taken)
  exact ⟨w, rfl, unowned.markFree inside taken (by simp)⟩

theorem pmmFreePage_kept (counted : a.Counted) (run : pmmFreePage pa a = (.ok r, a')) :
    Kept a a' := by
  simp only [pmmFreePage, bind_ok_iff, guard_ok_iff, modify_ok_iff, read_ok_iff, bne_iff_ne,
    decide_eq_true_eq] at run
  obtain ⟨-, _, ⟨-, rfl⟩, -, _, ⟨managed, rfl⟩, -, _, ⟨taken, rfl⟩, -, b, ⟨owned, rfl⟩, -, _, rfl,
    -, _, ⟨rfl, rfl⟩, run⟩ := run
  have inside : pageIndex pa < b.pmm.managed := by
    unfold pageIndex vmPageSize at *
    omega
  have small := counted.tallied.sixteen (pageIndex pa)
  rw [refs_refSet, if_pos rfl] at run
  split at run
  · cases run
    exact counted.refSet inside owned taken (by omega)
  next last =>
  cases run
  rw [not_not.mp last]
  refine (freed_one inside taken owned).kept counted ?_
  have hint := counted.hint
  split <;> omega

theorem Freed.trans {a₂ : Allocator} {m : Nat} (first : Freed a n a₁) (second : Freed a₁ m a₂) :
    Freed a (n + m) a₂ where
  tallied u tallied := by
    obtain ⟨w, rfl, tallied₁⟩ := first.tallied u tallied
    obtain ⟨x, rfl, tallied₂⟩ := second.tallied w tallied₁
    exact ⟨x, by omega, tallied₂⟩
  held f held := second.held f (first.held f held)
  total := second.total.trans first.total
  hint := second.hint.trans first.hint
  managed := second.managed.trans first.managed

theorem freeRun_freed {l : List Nat} (run : freeRun l a = (.ok r, a')) : Freed a l.length a' := by
  induction l generalizing a with
  | nil =>
    cases run
    exact ⟨fun u tallied => ⟨u, rfl, tallied⟩, fun _ => id, rfl, rfl, rfl⟩
  | cons f l ih =>
  simp only [freeRun, bind_ok_iff, guard_ok_iff, modify_ok_iff, beq_iff_eq, decide_eq_true_eq]
    at run
  obtain ⟨-, _, ⟨inside, rfl⟩, -, _, ⟨taken, rfl⟩, -, b, ⟨single, rfl⟩, -, _, rfl, run⟩ := run
  have one := freed_one inside taken (by omega)
  rw [length_cons, add_comm]
  exact one.trans (ih run)

theorem pmmFreePages_kept (counted : a.Counted) (run : pmmFreePages pa n a = (.ok r, a')) :
    Kept a a' := by
  simp only [pmmFreePages, bind_ok_iff, guard_ok_iff, modify_ok_iff] at run
  obtain ⟨-, b, ⟨-, rfl⟩, ⟨⟩, b', run, rfl⟩ := run
  have freed := freeRun_freed run
  have hint := counted.hint
  rw [length_range'] at freed
  refine freed.kept counted ?_
  rw [freed.hint]
  split <;> omega

/-- A run of frames, each with one owner, is given back. -/
structure Returned (a : Allocator) (p n : Nat) (a' : Allocator) : Prop where
  managed : a'.pmm.managed = a.pmm.managed
  used : ∀ f : Nat, a'.pmm.used f = if p ≤ f ∧ f < p + n then false else a.pmm.used f
  refs : ∀ f : Nat, a'.pmm.refs f = if p ≤ f ∧ f < p + n then 0 else a.pmm.refs f

theorem freeRun_returned
    (single : ∀ f, p ≤ f → f < p + n → f < a.pmm.managed ∧ a.pmm.used f = true ∧ a.pmm.refs f = 1) :
    ∃ a', freeRun (range' p n) a = (.ok (), a') ∧ Returned a p n a' := by
  induction n generalizing a p with
  | zero =>
    refine ⟨a, rfl, rfl, fun f => ?_, fun f => ?_⟩
    · rw [if_neg (by omega)]
    · rw [if_neg (by omega)]
  | succ n ih =>
  obtain ⟨inside, taken, one⟩ := single p le_rfl (by omega)
  have rest : ∀ f, p + 1 ≤ f → f < p + 1 + n → f < ((a.refSet p 0).markFree p).pmm.managed ∧
      ((a.refSet p 0).markFree p).pmm.used f = true ∧
        ((a.refSet p 0).markFree p).pmm.refs f = 1 := by
    intro f low high
    obtain ⟨inside, taken, one⟩ := single f (by omega) (by omega)
    refine ⟨inside, ?_, ?_⟩
    · rw [used_markFree, if_neg (by omega)]
      exact taken
    · rw [refs_markFree, refs_refSet, if_neg (by omega)]
      exact one
  obtain ⟨a', run, returned⟩ := ih rest
  refine ⟨a', ?_, returned.managed, fun f => ?_, fun f => ?_⟩
  · rw [range'_succ, freeRun]
    simp only [bind_ok_iff, guard_ok_iff, beq_iff_eq, decide_eq_true_eq]
    exact ⟨(), a, ⟨inside, rfl⟩, (), a, ⟨taken, rfl⟩, (), a, ⟨one, rfl⟩, (), _, rfl, run⟩
  · rw [returned.used, used_markFree]
    split_ifs <;> first | rfl | omega
  · rw [returned.refs, refs_markFree, refs_refSet]
    split_ifs <;> first | rfl | omega

theorem pmmFreePages_returned (counted : a.Counted)
    (single : ∀ f, p ≤ f → f < p + n → f < a.pmm.managed ∧ a.pmm.used f = true ∧ a.pmm.refs f = 1) :
    ∃ a', pmmFreePages (p * vmPageSize) n a = (.ok (), a') ∧ Returned a p n a' ∧ a'.Counted := by
  obtain ⟨b, run, returned⟩ := freeRun_returned single
  have index : pageIndex (p * vmPageSize) = p := pageIndex_paFromIndex p
  have whole : pmmFreePages (p * vmPageSize) n a =
      (.ok (), (b.subUsed n).setHint (if p < b.pmm.hint then p else b.pmm.hint)) := by
    rw [pmmFreePages, index]
    simp only [bind_ok_iff, guard_ok_iff, beq_iff_eq, mul_mod_left]
    exact ⟨(), a, ⟨trivial, rfl⟩, (), b, run, rfl⟩
  exact ⟨_, whole, { returned with }, (pmmFreePages_kept counted whole).counted⟩

theorem pmmPageRef_kept (counted : a.Counted) (run : pmmPageRef pa a = (.ok r, a')) :
    Kept a a' := by
  simp only [pmmPageRef, bind_ok_iff, guard_ok_iff, modify_ok_iff, bne_iff_ne, Bool.and_eq_true,
    decide_eq_true_eq] at run
  obtain ⟨-, _, ⟨-, rfl⟩, -, _, ⟨managed, rfl⟩, -, _, ⟨⟨taken, owned⟩, rfl⟩, -, b, ⟨room, rfl⟩,
    rfl⟩ := run
  have inside : pageIndex pa < b.pmm.managed := by
    unfold pageIndex vmPageSize at *
    omega
  have small := counted.tallied.sixteen (pageIndex pa)
  exact counted.refSet inside owned taken (by omega)

theorem pmmReserve_kept (base length : Nat) (counted : a.Counted) :
    Kept a (a.markRangeUsed base length) := by
  have marked := markRangeUsed_marked base length counted.tallied
  have held : ∀ f, a.Held f → (a.markRangeUsed base length).Held f := fun f held =>
    ⟨marked.taken held.1, (congrFun marked.refs f).trans held.2⟩
  refine ⟨⟨marked.tallied, held 0 counted.bottom, ?_, ?_⟩, held, marked.managed⟩
  · rw [marked.hint, marked.managed]
    exact counted.hint
  · rw [marked.managed]
    exact counted.capped

theorem after_eq {α : Type} {x : PmmRun α} (step : after x a = some a') :
    ∃ r, x a = (.ok r, a') := by
  unfold after at step
  split at step
  next r a₁ run =>
    cases step
    exact ⟨r, run⟩
  · cases step

theorem next_kept {c : Call} (counted : a.Counted) (step : a.next c = some a') : Kept a a' := by
  have still : Kept a a := ⟨counted, fun _ => id, rfl⟩
  cases c with
  | allocPage =>
    obtain ⟨r, run⟩ := after_eq step
    rcases pmmAllocPage_spec counted with ⟨-, alone⟩ | ⟨p, a₁, free, found, taken, counted₁⟩
    · rw [alone] at run
      cases run
      exact still
    · rw [found] at run
      cases run
      exact ⟨counted₁, fun _ held => held.taken free taken, taken.managed⟩
  | allocPages n =>
    obtain ⟨r, run⟩ := after_eq step
    rcases pmmAllocPages_cases counted run with ⟨-, rfl, -⟩ | ⟨p, -, free, -, taken, counted', -⟩
    · exact still
    · exact ⟨counted', fun _ held => held.taken free taken, taken.managed⟩
  | freePage pa =>
    obtain ⟨r, run⟩ := after_eq step
    exact pmmFreePage_kept counted run
  | freePages pa n =>
    obtain ⟨r, run⟩ := after_eq step
    exact pmmFreePages_kept counted run
  | pageRef pa =>
    obtain ⟨r, run⟩ := after_eq step
    exact pmmPageRef_kept counted run
  | reserve base length =>
    cases step
    exact pmmReserve_kept base length counted

/-- The allocator after its start, and after any calls since. -/
def Reached (a : Allocator) : Prop :=
  ∃ memmap kernelStart kernelEnd a₀, pmmInit memmap kernelStart kernelEnd = .ok a₀ ∧
    Runs next (fun _ _ _ => True) a₀ a

theorem Reached.counted (reached : a.Reached) : a.Counted := by
  obtain ⟨memmap, kernelStart, kernelEnd, a₀, start, run⟩ := reached
  exact run.invariant (P := Counted) (pmmInit_counted start) fun _ _ _ counted step _ =>
    (next_kept counted step).counted

/-- The rest of the last word of the bitmap: in use, and never handed out or given back. -/
theorem Reached.padding (reached : a.Reached) (past : a.pmm.managed ≤ f) : a.Held f := by
  obtain ⟨memmap, kernelStart, kernelEnd, a₀, start, run⟩ := reached
  have held : a₀.pmm.managed ≤ f → a₀.Held f := by
    intro past
    obtain ⟨-, refs, managed, -, -, used⟩ := pmmInit_spec start
    refine ⟨?_, refs f⟩
    rw [← Bool.not_eq_false, used]
    rintro ⟨member, -⟩
    obtain ⟨e, -, member⟩ := mem_flatMap.mp member
    have aligned := managedEnd_mod memmap
    have below := (paFromIndex_lt_iff aligned).mp ((mem_frames aligned).mp member).2.2.2
    omega
  refine (run.invariant (P := fun a => a.Counted ∧ (a.pmm.managed ≤ f → a.Held f))
    ⟨pmmInit_counted start, held⟩
    fun _ _ _ kept step _ => ?_).2 past
  have next := next_kept kept.1 step
  refine ⟨next.counted, fun past => next.held f (kept.2 ?_)⟩
  rw [← next.managed]
  exact past

/-- The totals are right, and a run of `n` frames is refused only if there is none; otherwise one
that was free is handed out, with one owner a frame, and the totals are right again. -/
def Serves (a : Allocator) (n : Nat) : Prop :=
  a.pmmUsedCount = count (fun f => a.pmm.used f = true) a.pmm.managed ∧
  a.pmmSharedCount = count (fun f => 1 < a.pmm.refs f) a.pmm.managed ∧
  (((∀ p, ¬ a.FreeRun p n) ∧ pmmAllocPages n a = (.ok paInvalid, a)) ∨
    ∃ p a', a.FreeRun p n ∧ pmmAllocPages n a = (.ok (paFromIndex p), a') ∧
      paFromIndex p ≠ paInvalid ∧ Taken a p n a' ∧
      a'.pmmUsedCount = count (fun f => a'.pmm.used f = true) a'.pmm.managed ∧
      a'.pmmSharedCount = count (fun f => 1 < a'.pmm.refs f) a'.pmm.managed)

/-- If there is a free run, one lies on one side of the hint. Where the first sum wraps, there is
none, and the search for it ends before the bitmap does. -/
def Searchable (a : Allocator) (n : Nat) : Prop :=
  (∀ p, a.FreeRun p n → ∃ q, a.FreeRun q n ∧ (a.pmm.hint ≤ q ∨ q + n ≤ a.pmm.hint)) ∧
    (2 ^ 64 ≤ a.pmm.hint + n → a.pmm.managed + (2 ^ 64 - n) < a.bitmapBits)

theorem Counted.serves_iff (counted : a.Counted) (positive : 0 < n)
    (fits : a.pmm.managed + n < 2 ^ 64) :
    a.Serves n ↔ ∀ p, a.FreeRun p n → ∃ q, a.FreeRun q n ∧
      (a.pmm.hint ≤ q ∨ q + n ≤ a.pmm.hint) := by
  have valid : ∀ p, a.FreeRun p n → paFromIndex p ≠ paInvalid := by
    intro p run
    have low := counted.positive (run.2 0 positive)
    unfold paFromIndex paInvalid vmPageSize
    omega
  obtain ⟨r, a', run⟩ := pmmAllocPages_ok counted fits
  rcases pmmAllocPages_cases counted run with ⟨rfl, rfl, across⟩ |
    ⟨p, -, free, rfl, taken, counted', window⟩
  · constructor
    · rintro ⟨-, -, ⟨nowhere, -⟩ | ⟨p, a', -, found, some, -⟩⟩ q free
      · exact absurd free (nowhere q)
      · rw [run] at found
        exact absurd (Except.ok.inj (Prod.mk.inj found).1).symm some
    · intro side
      refine ⟨counted.tallied.used, counted.tallied.shared, .inl ⟨fun p free => ?_, run⟩⟩
      obtain ⟨q, free', aside⟩ := side p free
      have between := across positive fits q free'
      omega
  · refine iff_of_true ⟨counted.tallied.used, counted.tallied.shared,
      .inr ⟨p, a', free, run, valid p free, taken,
      counted'.tallied.used, counted'.tallied.shared⟩⟩ fun _ _ => ⟨p, free, window fits⟩

/-- A length that no memory has is served exactly if the search for it comes back. -/
theorem Counted.serves_iff_search (counted : a.Counted) (many : a.pmm.managed + 1 < n) :
    a.Serves n ↔ a.search n = .ok none := by
  have nowhere : ∀ p, ¬ a.FreeRun p n := fun p free => absurd free.1 (by omega)
  have call : pmmAllocPages n a = match a.search n with
      | .error e => (.error e, a)
      | .ok none => (.ok paInvalid, a)
      | .ok (some start) => (.ok (paFromIndex start), a.take start n) := by
    rw [pmmAllocPages, if_neg (by omega), if_neg (by omega)]
  constructor
  · rintro ⟨-, -, ⟨-, run⟩ | ⟨p, -, free, -⟩⟩
    · rw [call] at run
      split at run
      · cases run
      · assumption
      next start found => exact absurd (search_sound counted (by omega) found) (nowhere start)
    · exact absurd free (nowhere p)
  · intro found
    rw [found] at call
    exact ⟨counted.tallied.used, counted.tallied.shared, .inl ⟨nowhere, call⟩⟩

/-- In every state reached, `pmm_alloc_pages` serves a request exactly if its search can see what
there is. -/
theorem pmm_alloc_pages_complete (a : Allocator) (n : Nat) (reached : a.Reached) (positive : 0 < n)
    (word : n < 2 ^ 64) :
    a.Serves n ↔ a.Searchable n := by
  have counted := reached.counted
  have hint := counted.hint
  have capped := counted.capped
  unfold Searchable
  by_cases fits : a.pmm.managed + n < 2 ^ 64
  · rw [counted.serves_iff positive fits]
    exact (and_iff_left fun wraps => absurd wraps (by omega)).symm
  rw [and_iff_right fun p free => absurd free.1 (by omega)]
  have second : a.scan n a.pmm.hint (a.bitmapBits + 1) 0 = .ok none := by
    refine scan_past ?_
    rw [Nat.zero_add, mod_eq_of_lt word]
    omega
  rw [counted.serves_iff_search (by omega), search]
  have bits : a.bitmapBits ≤ 2 ^ 18 + 63 := by
    unfold bitmapBits
    omega
  by_cases below : a.pmm.hint + n < 2 ^ 64
  · rw [scan_past (by rw [mod_eq_of_lt below]; omega)]
    exact iff_of_true second fun wraps => absurd wraps (by omega)
  rw [imp_iff_right (by omega), scan_wrapped (d := 2 ^ 64 - n) (by omega) (by omega) (by omega)
    (by omega) (fun g past => (reached.padding past).1)
    (hint.trans managed_le_bitmapBits) (by omega)]
  by_cases room : a.pmm.managed + (2 ^ 64 - n) < a.bitmapBits
  · rw [if_pos (.inl room)]
    exact iff_of_true second room
  · rw [if_neg (by omega)]
    exact iff_of_false nofun room

/-! ### A small memory -/

/-- Eight pages above the first megabyte, two of them taken by the bookkeeping. -/
def smallMemory : Allocator :=
  match pmmInit [⟨0x100000, 8 * vmPageSize, .free⟩] 0x100000 0x100000 with
  | .ok a => a
  | .error _ => full 0

theorem smallMemory_start :
    pmmInit [⟨0x100000, 8 * vmPageSize, .free⟩] 0x100000 0x100000 = .ok smallMemory := rfl

theorem smallMemory_reached : smallMemory.Reached := ⟨_, _, _, _, smallMemory_start, .start⟩

theorem smallMemory_searchable : smallMemory.Searchable 2 := by
  have hint : smallMemory.pmm.hint = 0 := by decide +kernel
  rw [Searchable, hint]
  exact ⟨fun p free => ⟨p, free, .inl (zero_le p)⟩, by omega⟩

theorem pmm_alloc_pages_complete_small : ∃ p a', smallMemory.FreeRun p 2 ∧
    pmmAllocPages 2 smallMemory = (.ok (paFromIndex p), a') ∧ Taken smallMemory p 2 a' := by
  have free : smallMemory.FreeRun 258 2 := by
    refine ⟨by decide +kernel, fun j below => ?_⟩
    have outcomes : j = 0 ∨ j = 1 := by omega
    rcases outcomes with rfl | rfl <;> decide +kernel
  obtain ⟨-, -, ⟨failed, -⟩ | ⟨p, a', run, found, -, taken, -⟩⟩ :=
    (pmm_alloc_pages_complete smallMemory 2 smallMemory_reached (by decide) (by omega)).mpr
      smallMemory_searchable
  · exact absurd free (failed 258)
  · exact ⟨p, a', run, found, taken⟩

/-- Three pages, the first of them freed, a run of two taken above it, the second freed. -/
def splitHole : List Call :=
    [.allocPage, .allocPage, .allocPage, .freePage (258 * vmPageSize), .allocPages 2,
      .freePage (259 * vmPageSize)]

def foundNone : Except PmmPanic (Option Frame) → Bool
  | .ok none => true
  | _ => false

/-- A search that left the bitmap. -/
def leftBitmap : Except PmmPanic (Option Frame) → Bool
  | .error .bitmapEnd => true
  | _ => false

theorem pmmAllocPages_none (many : 1 < n) (failed : foundNone (a.search n) = true) :
    pmmAllocPages n a = (.ok paInvalid, a) := by
  unfold pmmAllocPages
  rw [if_neg (by omega), if_neg (by omega)]
  unfold foundNone at failed
  split at failed
  next found => rw [found]
  · cases failed

theorem pmmAllocPages_bitmapEnd (many : 1 < n) (left : leftBitmap (a.search n) = true) :
    pmmAllocPages n a = (.error .bitmapEnd, a) := by
  unfold pmmAllocPages
  rw [if_neg (by omega), if_neg (by omega)]
  unfold leftBitmap at left
  split at left
  next found => rw [found]
  · cases left

/-- Two neighbours are free, the hint stands between them, and neither window of the search holds
both; and a length near the end of the number range takes the search past the bitmap. -/
theorem run_across_hint_missed :
    ∃ a, a.Reached ∧ a.FreeRun 258 2 ∧ pmmAllocPages 2 a = (.ok paInvalid, a) ∧
    pmmAllocPages (2 ^ 64 - 100) a = (.error .bitmapEnd, a) := by
  obtain ⟨a, run, managed, low, high, missed, left⟩ :
    ∃ a, Runs next (fun _ _ _ => True) smallMemory a ∧
      a.pmm.managed = 264 ∧ a.pmm.used 258 = false ∧ a.pmm.used 259 = false ∧
        foundNone (a.search 2) = true ∧
      leftBitmap (a.search (2 ^ 64 - 100)) = true :=
        Runs.exists_of_follow splitHole (by decide +kernel)
  refine ⟨a, ⟨_, _, _, _, smallMemory_start, run⟩, ⟨by omega, fun j below => ?_⟩,
    pmmAllocPages_none (by decide) missed,
    pmmAllocPages_bitmapEnd (by decide) left⟩
  have outcomes : j = 0 ∨ j = 1 := by omega
  rcases outcomes with rfl | rfl
  · exact low
  · exact high

end Allocator

end Style9.Vm
