import Mathlib.Data.Set.Card
import Style9.Vm.Pmm

/-!
# The firmware's memory map

`memmap_add` records what the firmware reports, `memmap_init` assumes 32 MiB if that is nothing, and
`memmap_sort` orders the table; `pmm_init` then frees the
whole pages of every available region and reserves the first megabyte, the kernel image and its own
bookkeeping again. It does not look at the other regions: a page of an available one stays free
whatever overlaps it.
-/
namespace Style9.Vm

open Style9.Lib List Act MemmapEntry Nat

def memmapMaxEntries : Nat := 64

def memmapAdd (memmap : List MemmapEntry) (e : MemmapEntry) : List MemmapEntry :=
  if e.meLength = 0 ∨ memmapMaxEntries ≤ memmap.length then memmap else memmap ++ [e]

/-- What `memmap_init` assumes without a map. -/
def memmapDefault : List MemmapEntry := [⟨0, 0x100000, .reserved⟩, ⟨0x100000, 0x1F00000, .free⟩]

variable (map : List MemmapEntry)

/-- The table after the firmware's regions have been added and sorted by their base. -/
def memmapInit : List MemmapEntry :=
  let table := map.foldl memmapAdd []
  (if table = [] then memmapDefault.foldl memmapAdd table else table).insertionSort fun e g =>
    e.meBase ≤ g.meBase

/-- The map that counts: the firmware's, if it reports anything. -/
def memmapReported : List MemmapEntry := if ∀ e ∈ map, e.meLength = 0 then memmapDefault else map

/-- Some byte from `base` up to `stop` is in the frame. -/
def Covers (base stop f : Nat) : Prop := ∃ b, base ≤ b ∧ b < stop ∧ pageIndex b = f

namespace MemmapEntry

def Meets (e : MemmapEntry) (f : Nat) : Prop := Covers e.meBase (e.meBase + e.meLength) f

/-- The frame lies wholly inside an available region. -/
def Offers (e : MemmapEntry) (f : Nat) : Prop :=
  e.meType = .free ∧ ∀ b, pageIndex b = f → e.meBase ≤ b ∧ b < e.meBase + e.meLength

end MemmapEntry

/-- A frame of the first megabyte, of the kernel image or of the bookkeeping. -/
def Reserved (kernelStart kernelEnd f : Nat) : Prop :=
  Covers 0 0x100000 f ∨ Covers kernelStart kernelEnd f ∨
    Covers (bmPa (memmapInit map) kernelStart kernelEnd)
      (bmPa (memmapInit map) kernelStart kernelEnd + carveBytes (memmapInit map)) f

/-- A frame that is not for use. -/
def Barred (kernelStart kernelEnd f : Nat) : Prop :=
  (∃ g ∈ memmapReported map, g.meType ≠ .free ∧ g.Meets f) ∨ Reserved map kernelStart kernelEnd f

def Usable (kernelStart kernelEnd f : Nat) : Prop :=
  paFromIndex f < pmmHardCapBytes ∧ (∃ e ∈ memmapReported map, e.Offers f) ∧
    ¬ Barred map kernelStart kernelEnd f

/-! ### The table -/

variable {memmap map : List MemmapEntry} {e : MemmapEntry}

theorem mem_foldl_memmapAdd (small : memmap.length + map.length ≤ memmapMaxEntries) :
    e ∈ map.foldl memmapAdd memmap ↔ e ∈ memmap ∨ e ∈ map ∧ e.meLength ≠ 0 := by
  induction map generalizing memmap with
  | nil => simp
  | cons g map ih =>
  rw [length_cons] at small
  rw [foldl_cons, memmapAdd]
  split
  next skipped =>
    have empty : g.meLength = 0 := by omega
    rw [ih (by omega), mem_cons]
    grind
  next kept =>
    rw [ih (by rw [length_append, length_singleton]; omega), mem_append, mem_singleton, mem_cons]
    grind

theorem mem_memmapInit (small : map.length ≤ memmapMaxEntries) :
    e ∈ memmapInit map ↔ e ∈ memmapReported map ∧ e.meLength ≠ 0 := by
  have table {l : List MemmapEntry} (small : l.length ≤ memmapMaxEntries) (e : MemmapEntry) :
      e ∈ l.foldl memmapAdd [] ↔ e ∈ l ∧ e.meLength ≠ 0 := by
    rw [mem_foldl_memmapAdd (by simpa using small)]
    simp
  have empty : map.foldl memmapAdd [] = [] ↔ ∀ e ∈ map, e.meLength = 0 := by
    rw [eq_nil_iff_forall_not_mem]
    simp only [table small, not_and, not_not]
  rw [memmapInit, memmapReported, mem_insertionSort]
  split
  next failed =>
    rw [if_pos (empty.mp failed), failed]
    exact table (by decide) e
  next some =>
    rw [if_neg (mt empty.mpr some)]
    exact table small e

theorem le_maxFreeEnd (member : e ∈ memmap) (free : e.meType = .free) :
    e.stop ≤ maxFreeEnd memmap := by
  have grows : ∀ (l : List MemmapEntry) (m : Nat),
    m ≤ l.foldl (fun m e => if e.meType = .free ∧ m < e.stop then e.stop else m) m ∧
      ∀ e ∈ l, e.meType = .free →
        e.stop ≤ l.foldl (fun m e => if e.meType = .free ∧ m < e.stop then e.stop else m) m := by
    intro l
    induction l with
    | nil => simp
    | cons g l ih =>
    intro m
    obtain ⟨low, each⟩ := ih (if g.meType = .free ∧ m < g.stop then g.stop else m)
    rw [foldl_cons]
    refine ⟨?_, fun e member free => ?_⟩
    · split at low <;> grind
    · rcases mem_cons.mp member with rfl | later
      · split at low <;> grind
      · exact each e later free
  exact (grows memmap 0).2 e member free

theorem lt_managedEnd {x : Nat} (capped : x < pmmHardCapBytes) (below : x < maxFreeEnd memmap) :
    x < managedEnd memmap := by
  unfold managedEnd paRoundUp paRoundDown vmPageSize pmmHardCapBytes at *
  split <;> omega

theorem carve_fits (kstart kend limit needed : Nat) (memmap : List MemmapEntry) :
    carve kstart kend limit needed memmap = paInvalid ∨
      carve kstart kend limit needed memmap + needed ≤ limit := by
  induction memmap with
  | nil => exact .inl rfl
  | cons e memmap ih =>
  unfold carve
  split
  · exact ih
  · dsimp only
    split_ifs <;> omega

/-! ### Frames and bytes -/

/-- The sum and the start rounded up stay inside 64 bits. -/
def MemmapEntry.Fits (e : MemmapEntry) : Prop :=
  e.meBase + e.meLength < 2 ^ 64 ∧ e.meBase + (vmPageSize - 1) < 2 ^ 64

variable {map : List MemmapEntry} {e : MemmapEntry}
  {kernelStart kernelEnd managed base length f : Nat}

theorem MemmapEntry.Fits.offers (fits : e.Fits) : e.Offers f ↔
    e.meType = .free ∧ paRoundUp e.meBase ≤ paFromIndex f ∧ paFromIndex f < paRoundDown e.stop := by
  obtain ⟨sum, start⟩ := fits
  refine and_congr_right fun _ => ?_
  unfold paRoundUp paRoundDown stop paFromIndex pageIndex vmPageSize at *
  rw [mod_eq_of_lt sum, mod_eq_of_lt start]
  constructor
  · intro inside
    have first := inside (f * 4096) (by omega)
    have last := inside (f * 4096 + 4095) (by omega)
    omega
  · rintro ⟨low, high⟩ b here
    omega

/-- An available region that the code takes to start at zero: its base cannot be rounded up. -/
def MemmapEntry.FromZero (e : MemmapEntry) (f : Nat) : Prop :=
  e.meType = .free ∧ e.meLength ≠ 0 ∧ 2 ^ 64 ≤ e.meBase + (vmPageSize - 1) ∧
    paFromIndex f < paRoundDown e.stop

/-- The frames that `pmm_init` frees for an entry. A region whose end alone wraps is empty to it. -/
theorem MemmapEntry.released_iff (base : e.meBase < 2 ^ 64) (length : e.meLength < 2 ^ 64) :
    (e.meLength ≠ 0 ∧ e.meType = .free ∧ paRoundUp e.meBase ≤ paFromIndex f ∧
      paFromIndex f < paRoundDown e.stop) ↔
      (e.Fits ∧ e.Offers f) ∨ e.FromZero f := by
  by_cases fits : e.Fits
  · have high := fits.2
    have empty : e.Offers f → e.meLength ≠ 0 := by
      intro offers
      have first := offers.2 (paFromIndex f) (pageIndex_paFromIndex f)
      omega
    rw [← fits.offers, and_iff_right fits]
    constructor
    · exact fun both => .inl both.2
    · rintro (offers | zero)
      · exact ⟨empty offers, offers⟩
      · exact absurd zero.2.2.1 (by omega)
  have wraps : ¬ (e.meBase + e.meLength < 2 ^ 64 ∧ e.meBase + (vmPageSize - 1) < 2 ^ 64) := fits
  simp only [fits, false_and, false_or]
  unfold FromZero paRoundUp paRoundDown stop paFromIndex vmPageSize at *
  constructor
  · rintro ⟨some, free, low, high⟩
    refine ⟨free, some, ?_, high⟩
    by_contra whole
    rw [mod_eq_of_lt (by omega)] at low
    omega
  · rintro ⟨free, some, zero, high⟩
    refine ⟨some, free, ?_, high⟩
    omega

theorem covers_iff : Covers base (base + length) f ↔ length ≠ 0 ∧ base / vmPageSize ≤ f ∧
    f ≤ (base + length - 1) / vmPageSize := by
  unfold Covers pageIndex vmPageSize
  constructor
  · rintro ⟨b, low, high, rfl⟩
    omega
  · rintro ⟨nonempty, low, high⟩
    refine ⟨max base (f * 4096), ?_⟩
    omega

theorem spanned_iff (fits : base + length + (vmPageSize - 1) < 2 ^ 64) :
    Allocator.Spanned managed base length f ↔ f < managed ∧ Covers base (base + length) f := by
  rw [covers_iff]
  unfold Allocator.Spanned paRoundUp paRoundDown paFromIndex vmPageSize at *
  rw [mod_eq_of_lt (show base + length < 2 ^ 64 by omega), mod_eq_of_lt fits]
  omega

/-- The image is rounded to whole pages before it is reserved. -/
theorem spanned_image (nonempty : kernelStart < kernelEnd)
    (fits : kernelEnd + (vmPageSize - 1) < 2 ^ 64) :
    Allocator.Spanned managed (paRoundDown kernelStart)
      ((paRoundUp kernelEnd + (2 ^ 64 - paRoundDown kernelStart)) % 2 ^ 64) f ↔
      f < managed ∧ Covers kernelStart kernelEnd f := by
  obtain ⟨n, rfl⟩ := Nat.exists_eq_add_of_lt nonempty
  rw [Nat.add_assoc kernelStart, covers_iff]
  unfold Allocator.Spanned paRoundUp paRoundDown paFromIndex vmPageSize at *
  rw [mod_eq_of_lt (show kernelStart + (n + 1) + (4096 - 1) < 2 ^ 64 by omega)]
  omega

namespace Allocator

variable {a : Allocator}

/-- The frames that are free after `pmm_init`. -/
theorem pmmInit_free (small : map.length ≤ memmapMaxEntries)
    (start : pmmInit (memmapInit map) kernelStart kernelEnd = .ok a)
    (image : kernelStart < kernelEnd) (loaded : kernelEnd + (vmPageSize - 1) < 2 ^ 64)
    (words : ∀ e ∈ memmapReported map, e.meBase < 2 ^ 64 ∧ e.meLength < 2 ^ 64) :
    a.pmm.used f = false ↔ paFromIndex f < pmmHardCapBytes ∧
      ¬ Reserved map kernelStart kernelEnd f ∧
      ∃ e ∈ memmapReported map, (e.Fits ∧ e.Offers f) ∨ e.FromZero f := by
  obtain ⟨-, -, managed, -, room, used⟩ := pmmInit_spec start
  have aligned := managedEnd_mod (memmapInit map)
  have cap := managedEnd_le (memmapInit map)
  have book : bmPa (memmapInit map) kernelStart kernelEnd + carveBytes (memmapInit map) ≤
      managedEnd (memmapInit map) := (carve_fits _ _ _ _ _).resolve_left room
  rw [used, KeptBack, spanned_iff (by decide), spanned_image image loaded, spanned_iff (by
    unfold pageIndex vmPageSize at *
    omega), zero_add, Reserved]
  simp only [mem_flatMap, mem_frames aligned, not_or]
  constructor
  · rintro ⟨⟨e, member, free, low, high, below⟩, ⟨first, kernel⟩, kept⟩
    obtain ⟨reported, some⟩ := (mem_memmapInit small).mp member
    have here := (paFromIndex_lt_iff aligned).mp below
    refine ⟨?_, ⟨fun covered => first ⟨here, covered⟩, fun covered => kernel ⟨here, covered⟩,
      fun covered => kept ⟨here, covered⟩⟩, e, reported, ?_⟩
    · unfold paFromIndex vmPageSize pmmHardCapBytes
      omega
    · obtain ⟨base, length⟩ := words e reported
      exact (released_iff base length).mp ⟨some, free, low, high⟩
  rintro ⟨capped, ⟨first, kernel, kept⟩, e, reported, released⟩
  obtain ⟨base, length⟩ := words e reported
  obtain ⟨some, free, low, high⟩ := (released_iff base length).mpr released
  have member := (mem_memmapInit small).mpr ⟨reported, some⟩
  refine ⟨⟨e, member, free, low, high, ?_⟩,
    ⟨fun covered => first covered.2, fun covered => kernel covered.2⟩,
    fun covered => kept covered.2⟩
  refine lt_managedEnd capped ?_
  exact lt_of_lt_of_le (lt_of_lt_of_le high (div_mul_le_self _ _)) (le_maxFreeEnd member free)

/-- What the allocator is for: it never hands out a frame that is barred, has every usable one free,
and counts them. -/
structure KeepsTo (map : List MemmapEntry) (kernelStart kernelEnd : Nat) (a : Allocator) :
    Prop where
  spared : ∀ f, Barred map kernelStart kernelEnd f →
    ∀ a' a'' n pa, Runs next (fun _ _ _ => True) a a' →
    pmmAllocPages n a' = (.ok pa, a'') → pa ≠ paInvalid →
      ¬ (pageIndex pa ≤ f ∧ f < pageIndex pa + n)
  free : ∀ f, Usable map kernelStart kernelEnd f → f < a.pmm.managed ∧ a.pmm.used f = false
  total : a.pmm.managed - a.pmmUsedCount = {f | Usable map kernelStart kernelEnd f}.ncard

/-- To keep to the map is to have the usable frames free and no others. -/
theorem keepsTo_iff (start : pmmInit (memmapInit map) kernelStart kernelEnd = .ok a) :
    KeepsTo map kernelStart kernelEnd a ↔ ∀ f, a.pmm.used f = false ↔
      Usable map kernelStart kernelEnd f := by
  obtain ⟨tallied, refs, managed, -, -, used⟩ := pmmInit_spec start
  have counted := pmmInit_counted start
  have inside : ∀ f : Nat, a.pmm.used f = false → f < a.pmm.managed := by
    intro f unused
    obtain ⟨e, -, member⟩ := mem_flatMap.mp ((used f).mp unused).1
    have aligned := managedEnd_mod (memmapInit map)
    rw [managed]
    exact (paFromIndex_lt_iff aligned).mp ((mem_frames aligned).mp member).2.2.2
  have free : {f | a.pmm.used f = false} =
      ((Finset.range a.pmm.managed).filter fun f => ¬ a.pmm.used f = true : Finset Nat) := by
    ext f
    simp only [Set.mem_ofPred_eq, Finset.coe_filter, Finset.mem_range, Bool.not_eq_true]
    exact ⟨fun unused => ⟨inside f unused, unused⟩, fun both => both.2⟩
  have count : {f | a.pmm.used f = false}.ncard = a.pmm.managed - a.pmmUsedCount := by
    have total := Finset.card_filter_add_card_filter_not (s := Finset.range a.pmm.managed) fun f =>
      a.pmm.used f = true
    rw [free, Set.ncard_coe_finset, tallied.used, count_eq_card_filter_range]
    rw [Finset.card_range] at total
    omega
  constructor
  · intro keeps
    -- as many as are usable, and all of those
    have same := Set.eq_of_subset_of_ncard_le (s := {f | Usable map kernelStart kernelEnd f})
      (t := {f | a.pmm.used f = false}) (fun f usable => (keeps.free f usable).2)
        (by rw [count, keeps.total])
      (by rw [free]; exact Finset.finite_toSet _)
    exact fun f => (Set.ext_iff.mp same f).symm
  intro same
  refine ⟨fun f barred a' a'' n pa run found valid => ?_, fun f usable => ?_, ?_⟩
  · have held : a.Held f := by
      refine ⟨?_, refs f⟩
      rw [← Bool.not_eq_false, same f]
      exact fun usable => usable.2.2 barred
    obtain ⟨counted', held'⟩ := run.invariant (P := fun a => a.Counted ∧ a.Held f) ⟨counted, held⟩
      fun _ _ _ both step _ =>
        ⟨(next_kept both.1 step).counted, (next_kept both.1 step).held f both.2⟩
    rcases pmmAllocPages_cases counted' found with ⟨failed, -⟩ | ⟨p, -, free, rfl, -⟩
    · exact absurd failed valid
    · rw [pageIndex_paFromIndex]
      exact held'.apart free
  · have unused := (same f).mpr usable
    exact ⟨inside f unused, unused⟩
  · rw [← count]
    exact congrArg Set.ncard (Set.ext same)

/-- What a map must not have: of the frames below the cap that are not reserved, none that the code
frees for a region lies in one of another type, or is freed only because the region's base cannot be
rounded up; and none that is usable lies only in regions whose end wraps. -/
structure Clean (map : List MemmapEntry) (kernelStart kernelEnd : Nat) : Prop where
  apart : ∀ f, paFromIndex f < pmmHardCapBytes → ¬ Reserved map kernelStart kernelEnd f →
    ∀ e ∈ memmapReported map, e.Fits → e.Offers f → ∀ g ∈ memmapReported map, g.meType ≠ .free →
      ¬ g.Meets f
  fromZero : ∀ f, paFromIndex f < pmmHardCapBytes → ¬ Reserved map kernelStart kernelEnd f →
    ∀ e ∈ memmapReported map, e.FromZero f → Usable map kernelStart kernelEnd f
  whole : ∀ f, Usable map kernelStart kernelEnd f →
    ∃ e ∈ memmapReported map, (e.Fits ∧ e.Offers f) ∨ e.FromZero f

/-- The allocator keeps to a map exactly if the map is clean. -/
theorem pmm_init_frees_usable (map : List MemmapEntry) (kernelStart kernelEnd : Nat) (a : Allocator)
    (small : map.length ≤ memmapMaxEntries)
    (start : pmmInit (memmapInit map) kernelStart kernelEnd = .ok a)
    (image : kernelStart < kernelEnd) (loaded : kernelEnd + (vmPageSize - 1) < 2 ^ 64)
    (words : ∀ e ∈ memmapReported map, e.meBase < 2 ^ 64 ∧ e.meLength < 2 ^ 64) :
    KeepsTo map kernelStart kernelEnd a ↔ Clean map kernelStart kernelEnd := by
  have free := fun f => pmmInit_free (f := f) small start image loaded words
  rw [keepsTo_iff start]
  constructor
  · intro same
    have usable (f : Nat) (capped : paFromIndex f < pmmHardCapBytes)
      (clear : ¬ Reserved map kernelStart kernelEnd f)
        (released : ∃ e ∈ memmapReported map, (e.Fits ∧ e.Offers f) ∨ e.FromZero f) :
        Usable map kernelStart kernelEnd f := (same f).mp ((free f).mpr ⟨capped, clear, released⟩)
    refine ⟨fun f capped clear e member fits offers g member' other meets => ?_,
      fun f capped clear e member zero => usable f capped clear ⟨e, member, .inr zero⟩,
      fun f usable => ((free f).mp ((same f).mpr usable)).2.2⟩
    exact (usable f capped clear ⟨e, member, .inl ⟨fits, offers⟩⟩).2.2
      (.inl ⟨g, member', other, meets⟩)
  · intro clean f
    rw [free f]
    constructor
    · rintro ⟨capped, clear, e, member, ⟨fits, offers⟩ | zero⟩
      · refine ⟨capped, ⟨e, member, offers⟩, ?_⟩
        rintro (⟨g, member', other, meets⟩ | reserved)
        · exact clean.apart f capped clear e member fits offers g member' other meets
        · exact clear reserved
      · exact clean.fromZero f capped clear e member zero
    · intro usable
      exact ⟨usable.1, fun reserved => usable.2.2 (.inr reserved), clean.whole f usable⟩

/-- Eight pages of memory at the first megabyte, and a page of the firmware's at `base`. -/
def mapWith (base : Nat) : List MemmapEntry :=
    [⟨base, vmPageSize, .reserved⟩, ⟨0x100000, 8 * vmPageSize, .free⟩]

/-- The allocator for that map and a kernel of one page. -/
def startWith (base : Nat) : Allocator :=
  match pmmInit (memmapInit (mapWith base)) 0x100000 0x101000 with
  | .ok a => a
  | .error _ => full 0

theorem mapWith_clean : Clean (mapWith 0x108000) 0x100000 0x101000 := by
  have fits : ∀ e ∈ mapWith 0x108000, e.Fits := by
    intro e member
    rcases mem_pair.mp member with rfl | rfl <;> exact ⟨by decide, by decide⟩
  refine ⟨fun f _ _ e member _ offers g member' other meets => ?_, fun f _ _ e member zero => ?_,
    fun f usable => ?_⟩
  · rcases mem_pair.mp member with rfl | rfl
    · cases offers.1
    rcases mem_pair.mp member' with rfl | rfl
    · obtain ⟨b, low, high, here⟩ := meets
      have inside := offers.2 b here
      dsimp only [vmPageSize] at *
      omega
    · exact other rfl
  · exact absurd zero.2.2.1 (not_le.mpr (fits e member).2)
  · obtain ⟨e, member, offers⟩ := usable.2.1
    exact ⟨e, member, .inl ⟨fits e member, offers⟩⟩

theorem pmm_init_frees_usable_above :
    KeepsTo (mapWith 0x108000) 0x100000 0x101000 (startWith 0x108000) := by
  refine (pmm_init_frees_usable (mapWith 0x108000) 0x100000 0x101000 (startWith 0x108000)
    (by decide) rfl (by decide)
    (by decide) fun e member => ?_).mpr mapWith_clean
  rcases mem_pair.mp member with rfl | rfl <;> exact ⟨by decide, by decide⟩

/-- The firmware keeps a page inside the memory it calls available, and it is handed out. -/
theorem overlapped_page_handed_out : ∃ map a a' pa, map.length ≤ memmapMaxEntries ∧
    pmmInit (memmapInit map) 0x100000 0x101000 = .ok a ∧ Barred map 0x100000 0x101000 261 ∧
    pmmAllocPages 5 a = (.ok pa, a') ∧ pa ≠ paInvalid ∧ pageIndex pa ≤ 261 ∧
      261 < pageIndex pa + 5 := by
  refine ⟨mapWith 0x105000, startWith 0x105000, (startWith 0x105000).take 259 5,
    paFromIndex 259, by decide, rfl, ?_, ?_,
    by decide, by decide, by decide⟩
  · exact .inl ⟨_, mem_cons_self, by decide, 0x105000, by decide, by decide, by decide⟩
  · have found : (startWith 0x105000).search 5 = .ok (some 259) := by decide +kernel
    rw [pmmAllocPages, if_neg (by decide), if_neg (by decide), found]

end Allocator

end Style9.Vm
