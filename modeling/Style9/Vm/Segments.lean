import Style9.Vm.Image

/-!
# What a mapped segment reads

When `vm_map_image` says it has mapped a segment, every page of it is present and reads as the file
and then zeros, under the one, two or three entries that were made for it, and only a page that the
file covers whole and nobody may write is the image's own.

All this as long as the end of the segment is an address. Where `seg_va + vmsize` wraps, the page
loop has nothing to do although pages were to be borrowed, and the call still reports success.
-/
namespace Style9.Vm

open Style9.Lib List Nat Option Act

variable {s s' s₁ : Memory} {t va i : Nat} {held : Multiset Frame} {pages : List Nat} {g : Segment}

/-! ### The entries made -/

/-- The entries of a segment, in the order in which they are entered. -/
def Segment.made (g : Segment) : List VmMapEntry :=
  let entry :=
    fun start stop anon => newEntry start (stop - start) g.prot ⟨anon, false, false⟩ none 0
  if g.borrows then
    (if g.vaStart < g.borrowStart then [entry g.vaStart g.borrowStart true] else []) ++
      entry g.borrowStart g.borrowEnd false :: (if g.borrowEnd < g.vaEnd
        then [entry g.borrowEnd g.vaEnd true] else [])
  else [entry g.vaStart g.vaEnd true]

/-- The pages that hold a byte of the segment. -/
def Segment.Page (g : Segment) (va : Nat) : Prop :=
  ∃ b, g.segVa ≤ b ∧ b < g.segVa + g.vmsize ∧ vmAlignDown b = va

/-- The byte of the file for an address, and zero where there is none. -/
def Segment.byte (g : Segment) (ram : Frame → Nat → Byte) (a : Nat) : Byte :=
  if g.segVa ≤ a ∧ a < g.segVa + g.filesize then physByte ram (g.bytes + (a - g.segVa)) else 0

structure Added (t : Nat) (es : List VmMapEntry) (s s' : Memory) : Prop where
  lookup : ∀ a, vmMapLookup (s'.entries t) a =
    (es.find? fun e => e.Covers a).or (vmMapLookup (s.entries t) a)
  free : ∀ e ∈ es, ∀ a, e.Covers a → vmMapLookup (s.entries t) a = none

theorem Added.nil (t : Nat) (s : Memory) : Added t [] s s := ⟨fun _ => rfl, nofun⟩

theorem Added.of_entered {ne : VmMapEntry} (entered : Entered t ne s s') : Added t [ne] s s' := by
  constructor
  · intro a
    rw [entered.lookup, find?_singleton]
    split
    next covers => rw [if_pos (decide_eq_true covers)]; rfl
    next apart => rw [if_neg (by simpa using apart)]; rfl
  · intro e member a covers
    rw [mem_singleton.mp member] at covers
    exact entered.free a covers

theorem Added.append {es es' : List VmMapEntry} (first : Added t es s s₁)
    (second : Added t es' s₁ s') :
    Added t (es ++ es') s s' := by
  constructor
  · intro a
    rw [second.lookup, first.lookup, find?_append]
    cases later : es'.find? fun e => e.Covers a with
    | none => rw [none_or, or_none]
    | some e =>
    -- what is entered later is free then, so nothing entered before covers the address
    have covers := of_decide_eq_true (find?_some later :)
    have free := second.free e (mem_of_find?_eq_some later) a covers
    rw [first.lookup, or_eq_none_iff] at free
    rw [free.1]
    rfl
  intro e member a covers
  rcases mem_append.mp member with old | new
  · exact first.free e old a covers
  · have free := second.free e new a covers
    rw [first.lookup, or_eq_none_iff] at free
    exact free.2

theorem enterRest_added {start stop : Nat} (ok : VmOk s held)
    (run : enterRest t start stop g.prot s = (.ok true, s')) :
    Added t (if start < stop then [newEntry start (stop - start) g.prot ⟨true, false, false⟩ none 0]
      else []) s s' := by
  unfold enterRest at run
  split at run
  next sized =>
    rw [if_pos sized]
    obtain ⟨-, -, entered⟩ := vmMapEnter_spec ok (fun _ => rfl) run
    exact .of_entered (entered rfl).2
  next unsized =>
    rw [if_neg unsized]
    obtain ⟨-, rfl⟩ := pure_ok_iff.mp run
    exact .nil t s'

section Room

variable (room : g.segVa + g.vmsize + (vmPageSize - 1) < 2 ^ 64) (fits : g.filesize ≤ g.vmsize)
include room

theorem Segment.vaEnd_eq : g.vaEnd = vmAlignUp (g.segVa + g.vmsize) := by
  unfold Segment.vaEnd Word.vmAlignUp vmAlignUp vmAlignDown vmPageSize at *
  omega

theorem Segment.borrowStart_eq : g.borrowStart = vmAlignUp g.segVa := by
  unfold Segment.borrowStart Word.vmAlignUp vmAlignUp vmAlignDown vmPageSize at *
  omega

theorem Segment.page_iff (sized : g.vmsize ≠ 0) (aligned : va % vmPageSize = 0) :
    g.Page va ↔ g.vaStart ≤ va ∧ va < g.vaEnd := by
  rw [Segment.vaEnd_eq room]
  constructor
  · rintro ⟨b, low, high, rfl⟩
    unfold Segment.vaStart vmAlignUp vmAlignDown vmPageSize at *
    omega
  rintro ⟨low, high⟩
  refine ⟨max g.segVa va, ?_⟩
  unfold Segment.vaStart vmAlignUp vmAlignDown vmPageSize at *
  omega

theorem enterSegment_added (ok : VmOk s held) (run : enterSegment t g s = (.ok true, s')) :
    Added t g.made s s' := by
  unfold enterSegment at run
  unfold Segment.made
  split at run
  next borrows =>
    have readOnly : g.prot.write = true → false = true := by
      simp only [Segment.borrows, Bool.and_eq_true, Bool.not_eq_true'] at borrows
      simp [borrows.1.1]
    obtain ⟨b₁, s₁, before, run⟩ := bind_ok run
    cases b₁ with
    | false => cases run
    | true =>
    obtain ⟨ok₁, -⟩ := enterRest_spec ok before
    obtain ⟨b₂, s₂, middle, run⟩ := bind_ok run
    cases b₂ with
    | false => cases run
    | true =>
    obtain ⟨ok₂, -, entered⟩ := vmMapEnter_spec ok₁ readOnly middle
    rw [if_pos borrows]
    exact (enterRest_added ok before).append
      ((Added.of_entered (entered rfl).2).append (enterRest_added ok₂ run))
  next whole =>
  rw [if_neg whole]
  have size : (g.vaEnd + 2 ^ 64 - g.vaStart) % 2 ^ 64 = g.vaEnd - g.vaStart := by
    rw [Segment.vaEnd_eq room]
    unfold Segment.vaStart vmAlignUp vmAlignDown vmPageSize at *
    omega
  rw [size] at run
  obtain ⟨-, -, entered⟩ := vmMapEnter_spec ok (fun _ => rfl) run
  exact .of_entered (entered rfl).2

include fits

theorem Segment.borrowEnd_le : g.borrowEnd ≤ g.vaEnd := by
  rw [Segment.vaEnd_eq room]
  unfold Segment.borrowEnd vmAlignUp vmAlignDown vmPageSize at *
  omega

theorem Segment.made_covers (sized : g.vmsize ≠ 0) (a : Nat) :
    (∃ e ∈ g.made, e.Covers a) ↔ g.vaStart ≤ a ∧ a < g.vaEnd := by
  have last := Segment.borrowEnd_le room fits
  have first : g.vaStart ≤ g.borrowStart := by
    rw [Segment.borrowStart_eq room]
    unfold Segment.vaStart vmAlignUp vmAlignDown vmPageSize
    omega
  have order : g.vaStart < g.vaEnd := by
    rw [Segment.vaEnd_eq room]
    unfold Segment.vaStart vmAlignUp vmAlignDown vmPageSize
    omega
  unfold Segment.made
  split
  next borrows =>
    have middle : g.borrowStart < g.borrowEnd := by
      simp only [Segment.borrows, Bool.and_eq_true, decide_eq_true_eq] at borrows
      exact borrows.2
    constructor
    · rintro ⟨e, member, low, high⟩
      rw [mem_append, mem_cons] at member
      rcases member with before | rfl | after
      · split at before
        · rw [mem_singleton.mp before] at low high
          simp only [newEntry] at low high
          omega
        · cases before
      · simp only [newEntry] at low high
        omega
      split at after
      · rw [mem_singleton.mp after] at low high
        simp only [newEntry] at low high
        omega
      · cases after
    rintro ⟨low, high⟩
    by_cases before : a < g.borrowStart
    · refine ⟨_, mem_append_left _ (by rw [if_pos (by omega)]; exact mem_singleton_self _), low, ?_⟩
      simp only [newEntry]
      omega
    by_cases after : g.borrowEnd ≤ a
    · refine ⟨_, mem_append_right _
        (mem_cons_of_mem _ (by rw [if_pos (by omega)]; exact mem_singleton_self _)),
        after, ?_⟩
      simp only [newEntry]
      omega
    · refine ⟨_, mem_append_right _ mem_cons_self, by simp only [newEntry]; omega, ?_⟩
      simp only [newEntry]
      omega
  next =>
  simp only [mem_singleton, exists_eq_left]
  unfold VmMapEntry.Covers
  simp only [newEntry]
  omega

end Room

/-! ### The pages placed -/

theorem Segment.page_congr (resident : g.Resident s)
    (same : ∀ f, s.pmm.used f = true → s'.ram f = s.ram f) :
    g.page va s'.ram = g.page va s.ram := by
  funext i
  unfold Segment.page
  split
  next inside =>
    unfold physByte
    have first := g.segVaWord
    have size := g.filesizeWord
    rw [same _ (resident (va + i - g.segVa) (by omega)).1]
  · rfl

theorem imagePages_placed (ok : VmOk s held) (resident : g.Resident s) (nodup : pages.Nodup)
    (ready : ∀ va ∈ pages, Segment.Ready t g s va) (run : imagePages t g pages s = (.ok .ok, s')) :
    ∀ va ∈ pages, g.Placed t s s' va := by
  induction pages generalizing s with
  | nil => exact nofun
  | cons va rest ih =>
  obtain ⟨new, nodup⟩ := nodup_cons.mp nodup
  obtain ⟨s₁, ok₁, put, ⟨here, run⟩ | ⟨fails, -⟩⟩ :=
    imagePages_cons ok resident (ready va mem_cons_self) run
  · have resident₁ := resident.kept put.frames
    have ready₁ := put.ready new ready
    obtain ⟨-, imaged⟩ := imagePages_spec ok₁ resident₁ nodup ready₁ run
    intro a member
    rcases mem_cons.mp member with rfl | more
    · -- the rest of the loop leaves this page, and the frame its bytes
      have kept := imaged.others t a fun both => new both.2
      refine ⟨fun borrowed => kept.trans (here.borrowed borrowed), fun copied => ?_⟩
      obtain ⟨pa, leaf, unused, filled⟩ := here.copied copied
      exact ⟨pa, kept.trans leaf, unused,
        (imaged.ram pa (ok₁.toOwned.used_of_leaf leaf)).trans filled⟩
    have placed := ih ok₁ resident₁ nodup ready₁ run a more
    refine ⟨placed.borrowed, fun copied => ?_⟩
    obtain ⟨pa, leaf, unused, filled⟩ := placed.copied copied
    refine ⟨pa, leaf, ?_, filled.trans (Segment.page_congr resident put.ram)⟩
    by_contra used
    rw [(put.frames pa (by simpa using used)).1] at unused
    cases unused
  · exact absurd rfl fails

/-! ### The whole call -/

theorem Segment.page_eq (room : g.segVa + g.filesize < 2 ^ 64) (high : va + vmPageSize < 2 ^ 64)
    (small : i < vmPageSize)
    (ram : Frame → Nat → Byte) : g.page va ram i = g.byte ram (va + i) := by
  unfold Segment.page Segment.byte
  rw [mod_eq_of_lt room, mod_eq_of_lt high]
  by_cases inside : g.segVa ≤ va + i ∧ va + i < g.segVa + g.filesize
  · rw [if_pos inside, if_pos (by omega)]
  · rw [if_neg inside, if_neg (by omega)]

theorem Segment.Borrowed.byte_eq (borrowed : g.Borrowed va) (floor : 0 < g.borrowStart)
    (aligned : va % vmPageSize = 0)
    (small : i < vmPageSize) (ram : Frame → Nat → Byte) :
    ram (g.frame va) i = g.byte ram (va + i) := by
  obtain ⟨-, low, high, step⟩ := borrowed.inside floor aligned
  have frame : (g.bytes + (va + i - g.segVa)) / vmPageSize = g.frame va := by
    unfold Segment.frame vmPageSize at *
    omega
  have offset : (g.bytes + (va + i - g.segVa)) % vmPageSize = i := by
    unfold vmPageSize at *
    omega
  unfold Segment.byte physByte
  rw [if_pos (by omega), frame, offset]

/-- What was entered; a segment of no bytes needs nothing. -/
def Segment.entered (g : Segment) : List VmMapEntry := if g.vmsize = 0 then [] else g.made

structure Segment.Faithful (t : Nat) (g : Segment) (s s' : Memory) : Prop where
  added : Added t g.entered s s'
  covers : ∀ a, (∃ e ∈ g.entered, e.Covers a) ↔ g.Page (vmAlignDown a)
  /-- Each page is there, reads as the file says, and is the image's own exactly when its entry is
  not anonymous. -/
  pages : ∀ va, g.Page va → ∃ l e, s'.leaf t va = some l ∧ l.prot = g.prot ∧
    vmMapLookup (s'.entries t) va = some e ∧ e ∈ g.entered ∧ e.vmeProt = g.prot ∧
    (∀ i < vmPageSize, s'.ram l.pa i = g.byte s.ram (va + i)) ∧
    ((∃ k < g.filesize, l.pa = (g.bytes + k) / vmPageSize) ↔ e.vmeFlags.anon = false) ∧
    (e.vmeFlags.anon = false → l.pa = g.frame va ∧ g.prot.write = false ∧ g.segVa ≤ va ∧
      va + vmPageSize ≤ g.segVa + g.filesize)

theorem Segment.Placed.faithful {e : VmMapEntry} (placed : g.Placed t s₁ s' va)
    (ready : Segment.Ready t g s₁ va)
    (anon : e.vmeFlags.anon = true ↔ ¬ g.Borrowed va) (resident : g.Resident s₁)
    (kept : ∀ f, s₁.pmm.used f = true → s'.ram f = s₁.ram f)
    (room : g.segVa + g.filesize < 2 ^ 64) (high : va + vmPageSize < 2 ^ 64) :
    ∃ l, s'.leaf t va = some l ∧ l.prot = g.prot ∧
      (∀ i < vmPageSize, s'.ram l.pa i = g.byte s₁.ram (va + i)) ∧
      ((∃ k < g.filesize, l.pa = (g.bytes + k) / vmPageSize) ↔ e.vmeFlags.anon = false) ∧
      (e.vmeFlags.anon = false → l.pa = g.frame va ∧ g.prot.write = false ∧ g.segVa ≤ va ∧
        va + vmPageSize ≤ g.segVa + g.filesize) := by
  by_cases borrowed : g.Borrowed va
  · obtain ⟨readOnly, low, inside, step⟩ := borrowed.inside (ready.floor borrowed) ready.aligned
    have notAnon : e.vmeFlags.anon = false := by simpa using mt anon.mp (not_not.mpr borrowed)
    have own : va - g.segVa < g.filesize := by
      unfold vmPageSize at inside
      omega
    refine ⟨_, placed.borrowed borrowed, rfl, fun i small => ?_, iff_of_true ⟨_, own, rfl⟩ notAnon,
      fun _ => ⟨rfl, readOnly, low, by omega⟩⟩
    have used : s₁.pmm.used (g.frame va) = true := (resident _ own).1
    rw [kept _ used]
    exact borrowed.byte_eq (ready.floor borrowed) ready.aligned small s₁.ram
  obtain ⟨pa, leaf, unused, filled⟩ := placed.copied borrowed
  have isAnon := anon.mpr borrowed
  refine ⟨_, leaf, rfl, fun i small => ?_, iff_of_false ?_ (by rw [isAnon]; decide), fun not => ?_⟩
  · rw [filled]
    exact Segment.page_eq room high small s₁.ram
  · rintro ⟨k, below, rfl⟩
    rw [(resident k below).1] at unused
    cases unused
  · rw [isAnon] at not
    cases not

theorem Segment.made_below {e : VmMapEntry} (member : e ∈ g.made) :
    e.vmeEnd ≤ 2 ^ 64 - vmPageSize := by
  have word (x : Nat) (small : x < 2 ^ 64) : vmAlignDown x ≤ 2 ^ 64 - vmPageSize := by
    unfold vmAlignDown vmPageSize
    omega
  have modulus (x : Nat) : x % 2 ^ 64 < 2 ^ 64 := mod_lt _ (by decide)
  have vaStart : g.vaStart ≤ _ := word _ g.segVaWord
  have vaEnd : g.vaEnd ≤ _ := word _ (modulus _)
  have borrowStart : g.borrowStart ≤ _ := word _ (modulus _)
  have borrowEnd : g.borrowEnd ≤ _ := word _ (modulus _)
  unfold Segment.made at member
  grind [newEntry]

/-- The last page of the address space is in no entry, so a segment that reaches it is not mapped.
-/
theorem Segment.Faithful.room (faithful : g.Faithful t s s') (some : g.vmsize ≠ 0) :
    g.segVa + g.vmsize + (vmPageSize - 1) < 2 ^ 64 := by
  by_contra past
  have word := g.segVaWord
  have last : g.Page (vmAlignDown (2 ^ 64 - vmPageSize)) := by
    refine ⟨max g.segVa (2 ^ 64 - vmPageSize), ?_, ?_, ?_⟩ <;> unfold vmAlignDown vmPageSize
      at * <;> omega
  obtain ⟨e, member, covers⟩ := (faithful.covers _).mpr last
  rw [Segment.entered, if_neg some] at member
  exact absurd covers.2 (not_lt.mpr (Segment.made_below member))

theorem Segment.faithful_of_empty (empty : g.vmsize = 0) (s : Memory) : g.Faithful t s s := by
  have noPage : ∀ va, ¬ g.Page va := by
    rintro va ⟨b, low, high, -⟩
    omega
  have noEntry : g.entered = [] := if_pos empty
  refine ⟨noEntry ▸ .nil t s, fun a => ?_, fun va page => absurd page (noPage va)⟩
  rw [noEntry]
  exact iff_of_false nofun (noPage _)

theorem Segment.faithful_of_room (ok : VmOk s held) (resident : g.Resident s)
    (fits : g.filesize ≤ g.vmsize) (some : g.vmsize ≠ 0)
    (room : g.segVa + g.vmsize + (vmPageSize - 1) < 2 ^ 64)
    (run : (do
      if ← enterSegment t g then imagePages t g (vmPages g.vaStart g.vaEnd)
      else pure .map) s = (.ok .ok, s')) : g.Faithful t s s' := by
  have made : g.entered = g.made := if_neg some
  obtain ⟨b, s₁, entering, run⟩ := bind_ok run
  cases b with
  | false => cases run
  | true =>
  have added := enterSegment_added room ok entering
  obtain ⟨ok₁, prepared, ready⟩ := enterSegment_spec ok entering
  have resident₁ : g.Resident s₁ := by
    unfold Segment.Resident
    rw [prepared.pmm]
    exact resident
  obtain ⟨-, imaged⟩ := imagePages_spec ok₁ resident₁ (vmPages_nodup ..) (ready rfl) run
  have placed := imagePages_placed ok₁ resident₁ (vmPages_nodup ..) (ready rfl) run
  have start : g.vaStart % vmPageSize = 0 := mul_mod_left ..
  refine ⟨⟨fun a => ?_, made ▸ added.free⟩, fun a => ?_, fun va page => ?_⟩
  · rw [made, imaged.entries]
    exact added.lookup a
  · have stop : g.vaEnd % vmPageSize = 0 := by
      rw [Segment.vaEnd_eq room]
      exact mul_mod_left ..
    have page : vmAlignDown a % vmPageSize = 0 := mul_mod_left ..
    rw [made, Segment.made_covers room fits some, Segment.page_iff room some page]
    unfold vmAlignDown vmPageSize at *
    omega
  have aligned : va % vmPageSize = 0 := by
    obtain ⟨b, -, -, rfl⟩ := page
    exact mul_mod_left ..
  obtain ⟨low, high⟩ := (Segment.page_iff room some aligned).mp page
  have member := (mem_vmPages_iff start).mpr ⟨aligned, low, high⟩
  obtain ⟨e, found, prot, anon⟩ := (ready rfl va member).entry
  have last : va + vmPageSize < 2 ^ 64 := by
    rw [Segment.vaEnd_eq room] at high
    unfold vmAlignUp vmPageSize at *
    omega
  obtain ⟨l, leaf, same, bytes, own, whole⟩ :=
    (placed va member).faithful (ready rfl va member) anon resident₁ imaged.ram
    (by omega) last
  rw [prepared.ram] at bytes
  refine ⟨l, e, leaf, same, (imaged.entries t).symm ▸ found, ?_, prot, bytes, own, whole⟩
  -- the entry found is one of those made
  obtain ⟨e', among, covers⟩ := (Segment.made_covers room fits some va).mpr ⟨low, high⟩
  rw [added.lookup, added.free e' among va covers, or_none] at found
  rw [made]
  exact mem_of_find?_eq_some found

/-- A segment that is mapped with success is mapped as the file says, exactly if it is empty or its
end can be rounded up to an address. -/
theorem segment_mapped_faithfully (s s' : Memory) (t : Nat) (g : Segment) (held : Multiset Frame)
    (ok : VmOk s held)
    (resident : g.Resident s) (run : vmMapImage t g s = (.ok .ok, s')) :
    g.Faithful t s s' ↔ g.vmsize = 0 ∨ g.segVa + g.vmsize + (vmPageSize - 1) < 2 ^ 64 := by
  unfold vmMapImage at run
  split at run
  · cases run
  next fits =>
  split at run
  next empty =>
    obtain ⟨-, rfl⟩ := pure_ok_iff.mp run
    exact iff_of_true (Segment.faithful_of_empty empty _) (.inl empty)
  next some =>
  rw [or_iff_right some]
  constructor
  · intro faithful
    exact faithful.room some
  · intro room
    exact Segment.faithful_of_room ok resident (by omega) some room run

/-- A kernel whose image is in frames 1 and 2, and a task with nothing mapped. -/
def imageMemory : Memory :=
  Memory.setTask { pmm := { managed := 6, used := fun f => decide (f < 3)
                            refs := fun _ => 0, hint := 3 }
                   ram := fun f k => UInt8.ofNat (f + k)
                   tasks := ∅
                   objects := fun _ _ => 0
                   refuse := [] } 1 default

theorem imageMemory_ok : VmOk imageMemory 0 := by
  have entries : ∀ t, imageMemory.entries t = [] := by
    intro t
    unfold imageMemory Memory.entries
    rw [Memory.task_setTask]
    split <;> rfl
  have bare : ∀ t va, imageMemory.leaf t va = none := by
    intro t va
    unfold imageMemory Memory.leaf
    rw [Memory.task_setTask]
    split <;> rfl
  refine ⟨⟨fun f owned => absurd rfl owned, fun f owned => absurd rfl owned, nofun, fun t => ?_, ?_,
    ?_⟩, ?_⟩
  · rw [entries]
    exact Ranges.nil
  · intro t va l present
    rw [bare] at present
    cases present
  · intro t va l present
    rw [bare] at present
    cases present
  · intro t va l present
    rw [bare] at present
    cases present

/-- A page and a half of a read-only file, and zeros up to the end of the third page. -/
def textAndZeros : Segment where
  segVa := vmUserVaLo
  vmsize := 0x3000
  filesize := 0x1800
  bytes := 0x1000
  prot := ⟨true, false, true, true⟩
  segVaWord := by decide
  filesizeWord := by decide

theorem textAndZeros_resident : textAndZeros.Resident imageMemory := by
  intro k inside
  have inside : k < 0x1800 := inside
  have frame : (textAndZeros.bytes + k) / vmPageSize < 3 := by
    change (0x1000 + k) / 4096 < 3
    omega
  exact ⟨decide_eq_true frame, rfl⟩

theorem segment_mapped_faithfully_small :
    ∃ s', vmMapImage 1 textAndZeros imageMemory = (.ok .ok, s') ∧
    textAndZeros.Faithful 1 imageMemory s' := by
  have run :=
    run_eq (x := vmMapImage 1 textAndZeros) (s := imageMemory) (a := VmImage.ok) (by decide +kernel)
  have faithful := segment_mapped_faithfully imageMemory _ 1 textAndZeros 0 imageMemory_ok
    textAndZeros_resident run
  exact ⟨_, run, faithful.mpr (.inr (by decide))⟩

/-! ### An end that wraps -/

/-- A page of a read-only file, and zeros up to the end of the address space. -/
def endlessSegment : Segment where
  segVa := vmUserVaLo
  vmsize := 2 ^ 64 - vmUserVaLo
  filesize := vmPageSize
  bytes := 0x1000
  prot := ⟨true, false, true, true⟩
  segVaWord := by decide
  filesizeWord := by decide

/-- The end is address zero: the page to borrow is entered, the loop over the pages has none, and
success is reported with nothing there. -/
theorem segment_end_wraps : VmOk imageMemory 0 ∧ endlessSegment.Resident imageMemory ∧
    endlessSegment.filesize ≤ endlessSegment.vmsize ∧ endlessSegment.vmsize < 2 ^ 64 ∧
    (vmMapImage 1 endlessSegment imageMemory).1 = .ok .ok ∧ endlessSegment.Page 0x40000000 ∧
    (vmMapImage 1 endlessSegment imageMemory).2.leaf 1 0x40000000 = none := by
  refine ⟨imageMemory_ok, fun k inside => ?_, by decide, by decide, by decide +kernel,
    ⟨0x40000000, by decide, by decide, rfl⟩,
    by decide +kernel⟩
  have inside : k < 0x1000 := inside
  have frame : (endlessSegment.bytes + k) / vmPageSize < 3 := by
    change (0x1000 + k) / 4096 < 3
    omega
  exact ⟨decide_eq_true frame, rfl⟩

end Style9.Vm
