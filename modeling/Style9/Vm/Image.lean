import Style9.Vm.Allocate
import Style9.Vm.Release

/-!
# Program images

`vm_map_image` maps one segment of an image that is resident in the kernel. Pages the file covers
whole and nobody may write are borrowed: their leaf is the image's own frame, which has no owner
count and must never be given back. All the others are fresh frames filled from the image. The
entries come first, so a load that stops half way leaves nothing that teardown does not find.
-/
namespace Style9.Vm

open Style9.Lib Act List Bool

variable {s s' : Memory} {t va : Nat} {held : Multiset Frame} {pages : List Nat}

/-! ### The segment -/

/-- The arguments of `vm_map_image`: `bytes` is a kernel address, which is a physical one. -/
structure Segment where
  segVa : Nat
  vmsize : Nat
  filesize : Nat
  bytes : Nat
  prot : Prot
  segVaWord : segVa < 2 ^ 64
  filesizeWord : filesize < 2 ^ 64
  deriving DecidableEq

/-- `VM_IMAGE_*`. -/
inductive VmImage where
  | ok
  | nomem
  | map
  deriving DecidableEq

def physByte (ram : Frame → Nat → Byte) (a : Nat) : Byte := ram (a / vmPageSize) (a % vmPageSize)

namespace Segment

variable {g : Segment}

def vaStart (g : Segment) : Nat := vmAlignDown g.segVa

def vaEnd (g : Segment) : Nat := Word.vmAlignUp ((g.segVa + g.vmsize) % 2 ^ 64)

def borrowStart (g : Segment) : Nat := Word.vmAlignUp g.segVa

def borrowEnd (g : Segment) : Nat := vmAlignDown ((g.segVa + g.filesize) % 2 ^ 64)

/-- Whether there are pages to borrow: read-only, in step with the image, and at least one that
the file covers whole. -/
def borrows (g : Segment) : Bool :=
  !g.prot.write && decide (g.bytes % vmPageSize = g.segVa % vmPageSize) &&
    decide (g.borrowStart < g.borrowEnd)

/-- The pages mapped out of the image. -/
def Borrowed (g : Segment) (va : Nat) : Prop :=
  g.borrows = true ∧ g.borrowStart ≤ va ∧ va < g.borrowEnd

instance (g : Segment) (va : Nat) : Decidable (g.Borrowed va) := inferInstanceAs (Decidable (_ ∧ _))

/-- The frame of the image under a borrowed page. -/
def frame (g : Segment) (va : Nat) : Frame := (g.bytes + (va - g.segVa)) / vmPageSize

/-- What a copied page is filled with: the part the file covers, and zeros around it. -/
def page (g : Segment) (va : Nat) (ram : Frame → Nat → Byte) (i : Nat) : Byte :=
  if max va g.segVa ≤ va + i ∧
    va + i < min ((va + vmPageSize) % 2 ^ 64) ((g.segVa + g.filesize) % 2 ^ 64) then
    physByte ram (g.bytes + (va + i - g.segVa))
  else 0

end Segment

/-! ### The call -/

def vmMapEnter (t va size : Nat) (prot : Prot) (anon : Bool) : Op Bool :=
  vmMapEnterBacked t va size prot { anon := anon, cow := false, lazy := false } none 0

/-- The part of a segment before or after its borrowed pages, if there is one. -/
def enterRest (t va stop : Nat) (prot : Prot) : Op Bool :=
  if va < stop then vmMapEnter t va (stop - va) prot true else pure true

/-- The entries of a segment, before any frame of it. -/
def enterSegment (t : Nat) (g : Segment) : Op Bool := do
  if g.borrows then
    if !(← enterRest t g.vaStart g.borrowStart g.prot) then pure false
    else if !(← vmMapEnter t g.borrowStart (g.borrowEnd - g.borrowStart) g.prot false)
      then pure false
    else enterRest t g.borrowEnd g.vaEnd g.prot
  else vmMapEnter t g.vaStart ((g.vaEnd + 2 ^ 64 - g.vaStart) % 2 ^ 64) g.prot true

/-- The page loop of `vm_map_image`. -/
def imagePages (t : Nat) (g : Segment) : List Nat → Op VmImage
  | [] => pure .ok
  | va :: rest => do
    if g.Borrowed va then
      if ← pmapEnter t va ⟨g.frame va, g.prot⟩ then imagePages t g rest else pure .map
    else
      match ← placePage t va g.prot (g.page va) with
      | .ok => imagePages t g rest
      | .noFrame => pure .nomem
      | .refused => pure .map

def vmMapImage (t : Nat) (g : Segment) : Op VmImage := do
  if g.bytes = 0 ∨ g.vmsize < g.filesize then pure .map
  else if g.vmsize = 0 then pure .ok
  else if ← enterSegment t g then imagePages t g (vmPages g.vaStart g.vaEnd)
  else pure .map

/-! ### What is mapped -/

section
variable {g : Segment} {s₁ : Memory} {result : VmImage} {ne : VmMapEntry}

/-- Everything the file holds is in frames set aside at boot. -/
def Segment.Resident (g : Segment) (s : Memory) : Prop :=
  ∀ k < g.filesize, s.pmm.used ((g.bytes + k) / vmPageSize) = true ∧
    s.pmm.refs ((g.bytes + k) / vmPageSize) = 0

/-- A byte of the file, or zero. -/
def Segment.Holds (g : Segment) (ram : Frame → Nat → Byte) (b : Byte) : Prop :=
  b = 0 ∨ ∃ k < g.filesize, b = physByte ram (g.bytes + k)

/-- A borrowed page lies in the file whole. No sum has wrapped: the entry under it starts above
zero. -/
theorem Segment.Borrowed.inside (borrowed : g.Borrowed va) (floor : 0 < g.borrowStart)
    (aligned : va % vmPageSize = 0) :
    g.prot.write = false ∧ g.segVa ≤ va ∧ va - g.segVa + vmPageSize ≤ g.filesize ∧
      (g.bytes + (va - g.segVa)) % vmPageSize = 0 := by
  obtain ⟨borrows, low, high⟩ := borrowed
  simp only [Segment.borrows, and_eq_true, not_eq_true', decide_eq_true_eq] at borrows
  obtain ⟨⟨readOnly, step⟩, -⟩ := borrows
  have first := g.segVaWord
  have size := g.filesizeWord
  unfold Segment.borrowStart Word.vmAlignUp at low floor
  unfold Segment.borrowEnd at high
  unfold vmAlignDown vmPageSize at *
  refine ⟨readOnly, ?_, ?_, ?_⟩ <;> omega

theorem Segment.page_holds (g : Segment) (va : Nat) (ram : Frame → Nat → Byte) (i : Nat) :
    g.Holds ram (g.page va ram i) := by
  unfold Segment.page
  split
  next inside =>
    refine .inr ⟨va + i - g.segVa, ?_, rfl⟩
    have first := g.segVaWord
    have size := g.filesizeWord
    omega
  · exact .inl rfl

/-- What is known of a page before the loop comes to it. -/
structure Segment.Ready (t : Nat) (g : Segment) (s : Memory) (va : Nat) : Prop where
  aligned : va % vmPageSize = 0
  absent : s.leaf t va = none
  floor : g.Borrowed va → 0 < g.borrowStart
  entry : ∃ e, vmMapLookup (s.entries t) va = some e ∧ e.vmeProt = g.prot ∧
    (e.vmeFlags.anon = true ↔ ¬ g.Borrowed va)

/-- What the loop leaves: frames in use are as they were, and the pages now there hold the file. -/
structure Imaged (t : Nat) (g : Segment) (pages : List Nat) (s s' : Memory) : Prop where
  entries : ∀ x, s'.entries x = s.entries x
  frames : ∀ f, s.pmm.used f = true → s'.pmm.used f = true ∧ s'.pmm.refs f = s.pmm.refs f
  ram : ∀ f, s.pmm.used f = true → s'.ram f = s.ram f
  others : ∀ x a, ¬ (x = t ∧ a ∈ pages) → s'.leaf x a = s.leaf x a
  fresh : ∀ a ∈ pages, ∀ l, s'.leaf t a = some l → l.prot = g.prot ∧ ∀ i < vmPageSize,
    g.Holds s.ram (s'.ram l.pa i)

theorem Segment.Resident.kept (resident : g.Resident s)
    (frames : ∀ f, s.pmm.used f = true → s'.pmm.used f = true ∧ s'.pmm.refs f = s.pmm.refs f) :
    g.Resident s' := by
  intro k inside
  obtain ⟨used, refs⟩ := resident k inside
  exact ⟨(frames _ used).1, (frames _ used).2.trans refs⟩

theorem Segment.Resident.holds {b : Byte} (resident : g.Resident s)
    (ram : ∀ f, s.pmm.used f = true → s'.ram f = s.ram f) (holds : g.Holds s'.ram b) :
    g.Holds s.ram b := by
  rcases holds with zero | ⟨k, inside, byte⟩
  · exact .inl zero
  · refine .inr ⟨k, inside, byte.trans ?_⟩
    unfold physByte
    rw [ram _ (resident k inside).1]

theorem Imaged.refl (t : Nat) (g : Segment) (s : Memory) (absent : ∀ a ∈ pages, s.leaf t a = none) :
    Imaged t g pages s s where
  entries _ := rfl
  frames _ used := ⟨used, rfl⟩
  ram _ _ := rfl
  others _ _ _ := rfl
  fresh a member l present := by
    rw [absent a member] at present
    cases present

/-- What the loop does for one page, whatever comes of it. -/
structure Segment.Put (t : Nat) (g : Segment) (va : Nat) (s s' : Memory) : Prop where
  entries : ∀ x, s'.entries x = s.entries x
  frames : ∀ f, s.pmm.used f = true → s'.pmm.used f = true ∧ s'.pmm.refs f = s.pmm.refs f
  ram : ∀ f, s.pmm.used f = true → s'.ram f = s.ram f
  others : ∀ x a, ¬ (x = t ∧ a = va) → s'.leaf x a = s.leaf x a
  fresh : ∀ l, s'.leaf t va = some l → l.prot = g.prot ∧ ∀ i < vmPageSize,
    g.Holds s.ram (s'.ram l.pa i)

/-- A page of the segment as the loop leaves it: the image's own frame, or a fresh one that is
filled. -/
structure Segment.Placed (t : Nat) (g : Segment) (s s' : Memory) (va : Nat) : Prop where
  borrowed : g.Borrowed va → s'.leaf t va = some ⟨g.frame va, g.prot⟩
  copied : ¬ g.Borrowed va → ∃ pa, s'.leaf t va = some ⟨pa, g.prot⟩ ∧ s.pmm.used pa = false ∧
    s'.ram pa = g.page va s.ram

theorem Imaged.cons (resident : g.Resident s) (ok₁ : VmOk s₁ held) (new : va ∉ pages)
    (put : g.Put t va s s₁) (rest : Imaged t g pages s₁ s') : Imaged t g (va :: pages) s s' where
  entries x := (rest.entries x).trans (put.entries x)
  frames f used := by
    obtain ⟨still, same⟩ := put.frames f used
    exact ⟨(rest.frames f still).1, (rest.frames f still).2.trans same⟩
  ram f used := (rest.ram f (put.frames f used).1).trans (put.ram f used)
  others x a out := by
    rw [rest.others x a fun both => out ⟨both.1, mem_cons_of_mem _ both.2⟩,
      put.others x a fun both => out ⟨both.1, both.2 ▸ mem_cons_self⟩]
  fresh a member l present := by
    rcases mem_cons.mp member with rfl | member
    · -- the page just mapped keeps its frame, and the frame its bytes
      rw [rest.others t a fun both => new both.2] at present
      rw [rest.ram l.pa (ok₁.toOwned.used_of_leaf present)]
      exact put.fresh l present
    · obtain ⟨prot, bytes⟩ := rest.fresh a member l present
      exact ⟨prot, fun i small => resident.holds put.ram (bytes i small)⟩

theorem Segment.Ready.kept (ready : Segment.Ready t g s va) (leaf : s'.leaf t va = s.leaf t va)
    (entries : s'.entries t = s.entries t) : Segment.Ready t g s' va :=
  ⟨ready.aligned, leaf.trans ready.absent, ready.floor, entries ▸ ready.entry⟩

theorem Segment.Ready.borrow (ready : Segment.Ready t g s va) (borrowed : g.Borrowed va)
    (resident : g.Resident s)
    (ok : VmOk s held) : VmOk (s.setLeaf t va ⟨g.frame va, g.prot⟩) held := by
  obtain ⟨readOnly, -, inside, -⟩ := borrowed.inside (ready.floor borrowed) ready.aligned
  obtain ⟨used, refs⟩ := resident (va - g.segVa) (by unfold vmPageSize at inside; omega)
  obtain ⟨e, found, prot, anon⟩ := ready.entry
  have kernel : e.vmeFlags.anon = false := by
    rw [eq_false_iff]
    exact fun owned => anon.mp owned borrowed
  have write : g.prot.write ≠ true := by simp [readOnly]
  have backed : Backed s t va ⟨g.frame va, g.prot⟩ e :=
    ⟨found, fun owned => absurd (kernel.symm.trans owned) false_ne_true, fun _ => ⟨refs, used⟩,
      fun bit => absurd bit write⟩
  exact ⟨ok.toOwned.borrow ready.absent ready.aligned backed refs, ok.exclusive.setLeaf fun bit =>
    absurd bit write⟩

theorem Segment.Ready.borrowed_holds (ready : Segment.Ready t g s va) (borrowed : g.Borrowed va)
    {i : Nat}
    (small : i < vmPageSize) (ram : Frame → Nat → Byte) : g.Holds ram (ram (g.frame va) i) := by
  obtain ⟨-, -, inside, aligned⟩ := borrowed.inside (ready.floor borrowed) ready.aligned
  refine .inr ⟨va - g.segVa + i, by omega, ?_⟩
  have frame : (g.bytes + (va - g.segVa + i)) / vmPageSize = g.frame va := by
    unfold Segment.frame vmPageSize at *
    omega
  have offset : (g.bytes + (va - g.segVa + i)) % vmPageSize = i := by
    unfold vmPageSize at *
    omega
  unfold physByte
  rw [frame, offset]

/-- Whatever is done for a page, the ones the loop has not come to are as ready as they were. -/
theorem Segment.Put.ready (put : g.Put t va s s₁) (new : va ∉ pages)
    (ready : ∀ a ∈ va :: pages, Segment.Ready t g s a) : ∀ a ∈ pages, Segment.Ready t g s₁ a :=
  fun a member =>
  (ready a (mem_cons_of_mem _ member)).kept (put.others t a fun both => new (both.2 ▸ member))
    (put.entries t)

theorem imagePages_cons (ok : VmOk s held) (resident : g.Resident s)
    (here : Segment.Ready t g s va) (run : imagePages t g (va :: pages) s = (.ok result, s')) :
    ∃ s₁, VmOk s₁ held ∧ g.Put t va s s₁ ∧
      (g.Placed t s s₁ va ∧ imagePages t g pages s₁ = (.ok result, s') ∨ result ≠ .ok ∧
        s₁ = s') := by
  simp only [imagePages] at run
  split at run
  next borrowed =>
    obtain ⟨refuse, granted | ⟨-, refused⟩⟩ := pmapEnter_run s t va ⟨g.frame va, g.prot⟩
    · rw [bind_of_ok granted] at run
      have here₁ : Segment.Ready t g (s.setRefuse refuse) va := here.kept rfl rfl
      have mapped : ((s.setRefuse refuse).setLeaf t va ⟨g.frame va, g.prot⟩).leaf t va =
          some ⟨g.frame va, g.prot⟩ := by
        rw [Memory.leaf_setLeaf, if_pos ⟨rfl, rfl⟩]
      refine ⟨_, here₁.borrow borrowed resident (ok.setRefuse refuse),
        ⟨fun x => Memory.entries_setLeaf .., fun _ used => ⟨used, rfl⟩, fun _ _ => rfl, ?_, ?_⟩,
        .inl ⟨⟨fun _ => mapped, fun copied => absurd borrowed copied⟩, run⟩⟩
      · intro x a other
        rw [Memory.leaf_setLeaf, if_neg other]
        rfl
      intro l present
      rw [mapped] at present
      cases present
      exact ⟨rfl, fun i small => here.borrowed_holds borrowed small s.ram⟩
    cases (bind_of_ok refused).symm.trans run
    refine ⟨_, ok.setRefuse refuse,
      ⟨fun _ => rfl, fun _ used => ⟨used, rfl⟩, fun _ _ => rfl, fun _ _ _ => rfl, ?_⟩,
      .inr ⟨nofun, rfl⟩⟩
    exact fun l present => absurd (here.absent.symm.trans present) nofun
  next copied =>
  obtain ⟨placed, s₁, placing, run⟩ := bind_ok run
  obtain ⟨e, found, prot, anon⟩ := here.entry
  have shadow : VmOk (s.setEntries t (s.entries t)) held := (VmOk.setEntries_self_iff rfl).mpr ok
  obtain ⟨ok₁, step⟩ :=
    placePage_spec shadow found (anon.mpr copied) (fun bit => prot ▸ bit) here.aligned
    here.absent placing
  replace ok₁ := (VmOk.setEntries_self_iff (step.entries t).symm).mp ok₁
  refine ⟨s₁, ok₁, ⟨step.entries, step.frames, step.ram, step.others, ?_⟩, ?_⟩
  · intro l present
    by_cases success : placed = .ok
    · obtain ⟨pa, -, mapped, filled⟩ := step.placed success
      rw [mapped] at present
      cases present
      refine ⟨rfl, fun i _ => ?_⟩
      rw [filled]
      exact g.page_holds va s.ram i
    · rw [step.failed success] at present
      cases present
  cases placed with
  | ok =>
    obtain ⟨pa, unused, leaf, filled⟩ := step.placed rfl
    exact .inl ⟨⟨fun borrowed => absurd borrowed copied, fun _ => ⟨pa, leaf, unused, filled⟩⟩, run⟩
  | noFrame | refused =>
    cases run
    exact .inr ⟨nofun, rfl⟩

theorem imagePages_spec (ok : VmOk s held) (resident : g.Resident s) (nodup : pages.Nodup)
    (ready : ∀ va ∈ pages, Segment.Ready t g s va)
    (run : imagePages t g pages s = (.ok result, s')) :
    VmOk s' held ∧ Imaged t g pages s s' := by
  induction pages generalizing s with
  | nil =>
    cases run
    exact ⟨ok, .refl t g _ (by simp)⟩
  | cons va rest ih =>
  obtain ⟨new, nodup⟩ := nodup_cons.mp nodup
  obtain ⟨s₁, ok₁, put, ⟨-, run⟩ | ⟨-, rfl⟩⟩ :=
    imagePages_cons ok resident (ready va mem_cons_self) run
  · obtain ⟨ok', imaged⟩ := ih ok₁ (resident.kept put.frames) nodup (put.ready new ready) run
    exact ⟨ok', .cons resident ok₁ new put imaged⟩
  · exact ⟨ok₁, .cons resident ok₁ new put (.refl t g _ fun a member =>
      (put.ready new ready a member).absent)⟩

/-! ### The entries of a segment -/

/-- What entering leaves to the loop: entries may have been added, and nothing else has changed. -/
structure Prepared (s s' : Memory) : Prop where
  pmm : s'.pmm = s.pmm
  ram : s'.ram = s.ram
  leaf : ∀ x a, s'.leaf x a = s.leaf x a
  covered : ∀ x a e, vmMapLookup (s.entries x) a = some e → vmMapLookup (s'.entries x) a = some e

theorem Prepared.refl (s : Memory) : Prepared s s :=
  ⟨rfl, rfl, fun _ _ => rfl, fun _ _ _ found => found⟩

theorem Prepared.trans (first : Prepared s s₁) (second : Prepared s₁ s') : Prepared s s' where
  pmm := second.pmm.trans first.pmm
  ram := second.ram.trans first.ram
  leaf x a := (second.leaf x a).trans (first.leaf x a)
  covered x a e found := second.covered x a e (first.covered x a e found)

theorem Prepared.of_entered (entered : Entered t ne s s') : Prepared s s' where
  pmm := entered.pmm
  ram := entered.ram
  leaf := entered.leaf
  covered x a e found := by
    by_cases mine : x = t
    · subst mine
      rw [entered.lookup, if_neg]
      · exact found
      · intro covers
        rw [entered.free a covers] at found
        cases found
    · rw [entered.others x mine]
      exact found

theorem vmMapEnter_spec {size : Nat} {anon b : Bool} (ok : VmOk s held)
    (owned : g.prot.write = true → anon = true)
    (run : vmMapEnter t va size g.prot anon s = (.ok b, s')) : VmOk s' held ∧ Prepared s s' ∧
      (b = true → 0 < va ∧
        Entered t (newEntry va size g.prot ⟨anon, false, false⟩ none 0) s s') := by
  obtain ⟨ok', result⟩ :=
    vmMapEnterBacked_spec ok owned (fun lazy => absurd lazy Bool.false_ne_true) run
  obtain ⟨refuse, rfl, legal⟩ := vmMapEnterBacked_run run
  cases b with
  | true =>
    exact ⟨ok', .of_entered result.2,
      fun _ => ⟨(s.task t).tMap.floor.trans_le (legal rfl).low, result.2⟩⟩
  | false =>
    exact ⟨ok', ⟨rfl, rfl, fun _ _ => rfl, fun _ _ _ found => found⟩, nofun⟩

theorem Segment.Ready.of_entered (entered : Entered t ne s s') (covers : ne.Covers va)
    (aligned : va % vmPageSize = 0) (floor : g.Borrowed va → 0 < g.borrowStart)
    (prot : ne.vmeProt = g.prot)
    (anon : ne.vmeFlags.anon = true ↔ ¬ g.Borrowed va) : Segment.Ready t g s' va := by
  refine ⟨aligned, ?_, floor, ne, ?_, prot, anon⟩
  · have bare := entered.bare va covers
    rw [vmAlignDown_of_mod aligned] at bare
    exact (entered.leaf t va).trans bare
  · rw [entered.lookup, if_pos covers]

theorem Segment.Ready.later (ready : Segment.Ready t g s va) (entered : Entered t ne s s') :
    Segment.Ready t g s' va := by
  obtain ⟨e, found, rest⟩ := ready.entry
  have outside : ¬ ne.Covers va := fun covers => by
    rw [entered.free va covers] at found
    cases found
  refine ⟨ready.aligned, (entered.leaf t va).trans ready.absent, ready.floor, e, ?_, rest⟩
  rw [entered.lookup, if_neg outside]
  exact found

theorem enterRest_spec {stop : Nat} {b : Bool} (ok : VmOk s held)
    (run : enterRest t va stop g.prot s = (.ok b, s')) : VmOk s' held ∧ Prepared s s' ∧
      (b = true → ∀ a, a % vmPageSize = 0 → va ≤ a → a < stop → ¬ g.Borrowed a →
        Segment.Ready t g s' a) ∧
      (b = true → ∀ a, Segment.Ready t g s a → Segment.Ready t g s' a) := by
  unfold enterRest at run
  split at run
  · obtain ⟨ok', prepared, entered⟩ := vmMapEnter_spec ok (fun _ => rfl) run
    refine ⟨ok', prepared, fun success a aligned low high copied => ?_, fun success a ready => ?_⟩
    · refine .of_entered (entered success).2 ⟨low, ?_⟩ aligned (fun borrowed =>
        absurd borrowed copied) rfl
        (iff_of_true rfl copied)
      change a < va + (stop - va)
      omega
    · exact ready.later (entered success).2
  · cases run
    exact ⟨ok, .refl _, fun _ a _ low high => by omega, fun _ _ ready => ready⟩

theorem enterSegment_spec {b : Bool} (ok : VmOk s held) (run : enterSegment t g s = (.ok b, s')) :
    VmOk s' held ∧ Prepared s s' ∧
      (b = true → ∀ va ∈ vmPages g.vaStart g.vaEnd, Segment.Ready t g s' va) := by
  have start : g.vaStart % vmPageSize = 0 := Nat.mul_mod_left ..
  have stop : g.vaEnd < 2 ^ 64 := by
    unfold Segment.vaEnd Word.vmAlignUp vmAlignDown vmPageSize
    omega
  unfold enterSegment at run
  split at run
  next borrows =>
    have readOnly : g.prot.write = true → false = true := by
      simp only [Segment.borrows, and_eq_true, not_eq_true'] at borrows
      simp [borrows.1.1]
    -- the part before the borrowed pages
    obtain ⟨b₁, s₁, before, run⟩ := bind_ok run
    obtain ⟨ok₁, prepared₁, ready₁, -⟩ := enterRest_spec ok before
    cases b₁ with
    | false =>
      cases run
      exact ⟨ok₁, prepared₁, nofun⟩
    | true =>
    -- the borrowed pages
    obtain ⟨b₂, s₂, middle, run⟩ := bind_ok run
    obtain ⟨ok₂, prepared₂, entered₂⟩ := vmMapEnter_spec ok₁ readOnly middle
    cases b₂ with
    | false =>
      cases run
      exact ⟨ok₂, prepared₁.trans prepared₂, nofun⟩
    | true =>
    obtain ⟨floor, entered₂⟩ := entered₂ rfl
    have ready₂ : ∀ va ∈ vmPages g.vaStart g.vaEnd, va < g.borrowEnd → Segment.Ready t g s₂ va := by
      intro va member lower
      obtain ⟨aligned, low, -⟩ := (mem_vmPages_iff start).mp member
      by_cases first : va < g.borrowStart
      · exact (ready₁ rfl va aligned low first fun borrowed => absurd borrowed.2.1 (by omega)).later
          entered₂
      · have covers : g.borrowStart ≤ va ∧ va < g.borrowStart + (g.borrowEnd - g.borrowStart) := by
          omega
        exact .of_entered entered₂ covers aligned (fun _ => floor) rfl
          (iff_of_false false_ne_true (not_not.mpr ⟨borrows, by omega, lower⟩))
    -- and the part after them
    obtain ⟨ok₃, prepared₃, ready₃, kept⟩ := enterRest_spec ok₂ run
    refine ⟨ok₃, (prepared₁.trans prepared₂).trans prepared₃, fun success va member => ?_⟩
    obtain ⟨aligned, low, high⟩ := (mem_vmPages_iff start).mp member
    by_cases lower : va < g.borrowEnd
    · exact kept success va (ready₂ va member lower)
    · exact ready₃ success va aligned (by omega) high fun borrowed => lower borrowed.2.2
  next whole =>
  obtain ⟨ok₁, prepared, entered⟩ := vmMapEnter_spec ok (fun _ => rfl) run
  refine ⟨ok₁, prepared, fun success va member => ?_⟩
  obtain ⟨aligned, low, high⟩ := (mem_vmPages_iff start).mp member
  refine .of_entered (entered success).2 ⟨low, ?_⟩ aligned ?_ rfl (iff_of_true rfl ?_)
  · change va < g.vaStart + (g.vaEnd + 2 ^ 64 - g.vaStart) % 2 ^ 64
    omega
  · exact fun borrowed => absurd borrowed.1 whole
  · exact fun borrowed => absurd borrowed.1 whole

/-- What `vm_map_image` leaves, however it ends: what was there stays as it was, and every new page
holds the file or zeros under an entry with its protection. -/
structure Mapped (t : Nat) (g : Segment) (s s' : Memory) : Prop where
  frames : ∀ f, s.pmm.used f = true → s'.pmm.used f = true ∧ s'.pmm.refs f = s.pmm.refs f
  ram : ∀ f, s.pmm.used f = true → s'.ram f = s.ram f
  kept : ∀ x a l, s.leaf x a = some l → s'.leaf x a = some l
  covered : ∀ x a e, vmMapLookup (s.entries x) a = some e → vmMapLookup (s'.entries x) a = some e
  fresh : ∀ x a l, s'.leaf x a = some l → s.leaf x a = some l ∨
    x = t ∧ (∃ e, vmMapLookup (s'.entries x) a = some e ∧ e.vmeProt = l.prot) ∧
      ∀ i < vmPageSize, g.Holds s.ram (s'.ram l.pa i)

theorem Prepared.mapped (prepared : Prepared s s') : Mapped t g s s' where
  frames f used := by
    rw [prepared.pmm]
    exact ⟨used, rfl⟩
  ram f _ := by rw [prepared.ram]
  kept x a l present := (prepared.leaf x a).trans present
  covered := prepared.covered
  fresh x a l present := .inl ((prepared.leaf x a).symm.trans present)

theorem vmMapImage_spec (ok : VmOk s held) (resident : g.Resident s)
    (run : vmMapImage t g s = (.ok result, s')) : VmOk s' held ∧ Mapped t g s s' := by
  unfold vmMapImage at run
  split at run
  · cases run
    exact ⟨ok, (Prepared.refl _).mapped⟩
  split at run
  · cases run
    exact ⟨ok, (Prepared.refl _).mapped⟩
  obtain ⟨b, s₁, entering, run⟩ := bind_ok run
  obtain ⟨ok₁, prepared, ready⟩ := enterSegment_spec ok entering
  cases b with
  | false =>
    cases run
    exact ⟨ok₁, prepared.mapped⟩
  | true =>
  have resident₁ : g.Resident s₁ := by
    unfold Segment.Resident
    rw [prepared.pmm]
    exact resident
  obtain ⟨ok', imaged⟩ := imagePages_spec ok₁ resident₁ (vmPages_nodup ..) (ready rfl) run
  refine ⟨ok', fun f used => ?_, fun f used => ?_, fun x a l present => ?_, fun x a e found => ?_,
    fun x a l present => ?_⟩
  · rw [← prepared.pmm] at used ⊢
    exact imaged.frames f used
  · rw [← prepared.pmm] at used
    rw [← prepared.ram]
    exact imaged.ram f used
  · -- a page of the segment was bare, so an old leaf is elsewhere
    rw [imaged.others x a, prepared.leaf]
    · exact present
    rintro ⟨rfl, member⟩
    have absent := (ready rfl a member).absent
    rw [prepared.leaf, present] at absent
    cases absent
  · rw [imaged.entries]
    exact prepared.covered x a e found
  by_cases mine : x = t ∧ a ∈ vmPages g.vaStart g.vaEnd
  · obtain ⟨rfl, member⟩ := mine
    obtain ⟨e, found, prot, -⟩ := (ready rfl a member).entry
    obtain ⟨same, bytes⟩ := imaged.fresh a member l present
    rw [prepared.ram] at bytes
    refine .inr ⟨rfl, ⟨e, ?_, prot.trans same.symm⟩, bytes⟩
    rw [imaged.entries]
    exact found
  · rw [imaged.others x a mine, prepared.leaf] at present
    exact .inl present

/-! ### The call returns -/

theorem pmapEnter_returns (t va : Nat) (l : Leaf) : (pmapEnter t va l).Returns := fun s => by
  obtain ⟨refuse, granted | ⟨-, refused⟩⟩ := pmapEnter_run s t va l
  · exact ⟨true, _, granted⟩
  · exact ⟨false, _, refused⟩

theorem placePage_returns (t va : Nat) (prot : Prot)
    (contents : (Frame → Nat → Byte) → Nat → Byte) :
    (placePage t va prot contents).Returns := fun s => by
  rcases placePage_result s t va prot contents with none | ⟨pa, refuse, -, placed | refused⟩
  · exact ⟨.noFrame, _, none⟩
  · exact ⟨.ok, _, placed⟩
  · exact ⟨.refused, _, refused⟩

theorem vmMapEnterBacked_returns (t va size : Nat) (prot : Prot) (flags : VmeFlags)
    (obj : Option Nat) (offset : Nat) :
    (vmMapEnterBacked t va size prot flags obj offset).Returns := fun s => by
  obtain ⟨b, refuse, run, -⟩ := vmMapEnterBacked_result t va size prot flags obj offset s
  exact ⟨b, _, run⟩

/-! One walk of the call, for whatever holds of its parts. -/

section Walk

variable {J : {α : Type} → Op α → Prop} (pure : ∀ {α : Type} (a : α), J (Pure.pure a : Op α))
  (bind : ∀ {α β : Type} {x : Op α} {f : α → Op β}, J x → (∀ a, J (f a)) → J (x >>= f))
  (enter : ∀ t va size prot flags obj offset, J (vmMapEnterBacked t va size prot flags obj offset))
include pure bind

theorem imagePages_walk (page : ∀ t va l, J (pmapEnter t va l))
    (place : ∀ t va prot contents, J (placePage t va prot contents))
    (t : Nat) (g : Segment) (pages : List Nat) : J (imagePages t g pages) := by
  induction pages with
  | nil => exact pure _
  | cons va rest ih =>
  simp only [imagePages]
  split
  · refine bind (page t va _) fun entered => ?_
    split
    · exact ih
    · exact pure _
  refine bind (place t va _ _) fun placed => ?_
  cases placed with
  | ok => exact ih
  | noFrame | refused => exact pure _

include enter

theorem enterSegment_walk (t : Nat) (g : Segment) : J (enterSegment t g) := by
  have rest : ∀ va stop prot, J (enterRest t va stop prot) := by
    intro va stop prot
    unfold enterRest
    split
    · exact enter _ _ _ _ _ _ _
    · exact pure _
  unfold enterSegment
  split
  · refine bind (rest _ _ _) fun before => ?_
    split
    · exact pure _
    refine bind (enter _ _ _ _ _ _ _) fun middle => ?_
    split
    · exact pure _
    · exact rest _ _ _
  · exact enter _ _ _ _ _ _ _

theorem vmMapImage_walk (page : ∀ t va l, J (pmapEnter t va l))
    (place : ∀ t va prot contents, J (placePage t va prot contents))
    (t : Nat) (g : Segment) : J (vmMapImage t g) := by
  unfold vmMapImage
  split
  · exact pure _
  split
  · exact pure _
  refine bind (enterSegment_walk pure bind enter t g) fun entered => ?_
  split
  · exact imagePages_walk pure bind page place t g _
  · exact pure _

end Walk

theorem vmMapImage_returns (t : Nat) (g : Segment) : (vmMapImage t g).Returns :=
  vmMapImage_walk (J := fun x => x.Returns) .pure .bind vmMapEnterBacked_returns pmapEnter_returns
    placePage_returns t g

end

end Style9.Vm
