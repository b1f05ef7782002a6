import Style9.Load.Elf

/-!
# A new image in an old task

`arch_darwin_execve` drops the anonymous frames of the old image and forgets its entries, then sets
the new image up like a spawn does: the program, a stack, and for a dynamic image the linker beside
it. Forgetting an entry is not unmapping what lies under it: the pages the old image borrowed from
the kernel stay in the page table. And nothing on this path looks at the signal handlers.
-/
namespace Style9.Load

open Style9.Lib Style9.Vm List Act Option

/-! ### Setting up an image -/

def userStackTop : Nat := 0x41000000
def darwinStackTop : Nat := 0x50000000
def darwinStackPages : Nat := 64

def stackProt : Prot := ⟨true, true, false, true⟩

def stackPage (t va : Nat) : Op (Option Frame) := do
  match ← pmmAllocPage with
  | none => pure none
  | some pa => do
    if ← pmapEnter t va ⟨pa, stackProt⟩ then do
      modify fun s => s.fill pa fun _ => 0
      pure (some pa)
    else do
      pmmFreePage pa
      pure none

/-- The stack loop of `usermode_setup_image`: the frames, the top page's first. -/
def stackPages (t : Nat) : List Nat → Op (Option (List Frame))
  | [] => pure (some [])
  | va :: rest => do
    match ← stackPage t va with
    | none => pure none
    | some pa => do
      match ← stackPages t rest with
      | none => pure none
      | some more => pure (some (pa :: more))

/-- A loader at work on memory. -/
def runLoader {α : Type} (x : Loader α) : Op α := fun mem => ((x ⟨mem, []⟩).1, (x ⟨mem, []⟩).2.mem)

/-- The frames `build_user_arg_stack` and `build_dyld_arg_stack` lay out in the top page: the stack
pointer and the bytes of the page, or nothing if they do not fit. -/
structure Handoff where
  user : Nat × (Nat → Byte)
  dyld : Nat → Option (Nat × (Nat → Byte))

/-- What the loader says of the program; only a Mach-O image stamps a personality. -/
structure Program where
  entry : Nat
  imageBase : Nat
  needsDyld : Bool
  personality : Option Personality

def imageMagic (image : Image) : Loader Nat :=
  if 4 ≤ image.size then look (pointer image.base 0) 4 (fun b => rdLe 4 b 0) else pure 0

def loadProgram (t : Nat) (image : Image) : Loader (Except SysE Program) := do
  let magic ← imageMagic image
  if magic = machoMagic64 ∨ magic = machoFatMagic ∨ magic = machoFatCigam then
    match ← machoLoad t image.base image.size with
    | .error _ => pure (.error .inval)
    | .ok result =>
      pure (.ok ⟨result.entry, result.imageBase, result.needsDyld, some result.personality⟩)
  else
    match ← elfLoad t image.base image.size with
    | .error _ => pure (.error .inval)
    | .ok entry => pure (.ok ⟨entry, 0, false, none⟩)

/-- Where a new image starts. -/
structure Started where
  rip : Nat
  rsp : Nat
  personality : Option Personality

/-- The pages of a stack, the top one first. -/
def stackVas (top npages : Nat) : List Nat := (range npages).map fun p => top - (p + 1) * vmPageSize

/-- The stack of `usermode_setup_image`: pages, then their entry; the top frame. -/
def setupStack (t top npages : Nat) : Op (Option Frame) := do
  match ← stackPages t (stackVas top npages) with
  | none => pure none
  | some frames => do
    if ← vmMapEnter t (top - npages * vmPageSize) (npages * vmPageSize) stackProt true
      then pure frames.head?
    else pure none

def usermodeSetupImage (t : Nat) (image dyld : Image)
    (handoff : Handoff) : Op (Except SysE Started) := do
  match ← runLoader (loadProgram t image) with
  | .error e => pure (.error e)
  | .ok main => do
    let top := if main.needsDyld then darwinStackTop else userStackTop
    match ← setupStack t top (if main.needsDyld then darwinStackPages else 1) with
    | none => pure (.error .nomem)
    | some pa => do
      if main.needsDyld then do
        match ← runLoader (machoLoad t dyld.base dyld.size) with
        | .error _ => pure (.error .inval)
        | .ok linker =>
          match handoff.dyld main.imageBase with
          | none => pure (.error .inval)
          | some (rsp, page) => do
            modify fun s => s.fill pa page
            pure (.ok ⟨linker.entry, rsp, some linker.personality⟩)
      else do
        modify fun s => s.fill pa handoff.user.2
        pure (.ok ⟨main.entry, handoff.user.1, main.personality⟩)

/-! ### The call -/

/-- `vm_map_reset`: the entries are forgotten. -/
def vmMapReset (t : Nat) : Op Unit := modify fun s =>
  s.setMap t { (s.task t).tMap with vmHead := [], vmHint := (s.task t).tMap.vmLo }

def darwinSigDfl : Nat := 0
def darwinSigIgn : Nat := 1

/-- What a Darwin task has besides its address space. -/
structure Process (φ : Type) where
  files : φ
  cwd : List UInt8
  umask : Nat
  sigMask : Nat
  sigHandler : Nat → Nat
  dylibNext : Nat
  personality : Personality

/-- `arch_darwin_execve`: an error is the end of the task. -/
def archDarwinExecve {φ : Type} (t : Nat) (image dyld : Image) (handoff : Handoff) (p : Process φ) :
    Op (Except SysE Started × Process φ) := do
  vmMapReleaseAnon t
  vmMapReset t
  match ← usermodeSetupImage t image dyld handoff with
  | .error e => pure (.error e, { p with dylibNext := 0 })
  | .ok started =>
    pure (.ok started,
      { p with dylibNext := 0, personality := started.personality.getD p.personality })

/-! ### The new address space -/

variable {φ : Type}

section

variable {s₀ s s' : Memory} {t va top n a : Nat} {held : Multiset Frame} {R : Frame → Prop}
  {i image dyld : Image}
  {pages : List Nat} {l : Leaf} {b : Bool} {pa : Frame} {frames : List Frame} {handoff : Handoff}
    {started : Started}

/-- The accounts are in order, and every page of the task lies under an entry with its protection.
-/
structure Matched (R : Frame → Prop) (t : Nat) (held : Multiset Frame) (s : Memory) : Prop where
  ok : VmOk s held
  tidy : Tidy R s
  exactly : ∀ a l, s.leaf t a = some l → Exact s t a l

/-- And what was set aside at boot has the bytes it had when the call was made. -/
structure Renewed (s₀ : Memory) (R : Frame → Prop) (t : Nat) (held : Multiset Frame) (s : Memory) :
    Prop extends Matched R t held s where
  before : Tidy R s₀
  ram : ∀ f, R f → s.ram f = s₀.ram f

theorem vmMapReleaseAnon_bare (ok : VmOk s held)
    (owned : ∀ a l, s.leaf t a = some l → OwnedAt s t a)
    (run : vmMapReleaseAnon t s = (.ok (), s')) :
    VmOk s' held ∧ s'.ram = s.ram ∧ ∀ a, s'.leaf t a = none := by
  obtain ⟨ok', dropped⟩ := vmMapReleaseAnon_dropped ok run
  refine ⟨ok', dropped.ram, fun a => ?_⟩
  rw [dropped.leaf]
  split
  · rfl
  next spared =>
  by_contra there
  obtain ⟨l, present⟩ := ne_none_iff_exists'.mp there
  obtain ⟨e, found, anon⟩ := owned a l present
  have page := (mem_ownedPages (ok.ranges t) found).mpr anon
  rw [vmAlignDown_of_mod (ok.aligned t a l present)] at page
  exact spared ⟨rfl, page⟩

theorem vmMapReset_matched (ok : VmOk s held) (tidy : Tidy R s) (bare : ∀ a, s.leaf t a = none)
    (run : vmMapReset t s = (.ok (), s')) : Matched R t held s' ∧ s'.ram = s.ram := by
  obtain ⟨-, rfl⟩ := modify_ok_iff.mp run
  have map := tidy.maps t
  have emptied : VmOk (s.setEntries t []) held := by
    refine ⟨ok.toOwned.setEntries .nil fun a l present => ?_, ok.exclusive.setEntries⟩
    rw [bare] at present
    cases present
  refine ⟨⟨emptied.congr rfl ?_ (fun x a => ?_) fun x => ?_, ?_, fun a l present => ?_⟩, rfl⟩
  · rw [Memory.mapped_setMap, Memory.mapped_setEntries]
  · rw [Memory.leaf_setMap, Memory.leaf_setEntries]
  · rw [Memory.entries_setMap, Memory.entries_setEntries]
  · exact tidy.setMap ⟨map.window, map.window.1, le_max_left .., by simp⟩
  · rw [Memory.leaf_setMap, bare] at present
    cases present

theorem runLoader_renewed {ε α : Type} {x : Loader (Except ε α)} {r : Except ε α}
    {ranges : List FileRange}
    (renewed : Renewed s₀ R t held s)
    (confined : Confined (reservedSource s₀) s held True x ranges)
    (covers : ∀ r ∈ ranges, (reservedSource s₀).Covers r) (run : runLoader x s = (.ok r, s')) :
    Renewed s₀ R t held s' := by
  have same (f : Frame) : s₀.Reserved f ↔ R f := renewed.before.reserved f
  have leads := confined (fun _ => covers) ⟨s, []⟩ fun _ => .begun renewed.ok
    (fun f aside => (renewed.tidy.reserved f).mpr ((same f).mp aside))
    fun f aside => renewed.ram f ((same f).mp aside)
  rcases loaded : x ⟨s, []⟩ with ⟨err | r', final⟩
  · exact (leads.error loaded).elim
  rw [runLoader, loaded] at run
  cases run
  have safe := (leads.ok loaded trivial).1
  refine ⟨⟨safe.ok, safe.tidy R renewed.tidy, fun a l present => ?_⟩, renewed.before,
    fun f aside => safe.ram f ((same f).mpr aside)⟩
  rcases safe.fresh t a l present with old | ⟨exactly, -⟩
  · obtain ⟨e, found, prot⟩ := renewed.exactly a l old
    exact ⟨e, safe.covered t a e found, prot⟩
  · exact exactly

/-- The loader a program is given to, by its first bytes. -/
def programFormat (ram : Frame → Nat → Byte) (image : Image) : Format :=
  let magic := if 4 ≤ image.size then rdLe 4 (bytesAt ram (pointer image.base 0) 4) 0 else 0
  if magic = machoMagic64 ∨ magic = machoFatMagic ∨ magic = machoFatCigam then .macho else .elf

/-- What the headers of a program name. -/
def programRanges (ram : Frame → Nat → Byte) (image : Image) : List FileRange :=
  (programFormat ram image).ranges ram image.base image.size

theorem Image.Resident.allows (resident : i.Resident s₀) {a n : Nat} (part : i.Part a n) :
    (reservedSource s₀).Allows a n :=
  ⟨(i.source resident).bounded part, (i.source resident).reserved part⟩

theorem loadProgram_confined (t : Nat) (resident : i.Resident s₀) :
    Confined (reservedSource s₀) s held True (loadProgram t i) (programRanges s₀.ram i) := by
  have whole : i.Part i.base i.size := ⟨le_rfl, le_rfl⟩
  have holds {a n : Nat} (part : i.Part a n) := resident.allows part
  have chosen (magic : Nat) (read : magic =
      if 4 ≤ i.size then rdLe 4 (bytesAt s₀.ram (pointer i.base 0) 4) 0 else 0) :
      Confined (reservedSource s₀) s held True (do
        if magic = machoMagic64 ∨ magic = machoFatMagic ∨ magic = machoFatCigam then
          match ← machoLoad t i.base i.size with
          | .error _ => pure (.error .inval)
          | .ok result => pure (.ok
              ⟨result.entry, result.imageBase, result.needsDyld, some result.personality⟩)
        else
          match ← elfLoad t i.base i.size with
          | .error _ => pure (.error .inval)
          | .ok entry => pure (.ok ⟨entry, 0, false, none⟩) : Loader (Except SysE Program))
        (programRanges s₀.ram i) := by
    unfold programRanges programFormat
    rw [← read]
    dsimp only
    split
    · exact .congr (fun _ => List.append_nil _)
        ((machoLoad_confined holds whole).bind (fun e => ⟨_, rfl⟩) fun _ => .pure _)
    · exact .congr (fun _ => List.append_nil _)
        ((elfLoad_confined holds whole).bind (fun e => ⟨_, rfl⟩) fun _ => .pure _)
  unfold loadProgram imageMagic
  split
  next four =>
    exact .look (fun _ => holds (whole.sub (by omega))) fun magic same =>
      chosen magic (by rw [if_pos four, same trivial])
  next small => exact chosen 0 (by rw [if_neg small])

theorem pmapEnter_fill (page : Nat → Byte) (f : Frame) (run : pmapEnter t va l s = (.ok b, s')) :
    pmapEnter t va l (s.fill f page) = (.ok b, s'.fill f page) := by
  have grants : granted (s.fill f page) = ((granted s).1, (granted s).2.fill f page) := by
    unfold granted Memory.fill
    dsimp only
    split
    · rfl
    · rfl
    · rfl
  unfold pmapEnter at run ⊢
  rw [grants]
  obtain ⟨g, refuse, grant⟩ := granted_run s
  rw [grant] at run ⊢
  change (if (s.leaf t va).isSome then _ else _) = _
  split at run
  next present =>
    rw [if_pos present]
    cases run
    rfl
  next absent =>
    rw [if_neg absent]
    cases g with
    | false | true => cases run; rfl

theorem pmapEnter_entries (run : pmapEnter t va l s = (.ok b, s')) (x : Nat) :
    s'.entries x = s.entries x := by
  obtain ⟨refuse, granted | ⟨-, refused⟩⟩ := pmapEnter_run s t va l
  · cases granted.symm.trans run
    exact Memory.entries_setLeaf ..
  · cases refused.symm.trans run
    rfl

theorem pmmAllocPage_entries {got : Option Frame} (run : pmmAllocPage s = (.ok got, s')) (x : Nat) :
    s'.entries x = s.entries x := by
  rcases pmmAllocPage_run s with refused | ⟨pa, -, given⟩
  · rw [refused] at run
    cases run
    rfl
  · rw [given] at run
    cases run
    rfl

theorem stackPage_placed (run : stackPage t va s = (.ok (some pa), s')) :
    placePage t va stackProt (fun _ _ => 0) s = (.ok .ok, s') ∧
      ∀ x, s'.entries x = s.entries x := by
  obtain ⟨got, s₁, alloc, run⟩ := bind_ok run
  unfold placePage
  rw [bind_of_ok alloc]
  cases got with
  | none => cases run
  | some f =>
  dsimp only at run ⊢
  obtain ⟨b, s₂, entered, run⟩ := bind_ok run
  rw [modify_bind, bind_of_ok (pmapEnter_fill _ f entered)]
  cases b with
  | false =>
    obtain ⟨_, _, _, run⟩ := bind_ok run
    cases run
  | true =>
    cases run
    exact ⟨rfl, fun x => (pmapEnter_entries entered x).trans (pmmAllocPage_entries alloc x)⟩

theorem stackPages_cons (run : stackPages t (va :: pages) s = (.ok (some frames), s')) :
    ∃ pa s₁, stackPage t va s = (.ok (some pa), s₁) ∧
      ∃ more, stackPages t pages s₁ = (.ok (some more), s') ∧ frames = pa :: more := by
  obtain ⟨got, s₁, first, run⟩ := bind_ok run
  cases got with
  | none => cases run
  | some pa =>
  obtain ⟨more, s₂, rest, run⟩ := bind_ok run
  cases more with
  | none => cases run
  | some more =>
    obtain ⟨same, rfl⟩ := pure_ok_iff.mp run
    exact ⟨pa, s₁, first, more, rest, some.inj same⟩

theorem stackPages_entries (run : stackPages t pages s = (.ok (some frames), s')) (x : Nat) :
    s'.entries x = s.entries x := by
  induction pages generalizing s frames with
  | nil =>
    cases run
    rfl
  | cons va rest ih =>
    obtain ⟨pa, s₁, first, more, run, -⟩ := stackPages_cons run
    exact (ih run).trans ((stackPage_placed first).2 x)

theorem stackPages_spec {es : List VmMapEntry} {e : VmMapEntry} (ok : VmOk (s.setEntries t es) held)
    (found : ∀ a ∈ pages, vmMapLookup es a = some e) (owned : e.vmeFlags.anon = true)
    (prot : e.vmeProt = stackProt)
    (aligned : ∀ a ∈ pages, a % vmPageSize = 0) (bare : ∀ a ∈ pages, s.leaf t a = none)
    (distinct : pages.Nodup)
    (run : stackPages t pages s = (.ok (some frames), s')) : VmOk (s'.setEntries t es) held ∧
      (∀ a l, s'.leaf t a = some l →
        s.leaf t a = some l ∨ vmMapLookup es a = some e ∧ l.prot = stackProt) ∧
      ∀ f, s.pmm.used f = true → s'.ram f = s.ram f := by
  induction pages generalizing s frames with
  | nil =>
    cases run
    exact ⟨ok, fun _ _ present => .inl present, fun _ _ => rfl⟩
  | cons va rest ih =>
  obtain ⟨pa, s₁, first, more, run, -⟩ := stackPages_cons run
  obtain ⟨unlike, distinct⟩ := nodup_cons.mp distinct
  obtain ⟨ok₁, placing⟩ := placePage_spec ok (found va mem_cons_self) owned (fun bit => prot ▸ bit)
    (aligned va mem_cons_self) (bare va mem_cons_self) (stackPage_placed first).1
  have bare₁ : ∀ a ∈ rest, s₁.leaf t a = none := by
    intro a member
    have other : a ≠ va := by
      rintro rfl
      exact unlike member
    rw [placing.others t a fun same => other same.2]
    exact bare a (mem_cons_of_mem _ member)
  obtain ⟨ok', fresh, ram⟩ := ih ok₁ (fun a member => found a (mem_cons_of_mem _ member))
    (fun a member => aligned a (mem_cons_of_mem _ member)) bare₁ distinct run
  refine ⟨ok', fun a l present => ?_,
    fun f used => (ram f (placing.frames f used).1).trans (placing.ram f used)⟩
  rcases fresh a l present with old | new
  · by_cases here : a = va
    · subst here
      obtain ⟨pa, -, placed, -⟩ := placing.placed rfl
      rw [placed] at old
      cases old
      exact .inr ⟨found a mem_cons_self, rfl⟩
    · rw [placing.others t a fun same => here same.2] at old
      exact .inl old
  · exact .inr new

theorem stackPages_tidy (t : Nat) (pages : List Nat) : (stackPages t pages).Keeps (Tidy R) := by
  have one : ∀ va, (stackPage t va).Keeps (Tidy R) := by
    intro va
    refine .bind_option pmmAllocPage_tidy (.pure _) fun pa => ?_
    refine .bind pmapEnter_tidy fun entered => ?_
    split
    · exact .bind (.modify fun _ tidy => tidy.fill) fun _ => .pure _
    · exact .bind pmmFreePage_tidy fun _ => .pure _
  induction pages with
  | nil => exact .pure _
  | cons va rest ih =>
  refine .bind_option (one va) (.pure _) fun pa => ?_
  refine .bind ih fun more => ?_
  cases more with
  | none | some more => exact .pure _

theorem mem_stackVas (room : n * vmPageSize ≤ top) (aligned : top % vmPageSize = 0)
    (member : a ∈ stackVas top n) :
    a % vmPageSize = 0 ∧ top - n * vmPageSize ≤ a ∧ a < top := by
  obtain ⟨p, below, rfl⟩ := mem_map.mp member
  have below := mem_range.mp below
  unfold vmPageSize at *
  omega

theorem nodup_stackVas (room : n * vmPageSize ≤ top) : (stackVas top n).Nodup := by
  refine List.Nodup.map_on (fun p below q above same => ?_) nodup_range
  rw [mem_range] at below above
  unfold vmPageSize at *
  omega

def stackEntry (top n : Nat) : VmMapEntry :=
  newEntry (top - n * vmPageSize) (n * vmPageSize) stackProt ⟨true, false, false⟩ none 0

/-- The stack is mapped page by page before it has an entry; the entry is granted only where there
was none, and so only where there was no page. -/
theorem setupStack_renewed (room : n * vmPageSize ≤ top) (aligned : top % vmPageSize = 0)
    (before : Renewed s₀ R t held s) (run : setupStack t top n s = (.ok (some pa), s')) :
    Renewed s₀ R t held s' := by
  obtain ⟨got, s₁, pages, run⟩ := bind_ok run
  cases got with
  | none => cases run
  | some frames =>
  obtain ⟨b, s₂, enter, run⟩ := bind_ok run
  cases b with
  | false => cases run
  | true =>
  obtain ⟨-, rfl⟩ := pure_ok_iff.mp run
  have entries := stackPages_entries pages
  have tidy := (stackPages_tidy t _).ok before.tidy pages
  have ranges₁ := entries t ▸ before.ok.ranges t
  obtain ⟨legal, free⟩ :=
    vmMapEnterBacked_legal ranges₁ (fun _ => rfl) (fun lazy => absurd lazy Bool.false_ne_true) enter
  -- the entry would have been legal before the pages were there
  rw [entries] at free
  obtain ⟨ok, entered⟩ :
    VmOk (s.setEntries t (vmEntryInsert (stackEntry top n) (s.entries t))) held ∧
      Entered t (stackEntry top n) s
        (s.setEntries t (vmEntryInsert (stackEntry top n) (s.entries t))) :=
    before.ok.insertEntry legal free
  have covers : ∀ a ∈ stackVas top n, (stackEntry top n).Covers a := by
    intro a member
    obtain ⟨-, low, high⟩ := mem_stackVas room aligned member
    refine ⟨low, ?_⟩
    change a < top - n * vmPageSize + n * vmPageSize
    omega
  have lookup := entered.lookup
  rw [Memory.entries_setEntries, if_pos rfl] at lookup
  obtain ⟨ok₁, fresh, ram⟩ :=
    stackPages_spec ok (fun a member => (lookup a).trans (if_pos (covers a member))) rfl rfl
    (fun a member => (mem_stackVas room aligned member).1) (fun a member => by
      rw [← vmAlignDown_of_mod (mem_stackVas room aligned member).1]
      exact entered.bare a (covers a member)) (nodup_stackVas room) pages
  obtain ⟨refuse, final, -⟩ := vmMapEnterBacked_run enter
  rw [if_pos rfl, entries] at final
  have tidy' := vmMapEnterBacked_tidy.ok tidy enter
  refine ⟨⟨?_, tidy', fun a l present => ?_⟩, before.before, fun f aside => ?_⟩
  · rw [final]
    exact ok₁.setRefuse refuse
  rotate_left
  · have same : s'.ram = s₁.ram := by
      rw [final]
      rfl
    rw [same, ram f ((before.tidy.reserved f).mpr aside).1]
    exact before.ram f aside
  have look : s'.entries t = vmEntryInsert (stackEntry top n) (s.entries t) := by
    rw [final, Memory.entries_setEntries, if_pos rfl]
    rfl
  have page : s₁.leaf t a = some l := by
    rw [final, Memory.leaf_setEntries] at present
    exact present
  rcases fresh a l page with old | ⟨found, prot⟩
  · obtain ⟨e, found, prot⟩ := before.exactly a l old
    have outside : ¬ (stackEntry top n).Covers a := by
      intro covers
      rw [entered.free a covers] at found
      cases found
    refine ⟨e, ?_, prot⟩
    rw [look, lookup, if_neg outside]
    exact found
  · exact ⟨_, look ▸ found, prot.symm⟩

theorem Matched.fill {f : Frame} {page : Nat → Byte} (matched : Matched R t held s) :
    Matched R t held (s.fill f page) :=
  ⟨matched.ok.congr rfl rfl (fun _ _ => rfl) fun _ => rfl, matched.tidy.fill, matched.exactly⟩

/-- Everything that the loader lets through, of the program and of the linker, is in memory that was
set aside at boot. -/
def SetAside (s₀ : Memory) (image dyld : Image) : Prop :=
  ∀ r ∈ programRanges s₀.ram image ++ machoRanges s₀.ram dyld.base dyld.size,
    (reservedSource s₀).Covers r

/-- Images that name nothing outside themselves. -/
theorem setAside_of_kept (program : image.Resident s₀) (linker : dyld.Resident s₀)
    (kept : ∀ r ∈ programRanges s₀.ram image ++ machoRanges s₀.ram dyld.base dyld.size, r.Kept) :
    SetAside s₀ image dyld := by
  intro r member _ passes
  have inside := kept r member (.inr passes)
  rcases mem_append.mp member with mine | theirs
  · exact program.allows (((programFormat s₀.ram image).ranges_part mine).sub inside)
  · exact linker.allows ((Format.macho.ranges_part (i := dyld) theirs).sub inside)

theorem usermodeSetupImage_matched (before : Renewed s₀ R t held s) (program : image.Resident s₀)
    (linker : dyld.Resident s₀) (aside : SetAside s₀ image dyld)
    (run : usermodeSetupImage t image dyld handoff s = (.ok (.ok started), s')) :
    Matched R t held s' := by
  obtain ⟨r, s₁, loading, run⟩ := bind_ok run
  cases r with
  | error e => cases run
  | ok main =>
  obtain ⟨got, s₂, stack, run⟩ := bind_ok run
  cases got with
  | none => cases run
  | some pa =>
  dsimp only at run
  -- the program and the stack come first, with or without a linker
  have loaded := runLoader_renewed before (loadProgram_confined t program)
    (fun r member => aside r (mem_append_left _ member)) loading
  have settled : Renewed s₀ R t held s₂ := by
    refine setupStack_renewed ?_ ?_ loaded stack
    · split
      · decide
      · decide
    · split
      · decide
      · decide
  split at run
  · obtain ⟨r, s₃, loading₂, run⟩ := bind_ok run
    cases r with
    | error e => cases run
    | ok linker' =>
    cases frame : handoff.dyld main.imageBase with
    | none =>
      rw [frame] at run
      cases run
    | some laid =>
    rw [frame] at run
    dsimp only at run
    obtain ⟨same, rfl⟩ := pure_ok_iff.mp run
    have whole : dyld.Part dyld.base dyld.size := ⟨le_rfl, le_rfl⟩
    exact (runLoader_renewed settled (machoLoad_confined linker.allows whole)
      (fun r member => aside r (mem_append_right _ member)) loading₂).fill
  obtain ⟨same, rfl⟩ := pure_ok_iff.mp run
  exact settled.fill

/-- What `execve` makes of a task whose pages were all its own. -/
theorem archDarwinExecve_matched {p p' : Process φ}
    (ok : VmOk s held) (tidy : Tidy R s) (owned : ∀ a l, s.leaf t a = some l → OwnedAt s t a)
    (program : image.Resident s) (linker : dyld.Resident s) (aside : SetAside s image dyld)
    (run : archDarwinExecve t image dyld handoff p s = (.ok (.ok started, p'), s')) :
    Matched R t held s' := by
  obtain ⟨_, s₁, release, run⟩ := bind_ok run
  obtain ⟨_, s₂, reset, run⟩ := bind_ok run
  obtain ⟨r, s₃, setup, run⟩ := bind_ok run
  obtain ⟨ok₁, ram, bare⟩ := vmMapReleaseAnon_bare ok owned release
  obtain ⟨matched, ram'⟩ :=
    vmMapReset_matched ok₁ (vmMapReleaseAnon_tidy.ok tidy release) bare reset
  have renewed : Renewed s R t held s₂ := ⟨matched, tidy, fun f _ => by rw [ram', ram]⟩
  cases r with
  | error e => cases run
  | ok started' =>
    obtain ⟨same, rfl⟩ := pure_ok_iff.mp run
    cases same
    exact usermodeSetupImage_matched renewed program linker aside setup

/-- Whatever becomes of the call, the descriptors, the directory and the signals are not looked at.
-/
theorem archDarwinExecve_process {r : Except SysE Started} {p p' : Process φ}
    (run : archDarwinExecve t image dyld handoff p s = (.ok (r, p'), s')) :
    p'.files = p.files ∧ p'.cwd = p.cwd ∧ p'.umask = p.umask ∧ p'.sigMask = p.sigMask ∧
      p'.sigHandler = p.sigHandler := by
  obtain ⟨_, s₁, release, run⟩ := bind_ok run
  obtain ⟨_, s₂, reset, run⟩ := bind_ok run
  obtain ⟨r, s₃, setup, run⟩ := bind_ok run
  cases r with
  | error e | ok started =>
    obtain ⟨same, -⟩ := pure_ok_iff.mp run
    cases same
    exact ⟨rfl, rfl, rfl, rfl, rfl⟩

theorem fresh_reads_zero {size : Nat} {prot : Prot} (ok : VmOk s held)
    (run : vmMapEnterBacked t va size prot ⟨true, false, true⟩ none 0 s = (.ok true, s'))
    (low : va ≤ a)
    (high : a < va + size) : s'.view t a = some 0 := by
  obtain ⟨-, -, entered⟩ := vmMapEnterBacked_spec ok (fun _ => rfl) (fun _ => rfl) run
  have covers : (newEntry va size prot ⟨true, false, true⟩ none 0).Covers a := ⟨low, high⟩
  unfold Memory.view
  rw [entered.lookup, if_pos covers]
  rw [entered.leaf, entered.bare a covers]
  rfl

end

/-- A task that owns every page it has becomes the new image and nothing else: each of its pages
lies under an entry of the new map with that entry's protection; from then on, whatever is called,
fresh memory reads as zeros and neither an unmapping nor an exit hands a frame of the kernel to the
allocator; descriptors, directory, mask and blocked signals are what they were. Ignored signals stay
ignored and the others have the default action just where no signal was caught. -/
theorem execve_replaces_image {φ : Type} {t : Nat} {image dyld : Image} {handoff : Handoff}
    {p p' : Process φ} {w : World} {R : Frame → Prop} {mem : Memory} {started : Started}
    (sound : w.Sound R) (program : image.Resident w.mem) (linker : dyld.Resident w.mem)
    (owned : ∀ a l, w.mem.leaf t a = some l → OwnedAt w.mem t a)
    (aside : SetAside w.mem image dyld)
    (run : archDarwinExecve t image dyld handoff p w.mem = (.ok (.ok started, p'), mem)) :
    (∀ a l, mem.leaf t a = some l →
      ∃ e, vmMapLookup (mem.entries t) a = some e ∧ e.vmeProt = l.prot) ∧
    (∀ w', World.Reaches World.Fits ⟨mem, w.flight⟩ w' →
      (∀ va size prot s',
        vmMapEnterBacked t va size prot ⟨true, false, true⟩ none 0 w'.mem = (.ok true, s') →
        ∀ a, va ≤ a → a < va + size → s'.view t a = some 0) ∧
      (∀ x va size, ∃ b s', vmMapRelease x va size w'.mem = (.ok b, s')) ∧
      ∀ x, ∃ s', taskDestroy x w'.mem = (.ok (), s')) ∧
    ((∀ n, p'.sigHandler n = if p.sigHandler n = darwinSigIgn then darwinSigIgn else darwinSigDfl) ↔
      ∀ n, p.sigHandler n = darwinSigDfl ∨ p.sigHandler n = darwinSigIgn) ∧
    p'.files = p.files ∧ p'.cwd = p.cwd ∧ p'.umask = p.umask ∧ p'.sigMask = p.sigMask := by
  have matched := archDarwinExecve_matched sound.ok sound.tidy owned program linker aside run
  obtain ⟨files, cwd, umask, sigMask, sigHandler⟩ := archDarwinExecve_process run
  have after : World.Sound R ⟨mem, w.flight⟩ := ⟨matched.ok, matched.tidy⟩
  refine ⟨matched.exactly, fun w' later => ?_, forall_congr' fun n => ?_, files, cwd, umask,
    sigMask⟩
  · -- the accounts stay in order whatever is called later
    have ok := (later.sound after).ok
    exact ⟨fun va size prot s' entered a low high => fresh_reads_zero ok entered low high,
      vmMapRelease_returns ok, taskDestroy_returns ok⟩
  rw [sigHandler]
  by_cases ignored : p.sigHandler n = darwinSigIgn
  · simp [ignored]
  · simp [ignored]

/-! ### What stays behind -/

/-- A call to `execve` came back with a new image. -/
def newImage {φ : Type} : Except Halt (Except SysE Started × Process φ) → Bool
  | .ok (.ok _, _) => true
  | _ => false

theorem returns_of_newImage {x : Op (Except SysE Started × Process φ)} {s : Memory}
    (success : newImage (x s).1 = true) : ∃ r p', x s = (.ok (.ok r, p'), (x s).2) := by
  rcases run : x s with ⟨err | ⟨err | r, p'⟩, s'⟩
  · rw [run] at success
    cases success
  · rw [run] at success
    cases success
  · exact ⟨r, p', rfl⟩

/-- A program of one page in Mach-O form. -/
def machoBytes : Bytes :=
  leBytes 4 machoMagic64 ++ leBytes 4 machoCpuTypeX8664 ++ leBytes 4 0 ++
    leBytes 4 machoMhExecute ++ leBytes 4 2 ++
    leBytes 4 256 ++ leBytes 8 0 ++
    leBytes 4 machoLcSegment64 ++ leBytes 4 72 ++ replicate 16 0 ++ leBytes 8 0x40000000 ++
      leBytes 8 0x1000 ++
    leBytes 8 0 ++ leBytes 8 288 ++ leBytes 4 5 ++ leBytes 4 5 ++ leBytes 8 0 ++
    leBytes 4 machoLcUnixthread ++ leBytes 4 184 ++ leBytes 4 4 ++ leBytes 4 42 ++
      replicate 128 0 ++
    leBytes 8 0x40000000 ++ replicate 32 0

def machoImage : Image := ⟨0x1100, 288, by decide⟩

/-- It lies in frame 1, which is the kernel's. -/
def machoMemory : Memory where
  pmm := { managed := 6, used := fun f => f == 1, refs := fun _ => 0, hint := 2 }
  ram := fun _ k => if k < 0x100 then 0x5A else machoBytes.getD (k - 0x100) 0
  tasks := (∅ : Table Nat Task).insert 1 (freshTask default)
  objects := fun _ _ => 0
  refuse := []

theorem machoMemory_sound : World.Sound (fun f => (f == 1) = true) ⟨machoMemory, ∅⟩ := by
  have booted : World.Booted ⟨{ machoMemory with tasks := ∅ }, ∅⟩ := ⟨rfl, rfl, fun _ => rfl⟩
  exact booted.first 1

def plainHandoff : Handoff := ⟨(0x40FFFFE0, fun _ => 0), fun _ => none⟩

/-- A process that ignores one signal and catches none. -/
def plainProcess : Process Unit :=
  ⟨(), [0x2F], 0o22, 0, fun n => if n = 2 then darwinSigIgn else darwinSigDfl, 0, .darwin⟩

/-- The task has allocated a page. -/
def ownMemory : Memory := (syscallVmAllocate 1 0x1000 stackProt machoMemory).2

theorem ownMemory_sound : World.Sound (fun f => (f == 1) = true) ⟨ownMemory, ∅⟩ := by
  have run : syscallVmAllocate 1 0x1000 stackProt machoMemory = (.ok (.ok 0x40000000), ownMemory) :=
    Act.run_eq (by decide +kernel)
  have reached : World.Reaches World.Fits ⟨machoMemory, ∅⟩ ⟨ownMemory, ∅⟩ :=
    .call .start (show _ < _ by decide) (.allocate run)
  exact reached.sound machoMemory_sound

theorem ownMemory_owned (a : Nat) (l : Leaf) (present : ownMemory.leaf 1 a = some l) :
    OwnedAt ownMemory 1 a := by
  have one : (ownMemory.task 1).tPmap.entries = [⟨0x40000000, ⟨2, stackProt⟩⟩] := by decide +kernel
  have member := AList.mem_lookup_iff.mp (Option.mem_def.mpr present)
  rw [one, mem_singleton] at member
  cases member
  exact ⟨_, show vmMapLookup _ _ = some ⟨0x40000000, 0x40001000, 0, none, stackProt,
    ⟨true, false, false⟩⟩ by
    decide +kernel, rfl⟩

theorem machoImage_resident_own : machoImage.Resident ownMemory := by
  intro k inside
  have aside : ownMemory.pmm.used 1 = true ∧ ownMemory.pmm.refs 1 = 0 := by decide +kernel
  have inside : k < 288 := inside
  have frame : (machoImage.base + k) / vmPageSize = 1 := by
    change (0x1100 + k) / 4096 = 1
    omega
  rw [frame]
  exact aside

/-- The program, run in a task that has a page of its own. -/
theorem execve_replaces_image_small : ∃ started p' mem,
    archDarwinExecve 1 machoImage machoImage plainHandoff plainProcess ownMemory =
      (.ok (.ok started, p'), mem) ∧
    (∀ a l, mem.leaf 1 a = some l →
      ∃ e, vmMapLookup (mem.entries 1) a = some e ∧ e.vmeProt = l.prot) ∧
    p'.sigHandler 2 = darwinSigIgn ∧ p'.files = plainProcess.files := by
  obtain ⟨started, p', run⟩ := returns_of_newImage (show newImage (archDarwinExecve 1 machoImage
    machoImage plainHandoff plainProcess ownMemory).1 = true by decide +kernel)
  have uncaught (n : Nat) : plainProcess.sigHandler n = darwinSigDfl ∨
      plainProcess.sigHandler n = darwinSigIgn := by
    by_cases two : n = 2
    · exact .inr (if_pos two)
    · exact .inl (if_neg two)
  have small :=
    execve_replaces_image ownMemory_sound machoImage_resident_own machoImage_resident_own
    ownMemory_owned
    (setAside_of_kept machoImage_resident_own machoImage_resident_own (by decide +kernel)) run
  exact ⟨started, p', _, run, small.1, (small.2.2.1.mpr uncaught 2).trans rfl, small.2.2.2.1⟩

/-- The text of an older program: a whole page of the kernel's frame. -/
def textSegment : Segment where
  segVa := 0x40001000
  vmsize := 0x1000
  filesize := 0x1000
  bytes := 0x1000
  prot := ⟨true, false, true, true⟩
  segVaWord := by decide
  filesizeWord := by decide

def textMemory : Memory := (vmMapImage 1 textSegment machoMemory).2

def caughtProcess : Process Unit :=
  ⟨(), [0x2F], 0o22, 0, fun n => if n = 2 then 0x40001100 else darwinSigDfl, 0, .darwin⟩

def execMemory : Memory :=
  (archDarwinExecve 1 machoImage machoImage plainHandoff caughtProcess textMemory).2

/-- Anonymous memory mapped where the old text was. -/
def remappedMemory : Memory :=
  (vmMapEnterBacked 1 0x40001000 0x1000 stackProt ⟨true, false, true⟩ none 0 execMemory).2

/-- The borrowed page is still there and under no entry; fresh memory mapped over it reads as the
old text; unmapping that memory hands the kernel's frame to the allocator; and the handler of the
old image is still installed. -/
theorem execve_leaves_old_image : (vmMapImage 1 textSegment machoMemory).1 = .ok .ok ∧
    (∃ r p', (archDarwinExecve 1 machoImage machoImage plainHandoff caughtProcess textMemory).1 =
      .ok (.ok r, p') ∧
      p'.sigHandler 2 = 0x40001100) ∧
    execMemory.leaf 1 0x40001000 = some ⟨1, ⟨true, false, true, true⟩⟩ ∧
    vmMapLookup (execMemory.entries 1) 0x40001000 = none ∧
    (vmMapEnterBacked 1 0x40001000 0x1000 stackProt ⟨true, false, true⟩ none 0 execMemory).1 =
      .ok true ∧
    remappedMemory.view 1 0x40001000 = some 0x5A ∧
    (vmMapRelease 1 0x40001000 0x1000 remappedMemory).1 = .error .pmmFreeReserved := by
  refine ⟨by decide +kernel,
    ?_, by decide +kernel, by decide +kernel, by decide +kernel, by decide +kernel,
    by decide +kernel⟩
  have success :
    newImage (archDarwinExecve 1 machoImage machoImage plainHandoff caughtProcess textMemory).1 =
      true := by decide +kernel
  obtain ⟨r, p', run⟩ := returns_of_newImage success
  refine ⟨r, p', congrArg Prod.fst run, ?_⟩
  rw [(archDarwinExecve_process run).2.2.2.2]
  decide

end Style9.Load
