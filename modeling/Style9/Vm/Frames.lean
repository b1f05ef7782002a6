import Style9.Vm.Tidy

/-!
# Who owns a frame

All the calls that take and give back frames, in any order: images, fresh memory, faults, forks,
messages and teardown. A frame's count is the number of leaves that own it and of messages in
flight that carry it, no more and no less, also after calls that fail half way; when that number
comes to zero the frame is free, and the frames of the kernel are never counted.
-/
namespace Style9.Vm

open Style9.Lib Memory Multiset Option Act

variable {s s' : Memory} {t va src size : Nat} {held : Multiset Frame} {w w' w₀ : World} {f : Frame}
  {R : Frame → Prop}

/-! ### Payloads from the kernel -/

/-- `page_from_bytes` on a kernel address. -/
def pageFromKernel (src off size : Nat) : Op (Option Frame) := do
  match ← pmmAllocPage with
  | none => pure none
  | some pa => do
    modify fun s => s.fill pa fun i =>
      if i < min (size - off) vmPageSize then physByte s.ram (src + off + i) else 0
    pure (some pa)

/-- The loop of `vm_pages_capture_kernel` from page `i` on, with `n` pages to go. -/
def captureKernel (src size : Nat) : Nat → List Frame → Nat → Op (Option (List Frame))
  | _, done, 0 => pure (some done)
  | i, done, n + 1 => do
    match ← pageFromKernel src (i * vmPageSize) size with
    | none => do
      vmPagesRelease (done.map some)
      pure none
    | some f => captureKernel src size (i + 1) (done ++ [f]) n

def vmPagesCaptureKernel (src size maxPages : Nat) : Op (Option (List Frame)) := do
  let npages := vmAlignUp size / vmPageSize
  if size = 0 ∨ maxPages < npages then pure none else captureKernel src size 0 [] npages

theorem pageFromKernel_spec {off : Nat} {got : Option Frame} (ok : VmOk s held)
    (run : pageFromKernel src off size s = (.ok got, s')) :
    match got with
    | none => VmOk s' held
    | some pa => VmOk s' (pa ::ₘ held) := by
  rcases pmmAllocPage_run s with none | ⟨pa, free, given⟩
  · cases (bind_of_ok none).symm.trans run
    exact ok
  · cases (bind_of_ok given).symm.trans run
    exact (ok.filled free _).1

theorem captureKernel_spec {i n : Nat} {done : List Frame} {got : Option (List Frame)}
    (ok : VmOk s ((done : Multiset Frame) + held))
    (run : captureKernel src size i done n s = (.ok got, s')) :
    VmOk s' ((got.getD [] : Multiset Frame) + held) := by
  induction n generalizing i done s with
  | zero =>
    cases run
    exact ok
  | succ n ih =>
  obtain ⟨pa, s₁, copy, run⟩ := bind_ok run
  have ok₁ := pageFromKernel_spec ok copy
  cases pa with
  | none =>
    -- what was taken so far goes back
    obtain ⟨_, s₂, releasing, run⟩ := bind_ok run
    cases run
    have all : taken (done.map some) = (done : Multiset Frame) := by
      have := taken_append done []
      rw [List.append_nil] at this
      exact this.trans (add_zero _)
    rw [getD_none, coe_nil, zero_add]
    exact (vmPagesRelease_quiet (by rw [all]; exact ok₁) releasing).1
  | some f =>
    have more : ((done ++ [f] : List Frame) : Multiset Frame) + held =
        f ::ₘ ((done : Multiset Frame) + held) := by
      rw [← coe_add, coe_singleton, add_assoc, singleton_add, add_cons]
    exact ih (more ▸ ok₁) run

theorem captureKernel_tidy (src size i n : Nat) (done : List Frame) :
    (captureKernel src size i done n).Keeps (Tidy R) := by
  induction n generalizing i done with
  | zero => exact .pure _
  | succ n ih =>
  refine .bind (.bind pmmAllocPage_tidy fun got => ?_) fun got => ?_
  · cases got with
    | none => exact .pure _
    | some pa => exact .bind (.modify fun _ tidy => tidy.fill) fun _ => .pure _
  · cases got with
    | none => exact .bind vmPagesRelease_tidy fun _ => .pure _
    | some f => exact ih _ _

/-! ### The calls -/

/-- Every call that takes frames or gives them back. -/
inductive VmCall where
  | event (event : Event)
  | create (t : Nat)
  | image (t : Nat) (g : Segment)
  | allocate (t size : Nat) (prot : Prot)
  | captureKernel (src size maxPages id : Nat)

/-- One call, run to its end. An image is part of the kernel: its frames were set aside at boot. -/
inductive World.Does : World → VmCall → World → Prop
  | event {w w' : World} {event : Event} (step : w.Step event w') : Does w (.event event) w'
  | create {w : World} {t : Nat} (fresh : w.mem.tasks.lookup t = none) :
      Does w (.create t) { w with mem := w.mem.setTask t (freshTask default) }
  | image {w : World} {t : Nat} {g : Segment} {result : VmImage} {s : Memory}
      (resident : g.Resident w.mem) (run : vmMapImage t g w.mem = (.ok result, s)) :
      Does w (.image t g) { w with mem := s }
  | allocate {w : World} {t size : Nat} {prot : Prot} {result : Except SysE Nat} {s : Memory}
      (run : syscallVmAllocate t size prot w.mem = (.ok result, s)) :
      Does w (.allocate t size prot) { w with mem := s }
  | captured {w : World} {src size maxPages id : Nat} {frames : List Frame} {s : Memory}
      (fresh : w.flight.lookup id = none)
      (run : vmPagesCaptureKernel src size maxPages w.mem = (.ok (some frames), s)) :
      Does w (.captureKernel src size maxPages id) ⟨s, w.flight.insert id frames⟩
  | refused {w : World} {src size maxPages id : Nat} {s : Memory}
      (run : vmPagesCaptureKernel src size maxPages w.mem = (.ok none, s)) :
      Does w (.captureKernel src size maxPages id) { w with mem := s }

/-- The size of fresh memory, rounded, fits into the address space above the window. -/
def World.Fits (w : World) : VmCall → Prop
  | .allocate t size _ =>
    max (w.mem.task t).tMap.vmLo (w.mem.task t).tMap.vmHi + vmAlignUp size < 2 ^ 64
  | _ => True

/-- The states reached by calls that all meet a condition where they are made. -/
inductive World.Reaches (fits : World → VmCall → Prop) (w₀ : World) : World → Prop
  | start : Reaches fits w₀ w₀
  | call {w w' : World} {c : VmCall} (earlier : Reaches fits w₀ w) (meets : fits w c)
      (does : w.Does c w') : Reaches fits w₀ w'

/-- No task, no message, and no frame handed out yet. -/
structure World.Booted (w : World) : Prop where
  tasks : w.mem.tasks = ∅
  flight : w.flight = ∅
  refs : ∀ f, w.mem.pmm.refs f = 0

/-! ### What each call keeps -/

/-- Everything that is known in the states reached. -/
structure World.Sound (R : Frame → Prop) (w : World) : Prop where
  ok : w.Ok
  tidy : Tidy R w.mem

theorem World.Booted.sound (booted : w.Booted) : w.Sound fun f => w.mem.pmm.used f = true := by
  have task : ∀ t, w.mem.task t = default := by
    intro t
    unfold Memory.task
    rw [booted.tasks]
    rfl
  refine ⟨World.ok_of_bare booted.refs (fun t va => ?_) (fun t => ?_) booted.flight, fun f => ?_,
    fun t => ?_⟩
  · unfold Memory.leaf
    rw [task]
    rfl
  · unfold Memory.entries
    rw [task]
    exact .nil
  · exact and_iff_left (booted.refs f)
  · rw [task]
    exact VmMap.tidy_default

theorem World.Step.tidy {event : Event} (tidy : Tidy R w.mem) (step : w.Step event w') :
    Tidy R w'.mem := by
  cases step with
  | fork apart fresh run => exact forkTask_tidy.ok tidy run
  | fault run => exact vmFault_tidy.ok tidy run
  | store run => exact userStore_tidy.ok tidy run
  | captured fresh run | refused run => exact vmPagesCaptureUser_tidy.ok tidy run
  | landed carried run | returned carried run => exact vmPagesInstall_tidy.ok tidy run
  | drop carried run => exact vmPagesRelease_tidy.ok tidy run
  | release run => exact vmMapRelease_tidy.ok tidy run
  | releaseAnon run => exact vmMapReleaseAnon_tidy.ok tidy run
  | exit run => exact taskDestroy_tidy.ok tidy run

theorem vmOk_create (ok : VmOk s held) (fresh : s.tasks.lookup t = none) :
    VmOk (s.setTask t (freshTask default)) held := by
  have before : s.task t = default := by
    unfold Memory.task
    rw [fresh]
    rfl
  refine ok.congr rfl (mapped_of_frames ?_) (fun x a => ?_) fun x => ?_
  · rw [before]
    rfl
  · unfold Memory.leaf
    rw [task_setTask]
    split
    next same => rw [same, before]; rfl
    · rfl
  unfold Memory.entries
  rw [task_setTask]
  split
  next same => rw [same, before]; rfl
  · rfl

theorem vmPagesCaptureKernel_spec {maxPages : Nat} {got : Option (List Frame)} (ok : VmOk s held)
    (run : vmPagesCaptureKernel src size maxPages s = (.ok got, s')) :
    VmOk s' ((got.getD [] : Multiset Frame) + held) := by
  have nothing : VmOk s ((([] : List Frame) : Multiset Frame) + held) := by
    rw [coe_nil, zero_add]
    exact ok
  unfold vmPagesCaptureKernel at run
  split at run
  · cases run
    exact nothing
  · exact captureKernel_spec nothing run

theorem vmPagesCaptureKernel_tidy (src size maxPages : Nat) :
    (vmPagesCaptureKernel src size maxPages).Keeps (Tidy R) := by
  unfold vmPagesCaptureKernel
  dsimp only
  split
  · exact .pure _
  · exact captureKernel_tidy _ _ _ _ _

theorem World.Does.sound {c : VmCall} (sound : w.Sound R) (fits : w.Fits c) (does : w.Does c w') :
    w'.Sound R := by
  obtain ⟨ok, tidy⟩ := sound
  cases does with
  | event step => exact ⟨(step.simulates ok).1, step.tidy tidy⟩
  | create fresh => exact ⟨vmOk_create ok fresh, tidy.setTask VmMap.tidy_default.fresh⟩
  | image resident run => exact ⟨(vmMapImage_spec ok resident run).1, vmMapImage_tidy.ok tidy run⟩
  | @allocate t size prot result s run =>
    have ranges := ok.ranges t
    have map := tidy.maps t
    have word : size < 2 ^ 64 := by
      have fits : max _ _ + vmAlignUp size < 2 ^ 64 := fits
      unfold vmAlignUp vmPageSize at fits
      omega
    exact ⟨(syscallVmAllocate_spec ok word (fun _ =>
      Word.vmSpace_hole (map.wellFormed ranges) map.hint (map.roomy fits)) run).1,
      syscallVmAllocate_tidy tidy ranges fits run⟩
  | @captured src size maxPages id frames s fresh run =>
    refine ⟨?_, ?_⟩
    · have ok' := vmPagesCaptureKernel_spec ok run
      change VmOk s _
      have more : World.carried ⟨s, w.flight.insert id frames⟩ =
          (frames : Multiset Frame) + w.carried :=
        Table.total_insert_of_none fresh
      rw [more]
      exact ok'
    · exact (vmPagesCaptureKernel_tidy _ _ _).ok tidy run
  | @refused src size maxPages id s run =>
  refine ⟨?_, ?_⟩
  · have ok' := vmPagesCaptureKernel_spec ok run
    rw [getD_none, coe_nil, zero_add] at ok'
    exact ok'
  · exact (vmPagesCaptureKernel_tidy _ _ _).ok tidy run

theorem World.Reaches.sound (run : World.Reaches World.Fits w₀ w) (sound : w₀.Sound R) :
    w.Sound R := by
  induction run with
  | start => exact sound
  | call earlier meets does ih => exact does.sound ih meets

theorem World.Booted.first (booted : w.Booted) (t : Nat) :
    World.Sound (fun f => w.mem.pmm.used f = true)
      { w with mem := w.mem.setTask t (freshTask default) } := by
  refine World.Does.sound (c := .create t) booted.sound trivial (.create ?_)
  rw [booted.tasks]
  rfl

/-! ### Counting the owners -/

/-- How many leaves map a frame under an entry that owns what it maps. -/
def Memory.ownedLeaves (s : Memory) (f : Frame) : Nat :=
  s.tasks.total fun _ task => task.tPmap.total fun va l =>
    if l.pa = f ∧ (vmMapLookup task.tMap.vmHead va).any (fun e => e.vmeFlags.anon) = true then 1
      else 0

/-- Those leaves, and the payloads in flight. -/
def World.owners (w : World) (f : Frame) : Nat :=
  w.mem.ownedLeaves f + w.flight.total fun _ (frames : List Frame) => frames.count f

theorem Memory.ownedLeaves_eq (own : ∀ t va l, s.leaf t va = some l → l.pa = f →
    (vmMapLookup (s.entries t) va).any (fun e => e.vmeFlags.anon) = true) :
    s.ownedLeaves f = s.mapped.count f := by
  unfold Memory.ownedLeaves Memory.mapped
  rw [Table.count_total]
  refine Table.total_congr fun t task here => ?_
  unfold Task.frames
  rw [Table.count_total]
  refine Table.total_congr fun va l present => ?_
  have point : s.task t = task := by
    unfold Memory.task
    rw [here]
    rfl
  have leaf : s.leaf t va = some l := by
    unfold Memory.leaf
    rw [point]
    exact present
  rw [count_singleton]
  by_cases same : l.pa = f
  · have owned := own t va l leaf same
    unfold Memory.entries at owned
    rw [point] at owned
    rw [if_pos ⟨same, owned⟩, if_pos same.symm]
  · rw [if_neg fun both => same both.1, if_neg fun eq => same eq.symm]

theorem World.Ok.refs_eq (ok : w.Ok) (handed : ¬ w.mem.Reserved f) :
    w.mem.pmm.refs f = w.owners f := by
  have flight : (w.flight.total fun _ (frames : List Frame) => frames.count f) =
      w.carried.count f := by
    unfold World.carried
    rw [Table.count_total]
    exact Table.total_congr fun _ frames _ => (coe_count f frames).symm
  unfold World.owners
  rw [flight]
  by_cases live : w.mem.pmm.refs f = 0
  · -- nobody owns a free frame
    have free : w.mem.pmm.used f = false := by
      rw [Bool.eq_false_iff]
      exact fun used => handed ⟨used, live⟩
    obtain ⟨unheld, unmapped⟩ := ok.toOwned.free_unowned free
    rw [ownedLeaves_eq fun t va l present same => absurd same (unmapped t va l present), live,
      count_eq_zero_of_notMem unheld, count_eq_zero_of_notMem]
    intro member
    obtain ⟨t, va, l, present, same⟩ := exists_of_mem_mapped member
    exact unmapped t va l present same
  rw [ownedLeaves_eq, ok.counted f live, count_add]
  -- a leaf under a borrowed range would be of a frame with no count
  rintro t va l present rfl
  obtain ⟨e, backed⟩ := ok.backed t va l present
  rw [backed.found, any_some]
  by_contra kernel
  exact live (backed.borrowed (Bool.eq_false_iff.mpr kernel)).1

/-- Frames are owned exactly. In every state reached from boot by calls whose sizes do not wrap, a
frame not in use at boot has the count of its owners, and is in use exactly while it has any; a
frame of the kernel stays in use and is never counted; and when every task and every message is
gone, every frame handed out is free. -/
theorem frames_owned_exactly (w₀ w : World) (booted : w₀.Booted)
    (run : World.Reaches World.Fits w₀ w) :
    (∀ f, w₀.mem.pmm.used f = false → w.mem.pmm.refs f = w.owners f ∧
      (w.mem.pmm.used f = true ↔ w.owners f ≠ 0)) ∧
    (∀ f, w₀.mem.pmm.used f = true → w.mem.pmm.used f = true ∧ w.mem.pmm.refs f = 0) ∧
    ((∀ t, w.mem.tasks.lookup t = none) → (∀ id, w.flight.lookup id = none) →
      ∀ f, w₀.mem.pmm.used f = false → w.mem.pmm.used f = false) := by
  obtain ⟨ok, tidy⟩ := run.sound booted.sound
  have handed : ∀ f, w₀.mem.pmm.used f = false → ¬ w.mem.Reserved f := by
    intro f free reserved
    rw [(tidy.reserved f).mp reserved] at free
    cases free
  have precise : ∀ f, w₀.mem.pmm.used f = false → w.mem.pmm.refs f = w.owners f ∧
      (w.mem.pmm.used f = true ↔ w.owners f ≠ 0) := by
    intro f free
    have count := ok.refs_eq (handed f free)
    refine ⟨count, fun used => ?_, fun nonzero => ok.busy f (count ▸ nonzero)⟩
    rw [← count]
    exact fun zero => handed f free ⟨used, zero⟩
  refine ⟨precise, fun f kernel => (tidy.reserved f).mpr kernel, fun tasks messages f free => ?_⟩
  have none : w.owners f = 0 := by
    unfold World.owners Memory.ownedLeaves
    rw [Table.total_of_absent tasks, Table.total_of_absent messages, add_zero]
  rw [Bool.eq_false_iff]
  exact fun used => (precise f free).2.mp used none

/-! ### A run that wraps -/

/-- Three frames, the first of them the kernel's. -/
def bootWorld : World where
  mem :=
    { pmm := { managed := 3, used := fun f => f == 0, refs := fun _ => 0, hint := 1 }
      ram := fun _ _ => 7
      tasks := ∅
      objects := fun _ _ => 0
      refuse := [] }
  flight := ∅

theorem bootWorld_booted : bootWorld.Booted := ⟨rfl, rfl, fun _ => rfl⟩

/-- One page of data, out of the kernel's frame. -/
def dataSegment : Segment where
  segVa := 0x40000000
  vmsize := 0x1000
  filesize := 16
  bytes := 0x10
  prot := { read := true, write := true, exec := false, user := true }
  segVaWord := by decide
  filesizeWord := by decide

def dataMemory : Memory :=
  (vmMapImage 1 dataSegment (bootWorld.mem.setTask 1 (freshTask default))).2

theorem dataMemory_reached (fits : World → VmCall → Prop)
    (every : ∀ w c, (∀ t size prot, c ≠ .allocate t size prot) → fits w c) :
    World.Reaches fits bootWorld ⟨dataMemory, ∅⟩ := by
  have made : World.Reaches fits bootWorld ⟨bootWorld.mem.setTask 1 (freshTask default), ∅⟩ :=
    .call .start (every _ (.create 1) nofun) (.create rfl)
  refine .call made (every _ (.image 1 dataSegment) nofun)
    (.image (fun k inside => ?_) (run_eq (a := VmImage.ok) (by decide +kernel)))
  have frame : (0x10 + k) / vmPageSize = 0 := by
    have inside : k < 16 := inside
    unfold vmPageSize
    omega
  change (((0x10 + k) / vmPageSize) == 0) = true ∧ _
  rw [frame]
  exact ⟨rfl, rfl⟩

theorem frames_owned_exactly_small : ∃ w, bootWorld.Booted ∧ World.Reaches World.Fits bootWorld w ∧
    (∀ f, bootWorld.mem.pmm.used f = false → w.mem.pmm.refs f = w.owners f ∧
      (w.mem.pmm.used f = true ↔ w.owners f ≠ 0)) := by
  have run := dataMemory_reached World.Fits fun w c other => by
    cases c with
    | allocate t size prot => exact absurd rfl (other t size prot)
    | _ => trivial
  have does : World.Does ⟨dataMemory, ∅⟩ (.allocate 1 100 ⟨true, true, false, true⟩)
      ⟨(syscallVmAllocate 1 100 ⟨true, true, false, true⟩ dataMemory).2, ∅⟩ :=
    .allocate (run_eq (a := Except.ok 0x40001000) (by decide +kernel))
  have more := World.Reaches.call run (show max _ _ + vmAlignUp 100 < 2 ^ 64 by decide +kernel) does
  exact ⟨_, bootWorld_booted, more, (frames_owned_exactly _ _ bootWorld_booted more).1⟩

/-- The same task asks for a page less than the whole address space. -/
def wrappedMemory : Memory :=
  (syscallVmAllocate 1 0xFFFFFFFFFFFFF000 ⟨true, true, false, true⟩ dataMemory).2

def leakedMemory : Memory := (taskDestroy 1 wrappedMemory).2

/-- The page of the image is mapped over and then removed: its frame keeps a count that nobody
owns, and is still in use when the task is gone. -/
theorem frames_leak_on_wrap : bootWorld.Booted ∧
    World.Reaches (fun _ _ => True) bootWorld ⟨leakedMemory, ∅⟩ ∧ bootWorld.mem.pmm.used 1 = false ∧
    leakedMemory.tasks.keys = [] ∧ leakedMemory.pmm.refs 1 = 1 ∧
      World.owners ⟨leakedMemory, ∅⟩ 1 = 0 ∧
    leakedMemory.pmm.used 1 = true := by
  have run := dataMemory_reached (fun _ _ => True) fun _ _ _ => trivial
  have wrapped : World.Reaches (fun _ _ => True) bootWorld ⟨wrappedMemory, ∅⟩ :=
    .call run trivial (.allocate (run_eq (a := Except.error SysE.nomem) (by decide +kernel)))
  have leaked : World.Reaches (fun _ _ => True) bootWorld ⟨leakedMemory, ∅⟩ :=
    .call wrapped trivial (.event (.exit (run_eq (by decide +kernel))))
  exact ⟨bootWorld_booted,
    leaked, by decide, by decide +kernel, by decide +kernel, by decide +kernel, by decide +kernel⟩

end Style9.Vm
