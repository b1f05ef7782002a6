import Style9.Vm.Fork
import Style9.Vm.Landing

/-!
# Address spaces are isolated

The tasks and the messages in flight, step by step, and what they are for: every task has a memory
of its own and every message a copy of some bytes. Each step of the one is the step of the other
with the same name, so sharing frames, clearing write bits, copying and stealing pages cannot be
told from copying all along.
-/
namespace Style9.Vm

open Style9.Lib Function Memory List Act Option Nat

/-- Memory, and the frames of the payloads in flight. -/
structure World where
  mem : Memory
  flight : Table Nat (List Frame)

/-- A call and how it ended. -/
inductive Event where
  | fork (parent child : Nat) (done : Bool)
  | fault (t va : Nat) (write : Bool) (result : VmFault)
  | store (t va : Nat) (byte : Byte) (landed : Bool)
  | capture (t addr size maxPages id : Nat) (done : Bool)
  | install (t id : Nat) (landing : Option Nat)
  | drop (id : Nat)
  | release (t va size : Nat) (done : Bool)
  | releaseAnon (t : Nat) (under : Nat → Option (Option Byte))
  | exit (t : Nat)

/-- The map of a task just made: the window of the task it is made for, with nothing in it. -/
def freshTask (m : VmMap) : Task :=
  { tMap := { m with vmHint := m.vmLo, vmHead := [] }, tPmap := ∅ }

/-- Fork as the system call does it: a child that cannot be completed is taken down again. -/
def forkTask (parent child : Nat) : Op Bool := do
  Act.modify fun s => s.setTask child (freshTask (s.task parent).tMap)
  if ← vmMapForkShare parent child then pure true
  else do
    taskDestroy child
    pure false

/-- One call, run to its end. A call that stops the machine is no step. -/
inductive World.Step : World → Event → World → Prop
  | fork {w : World} {parent child : Nat} {done : Bool} {s : Memory}
      (apart : parent ≠ child) (fresh : w.mem.tasks.lookup child = none)
      (run : forkTask parent child w.mem = (.ok done, s)) :
      Step w (.fork parent child done) { w with mem := s }
  | fault {w : World} {t va : Nat} {write : Bool} {result : VmFault} {s : Memory}
      (run : vmFault t va write w.mem = (.ok result, s)) :
      Step w (.fault t va write result) { w with mem := s }
  | store {w : World} {t va : Nat} {byte : Byte} {landed : Bool} {s : Memory}
      (run : userStore t va byte w.mem = (.ok landed, s)) :
      Step w (.store t va byte landed) { w with mem := s }
  | captured {w : World} {t addr size maxPages id : Nat} {frames : List Frame} {s : Memory}
      (fresh : w.flight.lookup id = none)
      (run : vmPagesCaptureUser t addr size maxPages w.mem = (.ok (some frames), s)) :
      Step w (.capture t addr size maxPages id true) ⟨s, w.flight.insert id frames⟩
  | refused {w : World} {t addr size maxPages id : Nat} {s : Memory}
      (run : vmPagesCaptureUser t addr size maxPages w.mem = (.ok none, s)) :
      Step w (.capture t addr size maxPages id false) { w with mem := s }
  | landed {w : World} {t id landing : Nat} {frames : List Frame} {s : Memory}
      (carried : w.flight.lookup id = some frames)
      (run : vmPagesInstall t frames w.mem = (.ok (some landing), s)) :
      Step w (.install t id (some landing)) ⟨s, w.flight.erase id⟩
  | returned {w : World} {t id : Nat} {frames : List Frame} {s : Memory}
      (carried : w.flight.lookup id = some frames)
      (run : vmPagesInstall t frames w.mem = (.ok none, s)) :
      Step w (.install t id none) { w with mem := s }
  | drop {w : World} {id : Nat} {frames : List Frame} {s : Memory}
      (carried : w.flight.lookup id = some frames)
      (run : vmPagesRelease (frames.map some) w.mem = (.ok (), s)) :
      Step w (.drop id) ⟨s, w.flight.erase id⟩
  | release {w : World} {t va size : Nat} {done : Bool} {s : Memory}
      (run : vmMapRelease t va size w.mem = (.ok done, s)) :
      Step w (.release t va size done) { w with mem := s }
  | releaseAnon {w : World} {t : Nat} {s : Memory}
      (run : vmMapReleaseAnon t w.mem = (.ok (), s)) :
        Step w (.releaseAnon t (w.mem.under t)) { w with mem := s }
  | exit {w : World} {t : Nat} {s : Memory}
      (run : taskDestroy t w.mem = (.ok (), s)) : Step w (.exit t) { w with mem := s }

/-- A run: calls of any tasks, one after another. -/
inductive World.Run : World → List Event → World → Prop
  | nil (w : World) : Run w [] w
  | cons {w w₁ w' : World} {event : Event} {rest : List Event}
      (step : w.Step event w₁) (later : Run w₁ rest w') : Run w (event :: rest) w'

/-! ### Independent memories -/

/-- A memory for each task, and the bytes of each message. -/
@[ext] structure Memories where
  mem : Nat → Nat → Option Byte
  flight : Nat → Option (List Byte)

/-- What each call does to independent memories. -/
inductive Memories.Step : Memories → Event → Memories → Prop
  | fork {a : Memories} {parent child : Nat} :
      Step a (.fork parent child true) { a with mem := update a.mem child (a.mem parent) }
  | forkFailed {a : Memories} {parent child : Nat} : Step a (.fork parent child false) a
  | fault {a : Memories} {t va : Nat} {write : Bool} {result : VmFault} :
      Step a (.fault t va write result) a
  | store {a : Memories} {t va : Nat} {byte : Byte} (there : (a.mem t va).isSome = true) :
      Step a (.store t va byte true)
        { a with mem := update a.mem t (update (a.mem t) va (some byte)) }
  | storeFaulted {a : Memories} {t va : Nat} {byte : Byte} : Step a (.store t va byte false) a
  | capture {a : Memories} {t addr size maxPages id : Nat} {bytes : List Byte}
      (length : bytes.length = size)
      (read : ∀ i b, bytes[i]? = some b → a.mem t (addr + i) = some b) :
      Step a (.capture t addr size maxPages id true)
        ⟨a.mem, update a.flight id (some (bytes ++ replicate (vmAlignUp size - size) 0))⟩
  | captureFailed {a : Memories} {t addr size maxPages id : Nat} :
      Step a (.capture t addr size maxPages id false) a
  | install {a : Memories} {t id landing : Nat} {bytes : List Byte}
      (carried : a.flight id = some bytes)
      (free : ∀ i < bytes.length, a.mem t (landing + i) = none) :
      Step a (.install t id (some landing))
        ⟨update a.mem t fun va => if landing ≤ va ∧ va < landing + bytes.length then
            bytes[va - landing]? else a.mem t va,
          update a.flight id none⟩
  | installFailed {a : Memories} {t id : Nat} : Step a (.install t id none) a
  | drop {a : Memories} {id : Nat} :
      Step a (.drop id) { a with flight := update a.flight id none }
  | release {a : Memories} {t va size : Nat} :
      Step a (.release t va size true)
        { a with mem := update a.mem t (without (a.mem t) va (va + size)) }
  | releaseFailed {a : Memories} {t va size : Nat} : Step a (.release t va size false) a
  | releaseAnon {a : Memories} {t : Nat} {under : Nat → Option (Option Byte)} :
      Step a (.releaseAnon t under) { a with mem := update a.mem t (uncovered under (a.mem t)) }
  | exit {a : Memories} {t : Nat} :
      Step a (.exit t) { a with mem := update a.mem t fun _ => none }

inductive Memories.Run : Memories → List Event → Memories → Prop
  | nil (a : Memories) : Run a [] a
  | cons {a a₁ a' : Memories} {event : Event} {rest : List Event}
      (step : a.Step event a₁) (later : Run a₁ rest a') : Run a (event :: rest) a'

/-! ### The one seen as the other -/

def Memory.bytes (s : Memory) (frames : List Frame) : List Byte :=
  frames.flatMap fun f => (range vmPageSize).map (s.ram f)

def World.carried (w : World) : Multiset Frame := 
  w.flight.total fun _ (frames : List Frame) => (frames : Multiset Frame)

/-- Every owner count is the number of leaves and messages that own the frame, and the write bit
is with sole owners. -/
def World.Ok (w : World) : Prop := VmOk w.mem w.carried

/-- What the tasks and the messages hold. -/
def World.memories (w : World) : Memories :=
  ⟨w.mem.view, fun id => (w.flight.lookup id).map w.mem.bytes⟩

section

variable {w w' : World} {s s' : Memory} {t va id child : Nat} {held : Multiset Frame}
  {frames : List Frame}
  {mem : Nat → Option Byte}

@[simp] theorem Memory.bytes_nil (s : Memory) : s.bytes [] = [] := rfl

theorem Memory.bytes_length (s : Memory) (frames : List Frame) :
    (s.bytes frames).length = frames.length * vmPageSize := by
  induction frames with
  | nil => simp
  | cons f rest ih =>
    unfold Memory.bytes at ih ⊢
    rw [flatMap_cons, length_append, ih, length_map, length_range, length_cons, succ_mul, add_comm]

theorem Memory.bytes_get (s : Memory) (frames : List Frame) (i : Nat) :
    (s.bytes frames)[i]? = (frames[i / vmPageSize]?).map fun f => s.ram f (i % vmPageSize) := by
  induction frames generalizing i with
  | nil => simp
  | cons f rest ih =>
  unfold Memory.bytes at ih ⊢
  rw [flatMap_cons]
  have length : ((range vmPageSize).map (s.ram f)).length = vmPageSize := by simp
  by_cases first : i < vmPageSize
  · rw [getElem?_append_left (by rw [length]; exact first), div_eq_of_lt first,
      mod_eq_of_lt first, getElem?_map, getElem?_range first, map_some,
      getElem?_cons_zero, map_some]
  rw [getElem?_append_right (by rw [length]; omega), length, ih]
  have down : i / vmPageSize = (i - vmPageSize) / vmPageSize + 1 := by
    unfold vmPageSize at *
    omega
  have same : (i - vmPageSize) % vmPageSize = i % vmPageSize := by
    unfold vmPageSize at *
    omega
  rw [down, same, getElem?_cons_succ]

theorem Memory.bytes_congr (same : ∀ f ∈ frames, s'.ram f = s.ram f) :
    s'.bytes frames = s.bytes frames := by
  refine flatMap_congr fun f member => ?_
  rw [same f member]

theorem World.mem_carried (carried : w.flight.lookup id = some frames) :
    ∀ f ∈ frames, f ∈ w.carried := by
  intro f member
  unfold World.carried
  rw [← Table.total_erase_add carried]
  exact Multiset.mem_add.mpr (.inr (Multiset.mem_coe.mpr member))

theorem World.flight_congr (same : ∀ f ∈ w.carried, s'.ram f = w.mem.ram f) (id : Nat) :
    (w.flight.lookup id).map s'.bytes = (w.flight.lookup id).map w.mem.bytes := by
  cases carried : w.flight.lookup id with
  | none => simp only [map_none]
  | some frames =>
    rw [map_some, map_some, bytes_congr fun f member => same f (World.mem_carried carried f member)]

theorem World.memories_of_quiet (quiet : Quiet w.carried w.mem s') :
    World.memories { w with mem := s' } = w.memories := by
  rw [Memories.mk.injEq]
  exact ⟨funext fun t => funext fun va => quiet.view t va,
    funext fun id => World.flight_congr quiet.ram id⟩

theorem World.memories_of_becomes (becomes : Becomes w.carried t mem w.mem s') :
    World.memories { w with mem := s' } =
      ⟨update w.mem.view t mem, fun id => (w.flight.lookup id).map w.mem.bytes⟩ := by
  rw [Memories.mk.injEq]
  refine ⟨funext fun x => ?_, funext fun id => World.flight_congr becomes.ram id⟩
  by_cases here : x = t
  · rw [here, update_self]
    exact funext becomes.mine
  · rw [update_of_ne here]
    exact funext (becomes.others x here)

/-! ### Stores and forks -/

theorem userStore_spec {byte : Byte} {landed : Bool} (ok : VmOk s held)
    (run : userStore t va byte s = (.ok landed, s')) : VmOk s' held ∧
      if landed then (s.view t va).isSome = true ∧
        Becomes held t (update (s.view t) va (some byte)) s s' else Quiet held s s' := by
  unfold userStore at run
  rw [read_bind] at run
  cases present : s.leaf t (vmAlignDown va) with
  | none =>
    rw [present] at run
    cases run
    exact ⟨ok, .refl held _⟩
  | some l =>
  rw [present] at run
  dsimp only at run
  split at run
  next allowed =>
    rw [modify_bind] at run
    cases run
    rw [if_pos rfl]
    have write : l.prot.write = true := by
      simp only [Bool.and_eq_true] at allowed
      exact allowed.1
    obtain ⟨unheld, only⟩ := ok.alone present write
    have there : (s.leaf t (vmAlignDown va)).isSome = true := by rw [present]; rfl
    refine ⟨ok.fill _ _, by rw [ok.view_loaded there]; rfl, fun f member => ?_, fun x other a => ?_,
      fun a => ?_⟩
    · rw [ram_fill, if_neg fun same : f = l.pa => unheld (same ▸ member)]
    · refine view_congr rfl rfl (fun l' found => ?_) rfl
      rw [ram_fill, if_neg fun same => other (only x _ l' found same).1]
    by_cases page : vmAlignDown a = vmAlignDown va
    · obtain ⟨e, backed⟩ := ok.backed t _ l present
      have found : vmMapLookup (s.entries t) a = some e := by
        rw [← vmMapLookup_page (ok.ranges t), page, backed.found]
      have here : s.leaf t (vmAlignDown a) = some l := by rw [page, present]
      generalize stored : update (s.ram l.pa) (va % vmPageSize) byte = bytes
      have now : (s.fill l.pa bytes).view t a = some (bytes (a % vmPageSize)) := by
        rw [view_present (e := e) (l := l) (by rw [entries_fill, found])
          (by rw [leaf_fill, here]), ram_fill, if_pos rfl]
      rw [now, ← stored]
      have first := vmAlignDown_add a
      have second := vmAlignDown_add va
      by_cases same : a = va
      · rw [same, update_self, update_self]
      · rw [update_of_ne same, update_of_ne (by omega), view_present found here]
    · rw [update_of_ne fun same => page (by rw [same])]
      refine view_congr rfl rfl (fun l' found => ?_) rfl
      rw [ram_fill, if_neg fun same => page (only t _ l' found same).2]
  · cases run
    exact ⟨ok, .refl held _⟩

theorem VmOk.freshTask (ok : VmOk s held) (fresh : s.tasks.lookup child = none) (m : VmMap) :
    VmOk (s.setTask child (freshTask m)) held ∧ Quiet held s (s.setTask child (Vm.freshTask m)) ∧
      (s.setTask child (Vm.freshTask m)).entries child = [] := by
  have absent : s.task child = default := by
    unfold Memory.task
    rw [fresh]
    rfl
  have leaf : ∀ x page, (s.setTask child (Vm.freshTask m)).leaf x page = s.leaf x page := by
    intro x page
    unfold Memory.leaf
    rw [task_setTask]
    split
    next same =>
      rw [same, absent]
      rfl
    · rfl
  have entries : ∀ x, (s.setTask child (Vm.freshTask m)).entries x = s.entries x := by
    intro x
    unfold Memory.entries
    rw [task_setTask]
    split
    next same =>
      rw [same, absent]
      rfl
    · rfl
  refine ⟨ok.congr rfl (mapped_of_frames (by rw [absent]; rfl)) leaf entries,
    ⟨fun x va => ?_, fun _ _ => rfl, fun x page here => by rwa [leaf], fun _ _ one => one⟩, ?_⟩
  · exact view_congr (entries x) (leaf x _) (fun _ _ => rfl) rfl
  rw [entries]
  unfold Memory.entries
  rw [absent]
  rfl

theorem forkTask_spec {parent : Nat} {done : Bool} (ok : VmOk s held) (apart : parent ≠ child)
    (fresh : s.tasks.lookup child = none) (run : forkTask parent child s = (.ok done, s')) :
    VmOk s' held ∧ Becomes held child (if done then s.view parent else fun _ => none) s s' := by
  unfold forkTask at run
  rw [modify_bind] at run
  obtain ⟨ok₁, quiet₁, empty⟩ := ok.freshTask fresh (s.task parent).tMap
  obtain ⟨b, s₂, share, run⟩ := bind_ok run
  obtain ⟨ok₂, kept, copied⟩ := vmMapForkShare_spec ok₁ apart empty share
  cases b with
  | true =>
    cases run
    rw [if_pos rfl]
    refine ⟨ok₂, fun f member => ?_, fun x other va => ?_, fun va => ?_⟩
    · rw [kept.ram f member, quiet₁.ram f member]
    · rw [kept.view x other, quiet₁.view]
    · rw [copied rfl va, quiet₁.view]
  | false =>
  obtain ⟨_, s₃, destroyed, run⟩ := bind_ok run
  cases run
  obtain ⟨ok₃, becomes⟩ := taskDestroy_spec ok₂ destroyed
  rw [if_neg Bool.false_ne_true]
  refine ⟨ok₃, fun f member => ?_, fun x other va => ?_, becomes.mine⟩
  · rw [becomes.ram f member, kept.ram f member, quiet₁.ram f member]
  · rw [becomes.others x other, kept.view x other, quiet₁.view]

/-! ### Messages -/

theorem vmAlignUp_div (size : Nat) : vmAlignUp size / vmPageSize * vmPageSize = vmAlignUp size := by
  unfold vmAlignUp vmPageSize
  omega

theorem le_vmAlignUp (size : Nat) : size ≤ vmAlignUp size := by
  unfold vmAlignUp vmPageSize
  omega

theorem Payload.bytes {addr size : Nat}
    (payload : Payload mem addr size s.ram frames)
    (count : frames.length = vmAlignUp size / vmPageSize) :
    ∃ bytes : List Byte, bytes.length = size ∧
      (∀ i b, bytes[i]? = some b → mem (addr + i) = some b) ∧
      s.bytes frames = bytes ++ replicate (vmAlignUp size - size) 0 := by
  have length : (s.bytes frames).length = vmAlignUp size := by
    rw [bytes_length, count, vmAlignUp_div]
  have up := le_vmAlignUp size
  -- byte `i` is byte `i % 4096` of page `i / 4096`
  have point : ∀ i b, (s.bytes frames)[i]? = some b → if i < size then mem (addr + i) = some b
      else b = 0 := by
    intro i b here
    rw [bytes_get] at here
    obtain ⟨f, frame, rfl⟩ := map_eq_some_iff.mp here
    have page := payload _ f frame (i % vmPageSize) (mod_lt_vmPageSize i)
    rwa [add_assoc, div_add_mod'] at page
  refine ⟨(s.bytes frames).take size, ?_, fun i b here => ?_, ?_⟩
  · rw [length_take, length]
    omega
  · rw [getElem?_take] at here
    split at here
    next small =>
      have := point i b here
      rwa [if_pos small] at this
    · cases here
  conv_lhs => rw [← take_append_drop size (s.bytes frames)]
  congr 1
  refine eq_replicate_iff.mpr ⟨by rw [length_drop, length], fun b member => ?_⟩
  obtain ⟨j, here⟩ := mem_iff_getElem?.mp member
  rw [getElem?_drop] at here
  have := point _ b here
  rwa [if_neg (by omega)] at this

theorem World.captured {addr size maxPages : Nat} (ok : w.Ok) (fresh : w.flight.lookup id = none)
    (run : vmPagesCaptureUser t addr size maxPages w.mem = (.ok (some frames), s)) :
    World.Ok ⟨s, w.flight.insert id frames⟩ ∧
      w.memories.Step (.capture t addr size maxPages id true)
        (World.memories ⟨s, w.flight.insert id frames⟩) := by
  obtain ⟨quiet, ok', count, payload⟩ := vmPagesCaptureUser_spec ok run
  obtain ⟨bytes, length, read, whole⟩ := payload.bytes count
  constructor
  · unfold World.Ok World.carried
    rw [Table.total_insert_of_none fresh]
    exact ok'
  have seen : World.memories ⟨s, w.flight.insert id frames⟩ =
    ⟨w.memories.mem, update w.memories.flight id
        (some (bytes ++ replicate (vmAlignUp size - size) 0))⟩ := by
    unfold World.memories
    rw [Memories.mk.injEq]
    refine ⟨funext fun x => funext fun va => quiet.view x va, funext fun j => ?_⟩
    by_cases here : j = id
    · rw [here, update_self, AList.lookup_insert, map_some, whole]
    · rw [update_of_ne here, AList.lookup_insert_ne here]
      exact World.flight_congr quiet.ram j
  rw [seen]
  exact .capture length read

theorem World.carried_erase (carried : w.flight.lookup id = some frames) :
    w.carried = (frames : Multiset Frame) + World.carried ⟨s, w.flight.erase id⟩ := by
  unfold World.carried
  rw [← Table.total_erase_add carried, add_comm]

theorem World.flight_erase
    (same : ∀ f ∈ World.carried ⟨s, w.flight.erase id⟩, s.ram f = w.mem.ram f) :
    (World.memories ⟨s, w.flight.erase id⟩).flight = update w.memories.flight id none := by
  funext j
  change ((w.flight.erase id).lookup j).map s.bytes = _
  by_cases here : j = id
  · rw [here, update_self, AList.lookup_erase, map_none]
  rw [update_of_ne here]
  have other := AList.lookup_erase_ne (s := w.flight) here
  change _ = (w.flight.lookup j).map w.mem.bytes
  rw [← other]
  exact World.flight_congr (w := ⟨w.mem, w.flight.erase id⟩) same j

theorem World.landed {landing : Nat} (ok : w.Ok) (carried : w.flight.lookup id = some frames)
    (run : vmPagesInstall t frames w.mem = (.ok (some landing), s)) :
    World.Ok ⟨s, w.flight.erase id⟩ ∧
      w.memories.Step (.install t id (some landing)) (World.memories ⟨s, w.flight.erase id⟩) := by
  have held : VmOk w.mem ((frames : Multiset Frame) + World.carried ⟨s, w.flight.erase id⟩) := by
    rw [← World.carried_erase carried]
    exact ok
  obtain ⟨ok', aligned, free, becomes⟩ := vmPagesInstall_spec held run
  refine ⟨ok', ?_⟩
  have message : w.memories.flight id = some (w.mem.bytes frames) := by
    change (w.flight.lookup id).map w.mem.bytes = _
    rw [carried, map_some]
  have length := w.mem.bytes_length frames
  have seen : World.memories ⟨s, w.flight.erase id⟩ =
      ⟨update w.memories.mem t fun va =>
          if landing ≤ va ∧ va < landing + (w.mem.bytes frames).length then
            (w.mem.bytes frames)[va - landing]? else w.memories.mem t va,
        update w.memories.flight id none⟩ := by
    refine Memories.ext (funext fun x => ?_) (World.flight_erase becomes.ram)
    change s.view x = _
    dsimp only
    by_cases here : x = t
    · rw [here, update_self]
      funext va
      rw [becomes.mine]
      unfold withPages
      rw [length_map, length, bytes_get, getElem?_map, Option.map_map]
      split
      next inside =>
        have same : (va - landing) % vmPageSize = va % vmPageSize := by
          unfold vmPageSize at aligned ⊢
          omega
        rw [same]
        rfl
      · rfl
    · rw [update_of_ne here]
      exact funext (becomes.others x here)
  rw [seen]
  refine .install message fun i small => free _ (le_add_right _ _) ?_
  rw [← length]
  exact Nat.add_lt_add_left small landing

/-! ### Steps and runs -/

theorem World.Step.simulates {event : Event} (ok : w.Ok) (step : w.Step event w') :
    w'.Ok ∧ w.memories.Step event w'.memories := by
  cases step with
  | @fork parent child done s apart fresh run =>
    obtain ⟨ok', becomes⟩ := forkTask_spec ok apart fresh run
    refine ⟨ok', ?_⟩
    rw [World.memories_of_becomes becomes]
    cases done with
    | true => exact .fork
    | false =>
    -- a child that was never there has no memory, before and after
    have none : w.mem.view child = fun _ => none := by
      funext va
      refine view_outside ?_
      unfold Memory.entries Memory.task
      rw [fresh]
      rfl
    rw [if_neg Bool.false_ne_true, ← none, update_eq_self]
    exact .forkFailed
  | fault run =>
    obtain ⟨ok', quiet, -⟩ := vmFault_quiet ok run
    rw [World.memories_of_quiet quiet]
    exact ⟨ok', .fault⟩
  | @store t va byte landed s run =>
    obtain ⟨ok', result⟩ := userStore_spec ok run
    refine ⟨ok', ?_⟩
    cases landed with
    | true =>
      rw [World.memories_of_becomes result.2]
      exact .store result.1
    | false =>
      rw [World.memories_of_quiet result]
      exact .storeFaulted
  | captured fresh run => exact World.captured ok fresh run
  | refused run =>
    obtain ⟨quiet, ok'⟩ := vmPagesCaptureUser_spec ok run
    rw [World.memories_of_quiet quiet]
    exact ⟨ok', .captureFailed⟩
  | landed carried run => exact World.landed ok carried run
  | @returned t id frames s carried run =>
    have held := World.carried_erase (s := s) carried
    have ok : VmOk w.mem w.carried := ok
    rw [held] at ok
    obtain ⟨ok', quiet⟩ := vmPagesInstall_spec ok run
    rw [← held] at ok' quiet
    rw [World.memories_of_quiet quiet]
    exact ⟨ok', .installFailed⟩
  | @drop id frames s carried run =>
    have held := World.carried_erase (s := s) carried
    have ok : VmOk w.mem w.carried := ok
    have framed : taken (frames.map some) = (frames : Multiset Frame) := by
      have := taken_append frames []
      rw [append_nil] at this
      exact this.trans (add_zero _)
    rw [held, ← framed] at ok
    obtain ⟨ok', quiet⟩ := vmPagesRelease_quiet ok run
    refine ⟨ok', ?_⟩
    have seen : World.memories ⟨s, w.flight.erase id⟩ =
        { w.memories with flight := update w.memories.flight id none } :=
      Memories.ext (funext fun x => funext fun va => quiet.view x va) (World.flight_erase quiet.ram)
    rw [seen]
    exact .drop
  | @release t va size done s run =>
    obtain ⟨ok', result⟩ := vmMapRelease_spec ok run
    refine ⟨ok', ?_⟩
    cases done with
    | true =>
      rw [World.memories_of_becomes result]
      exact .release
    | false =>
      rw [World.memories_of_quiet result]
      exact .releaseFailed
  | @releaseAnon t s run =>
    obtain ⟨ok', becomes⟩ := vmMapReleaseAnon_spec ok run
    refine ⟨ok', ?_⟩
    rw [World.memories_of_becomes becomes]
    exact .releaseAnon
  | exit run =>
    obtain ⟨ok', becomes⟩ := taskDestroy_spec ok run
    rw [World.memories_of_becomes becomes]
    exact ⟨ok', .exit⟩

/-- Address spaces are isolated: every run of calls is a run of independent memories, in which a
fork copies, a receive yields the bytes of the send and a store is seen by nobody else. -/
theorem address_spaces_isolated (w w' : World) (events : List Event) (ok : w.Ok)
    (run : w.Run events w') : w.memories.Run events w'.memories := by
  induction run with
  | nil w => exact .nil _
  | cons step later ih =>
    obtain ⟨ok₁, simulated⟩ := step.simulates ok
    exact .cons simulated (ih ok₁)

end

/-! ### A run -/

theorem World.ok_of_bare {w : World} (refs : ∀ f, w.mem.pmm.refs f = 0)
    (leaves : ∀ t va, w.mem.leaf t va = none) (ranges : ∀ t, Ranges (w.mem.entries t))
    (flight : w.flight = ∅) : w.Ok := by
  have none : w.carried = 0 := by
    unfold World.carried
    rw [flight]
    rfl
  unfold World.Ok
  rw [none]
  refine ⟨⟨?_, ?_, ?_, ranges, ?_, ?_⟩, ?_⟩
  · exact fun f live => absurd (refs f) live
  · exact fun f live => absurd (refs f) live
  · exact fun f member => absurd member (Multiset.notMem_zero f)
  all_goals
    intro t va l present
    rw [leaves] at present
    cases present

/-- Two pages of zero-fill memory. -/
def smallTask : Task where
  tMap :=
    { vmLo := 0x1000, vmHi := 0x10000, vmHint := 0x3000
      vmHead := [
        { vmeStart := 0x1000, vmeEnd := 0x3000, vmeOffset := 0, vmeObject := none
          vmeProt := { read := true, write := true, exec := false, user := true }
          vmeFlags := { anon := true, cow := false, lazy := true } }]
      floor := by decide, ceiling := by decide }
  tPmap := ∅

/-- Eight free frames and one task. -/
def smallWorld : World where
  mem :=
    { pmm := { managed := 8, used := fun _ => false, refs := fun _ => 0, hint := 0 }
      ram := fun _ _ => 0
      tasks := (∅ : Table Nat Task).insert 1 smallTask
      objects := fun _ _ => 0
      refuse := [] }
  flight := ∅

theorem smallWorld_ok : smallWorld.Ok := by
  have task : ∀ t, smallWorld.mem.task t = if t = 1 then smallTask else default := by
    intro t
    unfold Memory.task smallWorld
    split
    next here => rw [here]; rfl
    next other => rw [AList.lookup_insert_ne other]; rfl
  refine World.ok_of_bare (fun _ => rfl) (fun t va => ?_) (fun t => ?_) rfl
  · unfold Memory.leaf
    rw [task]
    split <;> rfl
  unfold Memory.entries
  rw [task]
  split
  · exact ⟨pairwise_singleton _ _, fun e member => by
      obtain rfl := mem_singleton.mp member
      exact ⟨by decide, by decide, by decide, fun _ => rfl, fun _ => rfl⟩⟩
  · exact .nil

/-- The task writes, forks, and writes again to its own copy; it sends the two pages, the child
receives them, and the task drops its own. -/
def smallEvents (under : Nat → Option (Option Byte)) : List Event :=
  [.fault 1 0x1000 true .ok, .store 1 0x1000 7 true, .fork 1 2 true, .store 1 0x1000 8 false,
    .fault 1 0x1000 true .ok, .store 1 0x1000 9 true, .capture 1 0x1000 5000 16 0 true,
    .install 2 0 (some 0x3000), .releaseAnon 1 under, .exit 1]

theorem address_spaces_isolated_small :
    ∃ under w', smallWorld.Ok ∧ smallWorld.Run (smallEvents under) w' ∧
    smallWorld.memories.Run (smallEvents under) w'.memories := by
  have run : ∃ under w', smallWorld.Run (smallEvents under) w' :=
    ⟨_, _, .cons (.fault (run_eq (by decide +kernel))) <| .cons
      (.store (run_eq (by decide +kernel))) <|
      .cons (.fork (by decide) (by decide +kernel) (run_eq (by decide +kernel))) <|
      .cons (.store (run_eq (by decide +kernel))) <| .cons (.fault (run_eq (by decide +kernel))) <|
      .cons (.store (run_eq (by decide +kernel))) <|
      .cons (.captured (by decide +kernel) (run_eq (a := some [1, 2]) (by decide +kernel))) <|
      .cons (.landed (show _ = some [1, 2] by decide +kernel) (run_eq (by decide +kernel))) <|
      .cons (.releaseAnon (run_eq (by decide +kernel))) <| .cons
        (.exit (run_eq (by decide +kernel))) <| .nil _⟩
  obtain ⟨under, w', run⟩ := run
  exact ⟨under, w', smallWorld_ok, run, address_spaces_isolated _ _ _ smallWorld_ok run⟩

end Style9.Vm
