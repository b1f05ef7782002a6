import Mathlib.Data.Fin.VecNotation
import Style9.Mach.Launchd

/-!
# Every instance is accounted for

A child that `progreg_spawn` returned is in the hand of the call that started it until it is
recorded in its cell or asked to terminate. A spawn belongs to its cell as long as nobody stopped or
unloaded that: the cell then waits for it, and no other spawn of it begins.
-/
namespace Style9.Mach.Launchd

open Style9.Lib List Multiset Nat Function Bool Finset

/-! ### What holds between the steps -/

/-- The spawn a call has under way, by its cell and how often that had been disowned. -/
def Stage.flight : Stage → Option (CellIndex × Nat)
  | .spawning idx begun => some (idx, begun)
  | .landed idx begun _ => some (idx, begun)
  | _ => none

/-- The child a call has in hand. -/
def Stage.carries : Stage → Option Nat
  | .landed _ _ child => child
  | .killing child _ => some child
  | _ => none

def hand (c : Call) : Multiset Nat := (c.stage.carries.toList : Multiset Nat)

structure CellOk (s : State) (i : CellIndex) : Prop where
  used : (s.cells i).lcTaskId ≠ 0 → (s.cells i).lcUsed = true
  starting : (s.cells i).lcSpawning = true → (s.cells i).lcTaskId = 0 ∧ (s.cells i).lcUsed = true
  running : (s.cells i).lcTaskId ∈ s.tasks → (s.cells i).lcTaskId ≠ 0 →
    (s.cells i).lcState = .running
  known : (s.cells i).lcTaskId ≠ 0 → ∃ child ∈ s.children,
    child.id = (s.cells i).lcTaskId ∧ child.cell = i ∧ child.begun = (s.cells i).disowned

/-- Every child is accounted for: it is dead, asked to terminate, in some call's hand, or in its
cell. -/
structure Accounted (s : State) (hands : Multiset Nat) : Prop where
  cell : ∀ i, CellOk s i
  child : ∀ child ∈ s.children, child.id ∈ s.tasks →
    child.id ∈ s.asked ∨ child.id ∈ hands ∨ (s.cells child.cell).lcTaskId = child.id
  fresh : ∀ child ∈ s.children, 0 < child.id ∧ child.id < s.nextTaskId
  distinct : (s.children.map Child.id).Nodup
  positive : 0 < s.nextTaskId

/-- A spawn under way belongs to its cell as long as that was not disowned. -/
structure Own (s : State) (c : Call) : Prop where
  flight : ∀ i begun, c.stage.flight = some (i, begun) →
    begun ≤ (s.cells i).disowned ∧ (begun = (s.cells i).disowned → (s.cells i).lcSpawning = true)
  landed : ∀ i begun id, c.stage = .landed i begun (some id) → ⟨id, i, begun⟩ ∈ s.children

/-- No two spawns of a cell are under way that began without a stop or an unload in between. -/
def Apart (c d : Call) : Prop :=
  ∀ i begun, c.stage.flight = some (i, begun) → d.stage.flight ≠ some (i, begun)

theorem Apart.symm {c d : Call} (apart : Apart c d) : Apart d c :=
  fun i begun theirs mine => apart i begun mine theirs

variable {s s' : State} {c d c' : Call} {i : CellIndex} {hands hands' : Multiset Nat} {cell : Cell}

/-! ### One cell changed -/

@[simp] theorem State.cells_setCell (s : State) (i j : CellIndex) (c : Cell) :
    (s.setCell i c).cells j = if j = i then c else s.cells j := update_apply ..

theorem CellOk.other {j : CellIndex} (ok : CellOk s j) (other : j ≠ i) :
    CellOk (s.setCell i cell) j := by
  have same : (s.setCell i cell).cells j = s.cells j := by simp [other]
  constructor <;> rw [same]
  · exact ok.used
  · exact ok.starting
  · exact ok.running
  · exact ok.known

/-- A cell may be left without a task if the one it had is dead or in someone's hand. -/
theorem Accounted.vacate (world : Accounted s hands) (task : cell.lcTaskId = 0)
    (used : cell.lcSpawning = true → cell.lcUsed = true)
    (lost : (s.cells i).lcTaskId ≠ 0 → (s.cells i).lcTaskId ∈ s.tasks →
      (s.cells i).lcTaskId ∈ hands')
    (more : hands ⊆ hands') : Accounted (s.setCell i cell) hands' where
  cell j := by
    by_cases here : j = i
    · have same : (s.setCell i cell).cells j = cell := by simp [here]
      constructor <;> rw [same]
      · exact fun there => absurd task there
      · exact fun starting => ⟨task, used starting⟩
      · exact fun _ there => absurd task there
      · exact fun there => absurd task there
    · exact (world.cell j).other here
  child child member alive := by
    rcases world.child child member alive with asked | held | recorded
    · exact .inl asked
    · exact .inr (.inl (more held))
    by_cases here : child.cell = i
    · -- the child whose cell is vacated
      rw [here] at recorded
      have positive := (world.fresh child member).1
      rw [← recorded] at alive positive
      rw [← recorded]
      exact .inr (.inl (lost (pos_iff_ne_zero.mp positive) alive))
    right
    right
    rw [State.cells_setCell, if_neg here]
    exact recorded
  fresh := world.fresh
  distinct := world.distinct
  positive := world.positive

variable (tasks : Finset Nat)

theorem Cell.refreshed_eq (c : Cell) : c.refreshed tasks = c ∨
    (c.lcTaskId ∉ tasks ∧ c.refreshed tasks = { c with lcState := .exited }) := by
  unfold refreshed
  split
  next gone => exact .inr ⟨gone.2.2, rfl⟩
  · exact .inl rfl

@[simp] theorem Cell.refreshed_taskId (c : Cell) : (c.refreshed tasks).lcTaskId = c.lcTaskId := by
  unfold refreshed
  split <;> rfl

@[simp] theorem Cell.refreshed_spawning (c : Cell) :
    (c.refreshed tasks).lcSpawning = c.lcSpawning := by
  unfold refreshed
  split <;> rfl

@[simp] theorem Cell.refreshed_used (c : Cell) : (c.refreshed tasks).lcUsed = c.lcUsed := by
  unfold refreshed
  split <;> rfl

@[simp] theorem Cell.refreshed_disowned (c : Cell) : (c.refreshed tasks).disowned = c.disowned := by
  unfold refreshed
  split <;> rfl

theorem Accounted.looked {cells : CellIndex → Cell} (world : Accounted s hands)
    (looked : ∀ i, cells i = s.cells i ∨ cells i = (s.cells i).refreshed s.tasks) :
    Accounted { s with cells := cells } hands where
  cell j := by
    have ok := world.cell j
    constructor <;> rcases looked j with same | same <;> simp only [same]
    · exact ok.used
    · rw [Cell.refreshed_taskId, Cell.refreshed_used]
      exact ok.used
    · exact ok.starting
    · rw [Cell.refreshed_spawning, Cell.refreshed_taskId, Cell.refreshed_used]
      exact ok.starting
    · exact ok.running
    · intro alive there
      rw [Cell.refreshed_taskId] at alive there
      rcases (s.cells j).refreshed_eq s.tasks with kept | ⟨gone, -⟩
      · rw [kept]
        exact ok.running alive there
      · exact absurd alive gone
    · exact ok.known
    · rw [Cell.refreshed_taskId, Cell.refreshed_disowned]
      exact ok.known
  child child member alive := by
    have task : (cells child.cell).lcTaskId = (s.cells child.cell).lcTaskId := by
      rcases looked child.cell with same | same
      · rw [same]
      · rw [same, Cell.refreshed_taskId]
    rw [task]
    exact world.child child member alive
  fresh := world.fresh
  distinct := world.distinct
  positive := world.positive

/-! ### The first critical section -/

/-- All that a call can do before it spawns, kills or returns: look; begin a spawn in a cell whose
task is gone and that has none under way; disown a cell, with its task in hand if that is alive;
leave a cell whose task is gone without one. -/
inductive Enters (s : State) : State → Stage → Prop
  | looks {cells : CellIndex → Cell} {stage : Stage} (flight : stage.flight = none)
      (carries : stage.carries = none)
      (looked : ∀ i, cells i = s.cells i ∨ cells i = (s.cells i).refreshed s.tasks) :
      Enters s { s with cells := cells } stage
  | begins {i : CellIndex} {cell : Cell} (idle : (s.cells i).lcSpawning = false)
      (gone : (s.cells i).lcTaskId ≠ 0 → (s.cells i).lcTaskId ∉ s.tasks) (used : cell.lcUsed = true)
      (same : cell.disowned = (s.cells i).disowned) :
        Enters s (s.setCell i cell.spawnBegin) (.spawning i (s.cells i).disowned)
  | disowns {i : CellIndex} {cell : Cell} {stage : Stage} (task : cell.lcTaskId = 0)
      (spawning : cell.lcSpawning = false)
      (more : cell.disowned = (s.cells i).disowned + 1) (flight : stage.flight = none)
      (kills : (s.cells i).lcTaskId ≠ 0 → (s.cells i).lcTaskId ∈ s.tasks →
        stage.carries = some (s.cells i).lcTaskId) :
      Enters s (s.setCell i cell) stage
  | drops {i : CellIndex} {cell : Cell} {reply : Option Reply}
      (idle : (s.cells i).lcSpawning = false)
      (gone : (s.cells i).lcTaskId ≠ 0 → (s.cells i).lcTaskId ∉ s.tasks) (task : cell.lcTaskId = 0)
      (spawning : cell.lcSpawning = false) (same : cell.disowned = (s.cells i).disowned) :
      Enters s (s.setCell i cell) (.done reply)

theorem Enters.nothing {reply : Option Reply} : Enters s s (.done reply) :=
  .looks rfl rfl fun _ => .inl rfl

theorem State.freeCell_unused (found : s.freeCell = some i) : (s.cells i).lcUsed = false := by
  simpa using find?_some found

theorem State.byName_used {name : Bytes} (found : s.byName name = some i) :
    (s.cells i).lcUsed = true := by
  have here := find?_some found
  exact (and_eq_true_iff.mp here).1

theorem CellOk.unused (ok : CellOk s i) (free : (s.cells i).lcUsed = false) :
    (s.cells i).lcTaskId = 0 ∧ (s.cells i).lcSpawning = false := by
  constructor
  · by_contra there
    rw [ok.used there] at free
    cases free
  · by_contra spawning
    rw [(ok.starting (eq_true_of_not_eq_false spawning)).2] at free
    cases free

theorem CellOk.gone (ok : CellOk s i) (other : ((s.cells i).refreshed s.tasks).lcState ≠ .running) :
    (s.cells i).lcTaskId ≠ 0 → (s.cells i).lcTaskId ∉ s.tasks := by
  intro there alive
  rcases (s.cells i).refreshed_eq s.tasks with kept | ⟨gone, -⟩
  · rw [kept] at other
    exact other (ok.running alive there)
  · exact gone alive

theorem killRunning_flight (c : Cell) (reply : Reply) : (killRunning c reply).flight = none := by
  unfold killRunning
  split <;> rfl

theorem killRunning_carries {c : Cell} (reply : Reply) (running : c.lcState = .running)
    (there : c.lcTaskId ≠ 0) :
    (killRunning c reply).carries = some c.lcTaskId := by
  rw [killRunning, if_pos ⟨running, there⟩]
  rfl

section

variable (ok : ∀ i, CellOk s i)
include ok

theorem opLoad_enters (name program : Bytes) (keepalive : Bool) :
    Enters s (opLoad s name program keepalive).1 (opLoad s name program keepalive).2 := by
  unfold opLoad
  split
  · exact .nothing
  split
  · exact .nothing
  · exact .nothing
  next i _ free =>
    obtain ⟨task, idle⟩ := (ok i).unused (State.freeCell_unused free)
    exact .begins idle (fun there => absurd task there) rfl rfl

theorem launchdBootLoad_enters (name program : Bytes) (keepalive runatload : Bool) :
    Enters s (launchdBootLoad s name program keepalive runatload).1
      (launchdBootLoad s name program keepalive runatload).2 := by
  unfold launchdBootLoad
  split
  · exact .nothing
  next i free =>
  obtain ⟨task, idle⟩ := (ok i).unused (State.freeCell_unused free)
  split
  · exact .begins idle (fun there => absurd task there) rfl rfl
  · exact .drops idle (fun there => absurd task there) rfl idle rfl

theorem opUnload_enters (name : Bytes) : Enters s (opUnload s name).1 (opUnload s name).2 := by
  unfold opUnload
  split
  · exact .nothing
  split
  · exact .nothing
  next i _ =>
    exact .disowns rfl rfl rfl (killRunning_flight _ _) fun there alive =>
      killRunning_carries _ ((ok i).running alive there) there

theorem opStop_enters (name : Bytes) : Enters s (opStop s name).1 (opStop s name).2 := by
  unfold opStop
  split
  · exact .nothing
  split
  · exact .nothing
  next i _ =>
  refine .disowns rfl rfl (by simp [Cell.disown]) (killRunning_flight _ _) fun there alive => ?_
  -- a task that is alive leaves the state as it was
  rcases (s.cells i).refreshed_eq s.tasks with kept | ⟨gone, -⟩
  · rw [kept]
    exact killRunning_carries _ ((ok i).running alive there) there
  · exact absurd alive gone

theorem opStart_enters (name : Bytes) : Enters s (opStart s name).1 (opStart s name).2 := by
  unfold opStart
  split
  · exact .nothing
  split
  · exact .nothing
  next i found =>
  dsimp only
  split
  · refine .looks rfl rfl fun j => ?_
    by_cases here : j = i
    · right
      rw [here, update_self]
    · left
      exact update_of_ne here ..
  next rests =>
  obtain ⟨idle, other⟩ := not_or.mp rests
  rw [Cell.refreshed_spawning] at idle
  rw [Cell.refreshed_disowned]
  exact .begins (eq_false_of_not_eq_true idle) ((ok i).gone other)
    ((Cell.refreshed_used ..).trans (State.byName_used found)) rfl

end

theorem handleDeath_enters (now idx : Nat) :
    Enters s (handleDeath s now idx).1 (handleDeath s now idx).2 := by
  unfold handleDeath
  split
  next inside =>
    dsimp only
    split
    next died =>
      simp only [Cell.died, and_eq_true, not_eq_true', decide_eq_true_eq] at died
      obtain ⟨⟨⟨⟨⟨used, -⟩, idle⟩, -⟩, -⟩, gone⟩ := died
      split
      · exact .begins idle (fun _ => gone) used rfl
      · split
        · exact .drops idle (fun _ => gone) rfl idle rfl
        · exact .begins idle (fun _ => gone) used rfl
    · exact .nothing
  · exact .nothing

theorem Request.enter_enters (ok : ∀ i, CellOk s i) (now : Nat) (r : Request) :
    Enters s (r.enter s now).1 (r.enter s now).2 := by
  cases r with
  | list =>
    have looked : ∀ i, s.refreshAll.cells i = s.cells i ∨
        s.refreshAll.cells i = (s.cells i).refreshed s.tasks := by
      intro i
      unfold State.refreshAll
      dsimp only
      split
      · exact .inr rfl
      · exact .inl rfl
    exact .looks rfl rfl looked
  | load name program keepalive => exact opLoad_enters ok name program keepalive
  | unload name => exact opUnload_enters ok name
  | stop name => exact opStop_enters ok name
  | start name => exact opStart_enters ok name
  | death idx => exact handleDeath_enters now idx
  | bootLoad name program keepalive runatload =>
    exact launchdBootLoad_enters ok name program keepalive runatload

/-! ### The other steps -/

/-- What a step of one call means for the others. -/
structure Step (s s' : State) (c c' : Call) : Prop where
  children : ∀ child ∈ s.children, child ∈ s'.children
  disowned : ∀ i, (s.cells i).disowned ≤ (s'.cells i).disowned
  spawning : ∀ i, (s'.cells i).disowned = (s.cells i).disowned → (s.cells i).lcSpawning = true →
    (s'.cells i).lcSpawning = true ∨ c.stage.flight = some (i, (s.cells i).disowned)
  flight : ∀ i begun, c'.stage.flight = some (i, begun) →
    c.stage.flight = some (i, begun) ∨ begun = (s.cells i).disowned ∧ (s.cells i).lcSpawning = false

theorem Own.undisturbed (own : Own s d) (step : Step s s' c c') (apart : Apart c d) :
    Own s' d ∧ Apart c' d := by
  refine ⟨⟨fun i begun flight => ?_, fun i begun id landed =>
    step.children _ (own.landed i begun id landed)⟩,
    fun i begun mine theirs => ?_⟩
  · obtain ⟨before, spawning⟩ := own.flight i begun flight
    have grown := step.disowned i
    refine ⟨before.trans grown, fun current => ?_⟩
    have same := le_antisymm before (grown.trans_eq current.symm)
    rcases step.spawning i (current.symm.trans same) (spawning same) with still | mine
    · exact still
    · exact absurd (same ▸ flight) (apart i _ mine)
  rcases step.flight i begun mine with old | ⟨current, idle⟩
  · exact apart i begun old theirs
  · -- a spawn begins only where none of the present generation is under way
    rw [(own.flight i begun theirs).2 current] at idle
    cases idle

theorem Step.of_setCell (disowned : (s.cells i).disowned ≤ cell.disowned)
    (spawning : cell.disowned = (s.cells i).disowned → (s.cells i).lcSpawning = true →
      cell.lcSpawning = true ∨ c.stage.flight = some (i, (s.cells i).disowned))
    (flight : ∀ j begun, c'.stage.flight = some (j, begun) →
      c.stage.flight = some (j, begun) ∨ begun = (s.cells j).disowned ∧
        (s.cells j).lcSpawning = false) :
    Step s (s.setCell i cell) c c' where
  children _ member := member
  disowned j := by
    rw [State.cells_setCell]
    split
    next here => exact here ▸ disowned
    · exact le_rfl
  spawning j := by
    rw [State.cells_setCell]
    split
    next here =>
      subst here
      exact spawning
    · exact fun _ still => .inl still
  flight := flight

theorem Step.of_looked (children : ∀ child ∈ s.children, child ∈ s'.children)
    (looked : ∀ i, s'.cells i = s.cells i ∨ s'.cells i = (s.cells i).refreshed s.tasks)
    (flight : ∀ i begun, c'.stage.flight = some (i, begun) → c.stage.flight = some (i, begun)) :
    Step s s' c c' where
  children := children
  disowned i := by rcases looked i with same | same <;> simp [same]
  spawning i _ still := by rcases looked i with same | same <;> simp [same, still]
  flight i begun mine := .inl (flight i begun mine)

theorem Stage.elim_flight {P : Prop} {stage : Stage} {x : CellIndex × Nat}
    (flight : stage.flight = none)
    (here : stage.flight = some x) : P := by
  rw [flight] at here
  cases here

theorem Own.of_quiet (flight : c.stage.flight = none) : Own s c where
  flight i begun here := Stage.elim_flight flight here
  landed i begun id here := by
    rw [here] at flight
    cases flight

variable {rest : Multiset Nat} {stage : Stage} {begun id now : Nat}

theorem Enters.ok (enters : Enters s s' stage) (world : Accounted s (hand c + rest))
    (entering : c.stage = .entering) :
    Accounted s' (hand { c with stage := stage } + rest) ∧ Own s' { c with stage := stage } ∧
      Step s s' c { c with stage := stage } := by
  have empty : hand c = 0 := by simp [hand, entering, Stage.carries]
  have more : hand c + rest ⊆ hand { c with stage := stage } + rest := by
    intro id held
    rw [empty, zero_add] at held
    exact mem_add.mpr (.inr held)
  cases enters with
  | looks flight carries looked =>
    have nobody : hand { c with stage := stage } = 0 := by simp [hand, carries]
    rw [nobody, ← empty]
    exact ⟨world.looked looked, .of_quiet flight,
      .of_looked (fun _ => id) looked fun j begun here => Stage.elim_flight flight here⟩
  | @begins i cell idle gone used same =>
    refine ⟨world.vacate rfl (fun _ => used) (fun there alive => absurd alive (gone there)) more,
      ⟨fun j begun here => ?_, fun j begun id here => by cases here⟩,
      .of_setCell same.ge (fun _ _ => .inl rfl) fun j begun here => ?_⟩
    · cases here
      simp [Cell.spawnBegin, same]
    · cases here
      exact .inr ⟨rfl, idle⟩
  | @disowns i cell _ task spawning higher flight kills =>
    refine ⟨world.vacate task (by simp [spawning]) (fun there alive => ?_) more, .of_quiet flight,
      .of_setCell (by omega) (fun same => by omega) fun _ _ here => Stage.elim_flight flight here⟩
    simp [hand, kills there alive]
  | @drops i cell reply idle gone task spawning same =>
  refine ⟨world.vacate task (by simp [spawning]) (fun there alive => absurd alive (gone there))
    more, .of_quiet rfl,
    .of_setCell same.ge (fun _ busy => ?_) fun _ _ here => by cases here⟩
  rw [idle] at busy
  cases busy

theorem Accounted.child_unique {a b : Child} (world : Accounted s hands) (first : a ∈ s.children)
    (second : b ∈ s.children)
    (same : a.id = b.id) : a = b :=
  inj_on_of_nodup_map world.distinct first second same

theorem Accounted.spawned (world : Accounted s hands) (i : CellIndex) (begun gap : Nat) :
    Accounted (progregSpawn s i begun (some gap)).1 ({s.nextTaskId + gap} + hands) where
  cell j := by
    have ok := world.cell j
    refine ⟨ok.used, ok.starting, fun alive there => ok.running ?_ there, fun there => ?_⟩
    · obtain ⟨child, member, same, -⟩ := ok.known there
      have old := same ▸ (world.fresh child member).2
      exact mem_of_mem_insert_of_ne alive (old.trans_le (le_add_right _ gap)).ne
    · obtain ⟨child, member, same⟩ := ok.known there
      exact ⟨child, mem_cons_of_mem _ member, same⟩
  child child member alive := by
    rcases mem_cons.mp member with rfl | member
    · exact .inr (.inl (by simp))
    · have old := (world.fresh child member).2
      have alive := mem_of_mem_insert_of_ne alive (by omega)
      exact (world.child child member alive).imp_right (.imp_left fun held =>
        mem_add.mpr (.inr held))
  fresh child member := by
    have positive := world.positive
    rcases mem_cons.mp member with rfl | member
    · exact ⟨Nat.add_pos_left positive _, Nat.lt_succ_self _⟩
    · have old := world.fresh child member
      exact ⟨old.1, old.2.trans_le ((le_add_right _ gap).trans (le_succ _))⟩
  distinct := by
    refine nodup_cons.mpr ⟨fun member => ?_, world.distinct⟩
    obtain ⟨child, member, same⟩ := mem_map.mp member
    have old := (world.fresh child member).2
    simp only at same
    omega
  positive := succ_pos _

theorem spawn_ok {chance : Option Nat} (world : Accounted s (hand c + rest)) (own : Own s c)
    (here : c.stage = .spawning i begun) :
    Accounted (progregSpawn s i begun chance).1
      (hand { c with stage := .landed i begun (progregSpawn s i begun chance).2 } + rest) ∧
      Own (progregSpawn s i begun chance).1
        { c with stage := .landed i begun (progregSpawn s i begun chance).2 } ∧
      Step s (progregSpawn s i begun chance).1 c
        { c with stage := .landed i begun (progregSpawn s i begun chance).2 } := by
  have empty : hand c = 0 := by simp [hand, here, Stage.carries]
  have flight : c.stage.flight = some (i, begun) := by rw [here]; rfl
  rw [empty, zero_add] at world
  cases chance with
  | none =>
    refine ⟨by simpa [hand, Stage.carries, progregSpawn] using world,
      ⟨fun j b mine => ?_, fun j b id mine => by cases mine⟩,
      .of_looked (fun _ => id) (fun _ => .inl rfl) fun j b mine => ?_⟩
    · cases mine
      exact own.flight i begun flight
    · cases mine
      exact flight
  | some gap =>
  refine ⟨world.spawned i begun gap, ⟨fun j b mine => ?_, fun j b id mine => ?_⟩,
    .of_looked (fun _ member => mem_cons_of_mem _ member) (fun _ => .inl rfl) fun j b mine => ?_⟩
  · cases mine
    exact own.flight i begun flight
  · cases mine
    exact mem_cons_self ..
  · cases mine
    exact flight

theorem Accounted.recorded (world : Accounted s ({id} + rest))
    (spawning : (s.cells i).lcSpawning = true)
    (current : begun = (s.cells i).disowned) (landed : ⟨id, i, begun⟩ ∈ s.children) :
    Accounted (s.setCell i ((s.cells i).spawnEnd now (some id))) rest where
  cell j := by
    by_cases here : j = i
    · subst here
      have same : (s.setCell j ((s.cells j).spawnEnd now (some id))).cells j =
          (s.cells j).spawnEnd now (some id) := by simp
      have used := ((world.cell j).starting spawning).2
      constructor <;> rw [same]
      · exact fun _ => used
      · exact fun busy => by cases busy
      · exact fun _ _ => rfl
      · exact fun _ => ⟨_, landed, rfl, rfl, current⟩
    · exact (world.cell j).other here
  child child member alive := by
    rcases world.child child member alive with asked | held | recorded
    · exact .inl asked
    · rcases mem_add.mp held with mine | others
      · -- the child in hand is the one of the cell
        obtain rfl := world.child_unique member landed (Multiset.mem_singleton.mp mine)
        right
        right
        rw [State.cells_setCell, if_pos rfl]
        rfl
      · exact .inr (.inl others)
    right
    right
    rw [State.cells_setCell]
    split
    next here =>
      -- a cell that is starting has no other task
      rw [here, ((world.cell i).starting spawning).1] at recorded
      have positive := (world.fresh child member).1
      omega
    · exact recorded
  fresh := world.fresh
  distinct := world.distinct
  positive := world.positive

/-- A call comes back within one round of the generations. -/
def Stage.timely (s : State) : Stage → Bool
  | .landed idx begun _ => decide ((s.cells idx).disowned < begun + 2 ^ 32)
  | _ => true

theorem generation_eq_iff {a b : Nat} (before : a ≤ b) (close : b < a + 2 ^ 32) :
    generation b = generation a ↔ a = b := by
  unfold generation
  omega

theorem land_ok {child : Option Nat} (world : Accounted s (hand c + rest)) (own : Own s c)
    (here : c.stage = .landed i begun child) (timely : c.stage.timely s = true) :
    Accounted (land s c.request now i begun child).1
      (hand { c with stage := (land s c.request now i begun child).2 } + rest) ∧
      Own (land s c.request now i begun child).1
        { c with stage := (land s c.request now i begun child).2 } ∧
      Step s (land s c.request now i begun child).1 c
        { c with stage := (land s c.request now i begun child).2 } := by
  have flight : c.stage.flight = some (i, begun) := by rw [here]; rfl
  obtain ⟨before, spawning⟩ := own.flight i begun flight
  rw [here] at timely
  have close := generation_eq_iff before (of_decide_eq_true timely)
  have held : hand c = (child.toList : Multiset Nat) := by simp [hand, here, Stage.carries]
  rw [held] at world
  unfold land
  split
  next same =>
    have current := close.mp same
    refine ⟨?_, .of_quiet rfl, .of_setCell ?_ (fun _ _ => .inr (current ▸ flight)) fun _ _ mine =>
      by cases mine⟩
    · change Accounted _ (0 + rest)
      rw [zero_add]
      cases child with
      | none =>
        have empty := ((world.cell i).starting (spawning current)).1
        exact world.vacate rfl (fun busy => by cases busy) (fun there => absurd empty there)
          (by simp)
      | some id => exact world.recorded (spawning current) current (own.landed i begun id here)
    · cases child <;> exact le_rfl
  next other =>
    cases child with
    | none =>
      exact ⟨world, .of_quiet rfl, .of_looked (fun _ => id) (fun _ => .inl rfl) fun _ _ mine =>
        by cases mine⟩
    | some id =>
      exact ⟨world, .of_quiet rfl,
        .of_looked (fun _ member => member) (fun _ => .inl rfl) fun _ _ mine => by cases mine⟩

theorem Accounted.terminated (world : Accounted s ({id} + rest)) :
    Accounted (s.terminate id) rest where
  cell i := { (world.cell i) with }
  child child member alive := by
    have known : (s.terminate id).asked = if id ∈ s.tasks then insert id s.asked else s.asked := rfl
    rw [known]
    rcases world.child child member alive with asked | held | recorded
    · left
      split
      · exact mem_insert_of_mem asked
      · exact asked
    · rcases mem_add.mp held with mine | others
      · left
        rw [Multiset.mem_singleton.mp mine] at alive ⊢
        rw [if_pos (show id ∈ s.tasks from alive)]
        exact mem_insert_self _ _
      · exact .inr (.inl others)
    · exact .inr (.inr recorded)
  fresh := world.fresh
  distinct := world.distinct
  positive := world.positive

theorem step_ok {chance : Chance} (world : Accounted s (hand c + rest)) (own : Own s c)
    (timely : c.stage.timely s = true) (stepped : step chance s c = some (s', c')) :
    Accounted s' (hand c' + rest) ∧ Own s' c' ∧ Step s s' c c' := by
  unfold step at stepped
  cases here : c.stage with
  | entering =>
    rw [here] at stepped
    cases stepped
    exact (Request.enter_enters world.cell chance.now c.request).ok world here
  | spawning idx begun =>
    rw [here] at stepped
    cases stepped
    exact spawn_ok world own here
  | landed idx begun child =>
    rw [here] at stepped
    cases stepped
    exact land_ok world own here timely
  | killing id reply =>
    rw [here] at stepped
    cases stepped
    have held : hand c = {id} := by simp [hand, here, Stage.carries]
    rw [held] at world
    refine ⟨?_, .of_quiet rfl,
      .of_looked (fun _ member => member) (fun _ => .inl rfl) fun _ _ mine => by cases mine⟩
    change Accounted _ (0 + rest)
    rw [zero_add]
    exact world.terminated
  | done reply =>
    rw [here] at stepped
    cases stepped

/-! ### Runs -/

variable {n : Nat} {r r' : Run n}

/-- Nothing of a cell is stopped or unloaded 2³² times while one spawn for it is under way. -/
def Timely (r : Run n) : Event n → Run n → Prop
  | .goes i _, _ => (r.pc i).stage.timely r.shared = true
  | .dies _, _ => True

abbrev Sound (r : Run n) : Prop := Threads.Sound Accounted hand Own Apart r

theorem Sound.begin (begins : r.Begins) : Sound r := by
  obtain ⟨⟨tasks, nextTaskId, positive, init⟩, entering⟩ := begins
  have quiet : ∀ i, (r.pc i).stage.flight = none := fun i => by rw [entering i]; rfl
  refine ⟨?_, fun i => .of_quiet (quiet i), fun i j _ k begun here =>
    Stage.elim_flight (quiet i) here⟩
  rw [init]
  exact ⟨fun i => ⟨fun there => absurd rfl there, fun busy => (by cases busy),
    fun _ there => absurd rfl there,
    fun there => absurd rfl there⟩, fun _ member => (by cases member),
    fun _ member => (by cases member), nodup_nil, positive⟩

theorem Sound.dies (sound : Sound r) (id : Nat) :
    Sound { r with shared := { r.shared with tasks := r.shared.tasks.erase id } } where
  world := by
    have world := sound.world
    refine ⟨fun i => ?_, fun child member alive =>
      world.child child member (Finset.mem_of_mem_erase alive), world.fresh,
      world.distinct, world.positive⟩
    have ok := world.cell i
    exact ⟨ok.used, ok.starting, fun alive => ok.running (Finset.mem_of_mem_erase alive), ok.known⟩
  own i := ⟨(sound.own i).flight, (sound.own i).landed⟩
  apart := sound.apart

theorem Sound.step {e : Event n} (sound : Sound r) (taken : next r e = some r')
    (timely : Timely r e r') : Sound r' := by
  cases e with
  | dies id =>
    cases taken
    exact sound.dies id
  | goes i chance =>
  refine Threads.Sound.kept sound taken (fun s c stepped world own => ?_)
    fun s c j other stepped theirs apart _ => ?_
  · obtain ⟨world, own, -⟩ := step_ok world own timely stepped
    exact ⟨world, own⟩
  have world := sound.world
  rw [Threads.total_eq hand r i] at world
  obtain ⟨-, -, step⟩ := step_ok world (sound.own i) timely stepped
  obtain ⟨theirs, apart⟩ := theirs.undisturbed step apart
  exact ⟨theirs, apart, apart.symm⟩

/-- No call is in progress. -/
def Quiescent (r : Run n) : Prop :=
  ∀ i, (r.pc i).stage.flight = none ∧ (r.pc i).stage.carries = none

/-- In every run in which no cell is disowned 2³² times during one spawn. Whenever no call is in
progress, every child is dead, or asked to terminate, or the task of exactly one used cell, and no
two of the others were started for one cell. At every moment, the task of a cell was started for it
after the cell was last stopped or unloaded, and of two spawns under way for one cell the earlier
one has been disowned. -/
theorem launchd_instances {r₀ : Run n} (begins : r₀.Begins) (run : Runs next Timely r₀ r) :
    (Quiescent r →
      (∀ child ∈ r.shared.children, child.id ∉ r.shared.tasks ∨ child.id ∈ r.shared.asked ∨
        ∃! i, (r.shared.cells i).lcUsed = true ∧ (r.shared.cells i).lcTaskId = child.id) ∧
      ∀ a ∈ r.shared.children, ∀ b ∈ r.shared.children, a.cell = b.cell →
        a.id ∈ r.shared.tasks → a.id ∉ r.shared.asked → b.id ∈ r.shared.tasks →
          b.id ∉ r.shared.asked → a = b) ∧
    (∀ i, (r.shared.cells i).lcTaskId ≠ 0 → ∃ child ∈ r.shared.children,
      child.id = (r.shared.cells i).lcTaskId ∧ child.cell = i ∧
        child.begun = (r.shared.cells i).disowned) ∧
    ∀ t u i first second, t ≠ u → (r.pc t).stage.flight = some (i, first) →
      (r.pc u).stage.flight = some (i, second) →
      first < second ∧ first < (r.shared.cells i).disowned ∨ second < first ∧
        second < (r.shared.cells i).disowned := by
  have sound := run.invariant (P := Sound) (.begin begins) fun _ _ _ sound taken timely =>
    sound.step taken timely
  have world := sound.world
  refine ⟨fun quiet => ?_, fun i there => (world.cell i).known there,
    fun t u i first second other mine theirs => ?_⟩
  · have empty : r.total hand = 0 := sum_eq_zero fun i _ => by simp [hand, (quiet i).2]
    rw [empty] at world
    -- a child that is alive and was not asked is in its cell
    have placed : ∀ child ∈ r.shared.children, child.id ∈ r.shared.tasks →
      child.id ∉ r.shared.asked →
        (r.shared.cells child.cell).lcTaskId = child.id := by
      intro child member alive spared
      rcases world.child child member alive with asked | held | recorded
      · exact absurd asked spared
      · exact absurd held (notMem_zero _)
      · exact recorded
    refine ⟨fun child member => ?_, fun a first b second same alive spared alive' spared' => ?_⟩
    · by_cases alive : child.id ∈ r.shared.tasks
      · by_cases asked : child.id ∈ r.shared.asked
        · exact .inr (.inl asked)
        have recorded := placed child member alive asked
        have there := pos_iff_ne_zero.mp (world.fresh child member).1
        refine .inr (.inr ⟨child.cell, ⟨(world.cell child.cell).used (recorded ▸ there), recorded⟩,
          ?_⟩)
        rintro i ⟨-, task⟩
        obtain ⟨mine, member', same, cell, -⟩ := (world.cell i).known (task ▸ there)
        rw [← cell, world.child_unique member' member (same.trans task)]
      · exact .inl alive
    · refine world.child_unique first second ?_
      rw [← placed a first alive spared, same, placed b second alive' spared']
  have older := (sound.own t).flight i first mine
  have newer := (sound.own u).flight i second theirs
  have distinct : first ≠ second := fun same => sound.apart t u other i first mine (same ▸ theirs)
  omega

/-! ### A stop while a job starts -/

def loadStopStart : Run 3 :=
  ⟨.init {1} 10, ![⟨.load [97] [112] true, .entering⟩, ⟨.stop [97], .entering⟩,
    ⟨.start [97], .entering⟩]⟩

theorem loadStopStart_begins : loadStopStart.Begins := ⟨⟨{1}, 10, by decide, rfl⟩, by decide⟩

/-- The calls of a list go on one after the other, every spawn with a child. -/
def goOn {n : Nat} (is : List (Fin n)) : List (Event n) := is.map fun i => .goes i ⟨0, some 0⟩

def timely {n : Nat} (r : Run n) : Event n → Run n → Bool
  | .goes i _, _ => (r.pc i).stage.timely r.shared
  | .dies _, _ => true

theorem timely_sound {n : Nat} (r : Run n) (e : Event n) (r' : Run n)
    (passed : timely r e r' = true) : Timely r e r' := by
  cases e with
  | goes i chance => exact passed
  | dies id => trivial

/-- The first child is asked to terminate, the second one is recorded. -/
theorem launchd_instances_two : ∃ r, Runs next Timely loadStopStart r ∧ Quiescent r ∧
    r.shared.children = [⟨11, 0, 1⟩, ⟨10, 0, 0⟩] ∧ 10 ∈ r.shared.asked ∧
      (r.shared.cells 0).lcTaskId = 11 ∧
    ∀ child ∈ r.shared.children, child.id ∉ r.shared.tasks ∨ child.id ∈ r.shared.asked ∨
      ∃! i, (r.shared.cells i).lcUsed = true ∧ (r.shared.cells i).lcTaskId = child.id := by
  obtain ⟨r, timed, quiet, children, asked, recorded⟩ :
    ∃ r, Runs next (timely · · · = true) loadStopStart r ∧
      (∀ i, (r.pc i).stage.flight = none ∧ (r.pc i).stage.carries = none) ∧
      r.shared.children = [⟨11, 0, 1⟩, ⟨10, 0, 0⟩] ∧ 10 ∈ r.shared.asked ∧
        (r.shared.cells 0).lcTaskId = 11 :=
    Runs.exists_of_follow (goOn [0, 1, 0, 2, 0, 2, 0, 2]) (by decide +kernel)
  have run := timed.mono timely_sound
  exact ⟨r, run, quiet, children, asked, recorded,
    ((launchd_instances loadStopStart_begins run).1 quiet).1⟩

/-- A stop takes the mark of the spawn under way off the cell, and a start finds none: both spawns
run. -/
theorem spawns_of_a_cell_overlap :
    loadStopStart.Begins ∧ ∃ r, Runs next (fun _ _ _ => True) loadStopStart r ∧
    (r.pc 0).stage = .spawning 0 0 ∧ (r.pc 1).stage = .done (some (.status .ok .stopped 0)) ∧
      (r.pc 2).stage = .spawning 0 1 :=
  ⟨loadStopStart_begins, Runs.exists_of_follow (goOn [0, 1, 2]) (by decide +kernel)⟩

end Style9.Mach.Launchd
