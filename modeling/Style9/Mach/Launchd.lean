import Style9.Lib.Bytes
import Style9.Lib.Threads

/-!
# The jobs of launchd

Eight cells under one lock, which is given up around every spawn: a child arrives when the cell it
was started for may have been stopped, unloaded or given to another label. Each call takes its
critical sections one at a time and any number of calls run at once. A notice that a child died
names a cell only and may come at any time, also for a child that the cell no longer has.

Left out are the ports of Mach services, the watches that lead to the notices, and the task port in
the reply to a load. `progreg_spawn` answers with the task it made, under a number no task had
before.
-/
namespace Style9.Mach.Launchd

open Style9.Lib

abbrev launchdMaxServices : Nat := 8

def launchdThrottleMs : Nat := 1000

def launchdThrottleMax : Nat := 3

abbrev CellIndex : Type := Fin launchdMaxServices

/-- `LAUNCHD_STATE_*`. -/
inductive LcState where
  | running
  | exited
  | failed
  | stopped
  | throttled
  deriving DecidableEq

/-- `struct launchd_cell`. A name is the bytes before its terminator. -/
structure Cell where
  lcUsed : Bool
  lcKeepalive : Bool
  lcState : LcState
  lcSpawning : Bool
  lcFastCrashes : Nat
  /-- How often the cell was stopped or unloaded. -/
  disowned : Nat
  lcTaskId : Nat
  lcLastSpawnMs : Nat
  lcName : Bytes
  lcProgram : Bytes
  deriving DecidableEq

/-- A generation has 32 bits. -/
def generation (disowned : Nat) : Nat := disowned % 2 ^ 32

variable (c : Cell)

def Cell.lcGen : Nat := generation c.disowned

/-- A task that `progreg_spawn` returned: the cell it was started for, and how often that cell had
been disowned by then. -/
structure Child where
  id : Nat
  cell : CellIndex
  begun : Nat
  deriving DecidableEq

/-- The cells and the tasks: those alive, those asked to terminate, and every child so far. -/
structure State where
  cells : CellIndex → Cell
  tasks : Finset Nat
  asked : Finset Nat
  nextTaskId : Nat
  children : List Child

variable (s : State)

def State.setCell (i : CellIndex) (c : Cell) : State :=
  { s with cells := Function.update s.cells i c }

/-- `refresh_state_locked`. -/
def Cell.refreshed (tasks : Finset Nat) (c : Cell) : Cell :=
  if c.lcState = .running ∧ c.lcTaskId ≠ 0 ∧ c.lcTaskId ∉ tasks then { c with lcState := .exited }
    else c

/-- `spawn_begin_locked`. -/
def Cell.spawnBegin : Cell := { c with lcSpawning := true, lcState := .failed, lcTaskId := 0 }

/-- `disown_locked`. -/
def Cell.disown : Cell := { c with disowned := c.disowned + 1, lcSpawning := false, lcTaskId := 0 }

/-- The cell that `spawn_end_locked` leaves where the generation is still the same. -/
def Cell.spawnEnd (now : Nat) : Option Nat → Cell
  | none => { c with lcSpawning := false, lcState := .failed, lcTaskId := 0 }
  | some id =>
    { c with lcSpawning := false, lcState := .running, lcTaskId := id, lcLastSpawnMs := now }

/-- `task_request_terminate`. -/
def State.terminate (id : Nat) : State :=
  { s with asked := if id ∈ s.tasks then insert id s.asked else s.asked }

variable (name : Bytes)

def State.byName : Option CellIndex :=
  (List.finRange launchdMaxServices).find? fun i => (s.cells i).lcUsed && (s.cells i).lcName == name

def State.freeCell : Option CellIndex :=
  (List.finRange launchdMaxServices).find? fun i => !(s.cells i).lcUsed

/-! ### The calls -/

inductive Status where
  | ok
  | inval
  | name
  | nospace
  | spawn
  deriving DecidableEq

inductive Reply where
  | status (lsStatus : Status) (lsState : LcState) (lsTaskId : Nat)
  | list (entries : List (Bytes × Bytes × LcState × Nat))
  deriving DecidableEq

/-- The five requests, a death notice, and an entry of the boot catalog. -/
inductive Request where
  | list
  | load (name program : Bytes) (keepalive : Bool)
  | unload (name : Bytes)
  | stop (name : Bytes)
  | start (name : Bytes)
  | death (idx : Nat)
  | bootLoad (name program : Bytes) (keepalive runatload : Bool)
  deriving DecidableEq

/-- Where a call is. It spawns without the lock, comes back with the child or without, and asks a
child to terminate after it has given the lock up again. -/
inductive Stage where
  | entering
  | spawning (idx : CellIndex) (begun : Nat)
  | landed (idx : CellIndex) (begun : Nat) (child : Option Nat)
  | killing (child : Nat) (reply : Option Reply)
  | done (reply : Option Reply)
  deriving DecidableEq

structure Call where
  request : Request
  stage : Stage
  deriving DecidableEq

/-- The clock, and what a spawn comes to: no child, or one whose number is so much after the last.
-/
structure Chance where
  now : Nat
  child : Option Nat

def Cell.claimed (name program : Bytes) (keepalive : Bool) : Cell :=
  { c with
    lcUsed := true, lcName := name, lcProgram := program, lcKeepalive := keepalive
    lcFastCrashes := 0 }

def State.refreshAll : State :=
  { s with
    cells := fun i => if (s.cells i).lcUsed then (s.cells i).refreshed s.tasks else s.cells i }

def opList : State × Stage :=
  let used := (List.finRange launchdMaxServices).filter fun i => (s.cells i).lcUsed
  (s.refreshAll, .done (some (.list (used.map fun i =>
    let c := s.refreshAll.cells i
    (c.lcName, c.lcProgram, c.lcState, c.lcTaskId)))))

/-- `op_load` up to the spawn. -/
def opLoad (name program : Bytes) (keepalive : Bool) : State × Stage :=
  if name = [] ∨ program = [] then (s, .done none)
  else
    match s.byName name, s.freeCell with
    | some _, _ => (s, .done (some (.status .inval .failed 0)))
    | none, none => (s, .done (some (.status .nospace .failed 0)))
    | none, some i => (s.setCell i ((s.cells i).claimed name program keepalive).spawnBegin,
      .spawning i (s.cells i).disowned)

/-- `launchd_boot_load` up to the spawn. -/
def launchdBootLoad (name program : Bytes) (keepalive runatload : Bool) : State × Stage :=
  match s.freeCell with
  | none => (s, .done none)
  | some i =>
    let c := { (s.cells i).claimed name program keepalive with lcTaskId := 0 }
    if runatload then (s.setCell i c.spawnBegin, .spawning i (s.cells i).disowned)
    else (s.setCell i { c with lcState := .stopped }, .done none)

/-- What is left to do for a cell that was disowned. -/
def killRunning (reply : Reply) : Stage :=
  if c.lcState = .running ∧ c.lcTaskId ≠ 0 then .killing c.lcTaskId (some reply)
    else .done (some reply)

def noSuchName : Stage := .done (some (.status .name .exited 0))

/-- `op_unload` up to the kill. -/
def opUnload : State × Stage :=
  if name = [] then (s, .done none)
  else
    match s.byName name with
    | none => (s, noSuchName)
    | some i =>
      let c := s.cells i
      (s.setCell i { c.disown with
          lcUsed := false, lcState := .exited, lcName := [], lcProgram := [] },
        killRunning c (.status .ok c.lcState c.lcTaskId))

/-- `op_stop` up to the kill. -/
def opStop : State × Stage :=
  if name = [] then (s, .done none)
  else
    match s.byName name with
    | none => (s, noSuchName)
    | some i =>
      let c := (s.cells i).refreshed s.tasks
      (s.setCell i { c.disown with lcState := .stopped },
        killRunning c (.status .ok .stopped c.lcTaskId))

/-- `op_start` up to the spawn. -/
def opStart : State × Stage :=
  if name = [] then (s, .done none)
  else
    match s.byName name with
    | none => (s, noSuchName)
    | some i =>
      let c := (s.cells i).refreshed s.tasks
      if c.lcSpawning = true ∨ c.lcState = .running
        then (s.setCell i c, .done (some (.status .ok .running c.lcTaskId)))
      else (s.setCell i { c with lcFastCrashes := 0 }.spawnBegin, .spawning i c.disowned)

/-- A death that counts: of a job to be kept alive, and the task is really gone. -/
def Cell.died (tasks : Finset Nat) (c : Cell) : Bool :=
  c.lcUsed && c.lcKeepalive && !c.lcSpawning && (c.lcState == .running || c.lcState == .exited) &&
    decide (c.lcTaskId ≠ 0) && decide (c.lcTaskId ∉ tasks)

/-- `launchd_handle_death` up to the spawn. -/
def handleDeath (now idx : Nat) : State × Stage :=
  if inside : idx < launchdMaxServices then
    let i : CellIndex := ⟨idx, inside⟩
    let c := s.cells i
    if c.died s.tasks then
      if launchdThrottleMs ≤ now - c.lcLastSpawnMs then
        (s.setCell i { c with lcFastCrashes := 0 }.spawnBegin, .spawning i c.disowned)
      else if launchdThrottleMax ≤ c.lcFastCrashes + 1 then
        (s.setCell i { c with
            lcTaskId := 0, lcFastCrashes := c.lcFastCrashes + 1, lcState := .throttled },
          .done none)
      else
        (s.setCell i { c with lcFastCrashes := c.lcFastCrashes + 1 }.spawnBegin,
          .spawning i c.disowned)
    else (s, .done none)
  else (s, .done none)

/-- The first critical section of a call. -/
def Request.enter (now : Nat) : Request → State × Stage
  | .list => opList s
  | .load name program keepalive => opLoad s name program keepalive
  | .unload name => opUnload s name
  | .stop name => opStop s name
  | .start name => opStart s name
  | .death idx => handleDeath s now idx
  | .bootLoad name program keepalive runatload => launchdBootLoad s name program keepalive runatload

def progregSpawn (idx : CellIndex) (begun : Nat) : Option Nat → State × Option Nat
  | none => (s, none)
  | some gap =>
    let id := s.nextTaskId + gap
    ({ s with
        tasks := insert id s.tasks, nextTaskId := id + 1
        children := ⟨id, idx, begun⟩ :: s.children },
      some id)

/-- Whether anyone waits for a reply. -/
def Request.answered : Request → Bool
  | .death _ => false
  | .bootLoad .. => false
  | _ => true

def Request.reply (r : Request) (lsStatus : Status) (lsState : LcState)
    (lsTaskId : Nat) : Option Reply :=
  if r.answered then some (.status lsStatus lsState lsTaskId) else none

/-- `spawn_end_locked`, and `spawn_orphaned` for a child that belongs to no cell. -/
def land (r : Request) (now : Nat) (idx : CellIndex) (begun : Nat)
    (child : Option Nat) : State × Stage :=
  if (s.cells idx).lcGen = generation begun then
    let c := (s.cells idx).spawnEnd now child
    (s.setCell idx c, .done (r.reply (if child.isSome then .ok else .spawn) c.lcState c.lcTaskId))
  else
    match child with
    | none => (s, .done (r.reply .name .exited 0))
    | some id => (s, .killing id (r.reply .name .exited 0))

/-- One critical section, one spawn, or one kill. -/
def step (chance : Chance) (s : State) (c : Call) : Option (State × Call) :=
  match c.stage with
  | .entering =>
    let (s', stage) := c.request.enter s chance.now
    some (s', { c with stage := stage })
  | .spawning idx begun =>
    let (s', child) := progregSpawn s idx begun chance.child
    some (s', { c with stage := .landed idx begun child })
  | .landed idx begun child =>
    let (s', stage) := land s c.request chance.now idx begun child
    some (s', { c with stage := stage })
  | .killing id reply => some (s.terminate id, { c with stage := .done reply })
  | .done _ => none

abbrev Run (n : Nat) : Type := Threads n State Call

/-- A call goes on, or a task dies. -/
inductive Event (n : Nat) where
  | goes (i : Fin n) (chance : Chance)
  | dies (id : Nat)

def next {n : Nat} (s : Run n) : Event n → Option (Run n)
  | .goes i chance => Threads.next (step chance) s i
  | .dies id => some { s with shared := { s.shared with tasks := s.shared.tasks.erase id } }

/-- `launchd_subsystem_init`, with tasks that are not launchd's. -/
def State.init (tasks : Finset Nat) (nextTaskId : Nat) : State where
  cells := fun _ => ⟨false, false, .exited, false, 0, 0, 0, 0, [], []⟩
  tasks := tasks
  asked := ∅
  nextTaskId := nextTaskId
  children := []

/-- Task numbers start at one. -/
structure Run.Begins {n : Nat} (s : Run n) : Prop where
  shared : ∃ tasks nextTaskId, 0 < nextTaskId ∧ s.shared = .init tasks nextTaskId
  entering : ∀ i, (s.pc i).stage = .entering

end Style9.Mach.Launchd
