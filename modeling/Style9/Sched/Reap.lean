import Style9.Lib.Runs
import Style9.Sched.Exit

/-!
# The reaper

`sched_reap_zombies` gives back what dead threads leave behind: each one's reference on its task
and, with the last of these, the task itself, its descriptors and the objects behind its map
entries. It runs on the idle thread and at the end of every `thread_yield`, also of one that a timer
tick forced on the owner of a mutex. So it must never ask for a mutex.

`thread_exit` closes a Darwin task's descriptors before the thread becomes a zombie, and none is
left for the reaper. But it leaves the map alone, and the last reference of a mapped file is a hold
that `fs_close` gives back under `fs_lock`. And a task that was Darwin until an `execve` of another
image has its descriptors still, and its exit does not close them.

Ports, stacks and page tables are given back under spinlocks and are not part of this state.
Counters are natural numbers.
-/
namespace Style9.Sched

open Style9.Lib Function List Act Option

/-! ### Tasks and objects -/

structure VmObject where
  voRefs : Nat
  voHandle : FsHandle
  deriving DecidableEq

/-- `struct task`: whether its personality is Darwin, its references, its attached threads, its
descriptors, and what object stands behind each entry of its map. -/
structure Task where
  tDarwin : Bool
  tRefs : Nat
  tThreads : List Nat
  tDarwinFiles : Nat → DarwinOfile
  vmHead : List (Option Nat)

/-- `struct thread`, as far as the reaper reads it. -/
structure Body where
  thTask : Nat
  thWakeHold : Nat
  thWaitQlock : Bool

/-- `looks` counts the tests of the owner of `fs_lock` that reaps have made: one, at least, in each
call of `mutex_lock`. -/
structure Reaper where
  tasks : Nat → Task
  objects : Nat → VmObject
  threads : Nat → Option Body
  zombieHead : List Nat
  looks : Nat

def kernelTask : Nat := 0

inductive Halt where
  /-- `task_deref`: underflow. -/
  | underflow
  /-- `task_deref`: threads still attached. -/
  | attached
  /-- `sched_reap_zombies`: thread still noted on an object's waiter list. -/
  | noted
  /-- The reaping thread itself. -/
  | stopped (why : Stop)
  deriving DecidableEq

abbrev ReapRun : Type → Type := Act Reaper Halt

def Reaper.setTask (s : Reaper) (t : Nat) (task : Task) : Reaper :=
  { s with tasks := update s.tasks t task }

/-! ### The thread that reaps -/

/-- Who is found to own `fs_lock`. -/
inductive Found where
  | free
  | self
  | other
  deriving DecidableEq

/-- Where a reap runs: on the idle thread or in the tail of a thread's `thread_yield`; the mutexes
that thread owns, whether its task has been killed, and what it finds at each look at `fs_lock`. -/
structure Context where
  idle : Bool
  thMutexDepth : Nat
  tKilled : Bool
  finds : Nat → Found

/-- `mutex_lock` on `fs_lock`, as the reaping thread would run it. -/
def reaperLock (c : Context) : Nat → ExitRun Unit
  | 0 => fail .outOfFuel
  | n + 1 => do
    let k ← read fun s => s.looks
    modify fun s => { s with looks := s.looks + 1 }
    match c.finds k with
    | .free => modify fun s => { s with thMutexDepth := s.thMutexDepth + 1 }
    | .self => fail .recursive
    | .other =>
      if c.idle then fail .idleBlocks
      else if c.tKilled ∧ c.thMutexDepth = 0 then fail .handedOff
      else reaperLock c n

/-- The reaping thread at the descriptors of a task. -/
def Reaper.closing (s : Reaper) (t : Nat) : Exiting where
  files := (s.tasks t).tDarwinFiles
  thMutexDepth := 0
  thWaitQlock := false
  looks := s.looks
  calls := 0
  log := []

/-- Something the reaping thread does with the files of a task. -/
def onFiles (t : Nat) (x : ExitRun Unit) : ReapRun Unit := fun s =>
  let r := x (s.closing t)
  (r.1.mapError .stopped,
    { s.setTask t { s.tasks t with tDarwinFiles := r.2.files } with looks := r.2.looks })

/-! ### Giving a task back -/

variable (lock : ExitRun Unit)

def vmObjectDeref (t : Nat) : Option Nat → ReapRun Unit
  | none => pure ()
  | some o => do
    let obj ← read fun s => s.objects o
    modify fun s => { s with objects := update s.objects o { obj with voRefs := obj.voRefs - 1 } }
    if obj.voRefs = 1 then onFiles t (fsClose lock o obj.voHandle) else pure ()

/-- The loop of `vm_map_destroy`, with `entry_free`. -/
def vmMapDestroy (lock : ExitRun Unit) (t : Nat) : List (Option Nat) → ReapRun Unit
  | [] => pure ()
  | e :: rest => do
    vmObjectDeref lock t e
    vmMapDestroy lock t rest

/-- What goes with the last reference of a task. -/
def taskDestroy (t : Nat) : ReapRun Unit := do
  guard (fun s => (s.tasks t).tThreads.isEmpty) .attached
  -- the fallback for descriptors that no `thread_exit` closed
  onFiles t (clearSlots lock (range darwinNofile))
  let task ← read fun s => s.tasks t
  if t = kernelTask then pure () else vmMapDestroy lock t task.vmHead

def taskDeref (t : Nat) : ReapRun Unit := do
  guard (fun s => 0 < (s.tasks t).tRefs) .underflow
  modify fun s => s.setTask t { s.tasks t with tRefs := (s.tasks t).tRefs - 1 }
  let task ← read fun s => s.tasks t
  if task.tRefs = 0 then taskDestroy lock t else pure ()

def taskDetachThread (t z : Nat) : ReapRun Unit := do
  modify fun s => s.setTask t { s.tasks t with tThreads := (s.tasks t).tThreads.erase z }
  taskDeref lock t

/-- One zombie; a held one goes back on the list. -/
def reapOne (z : Nat) : ReapRun Unit := do
  let body ← read fun s => s.threads z
  match body with
  | none => pure ()
  | some b =>
    if b.thWakeHold ≠ 0 then modify fun s => { s with zombieHead := z :: s.zombieHead }
    else do
      guard (fun _ => !b.thWaitQlock) .noted
      taskDetachThread lock b.thTask z
      modify fun s => { s with threads := update s.threads z none }

def reapAll (lock : ExitRun Unit) : List Nat → ReapRun Unit
  | [] => pure ()
  | z :: rest => do
    reapOne lock z
    reapAll lock rest

def schedReapZombies : ReapRun Unit := do
  let drain ← read fun s => s.zombieHead
  modify fun s => { s with zombieHead := [] }
  reapAll lock drain

/-! ### What a reap lets go of -/

/-- The tasks that lose their last reference, in the order of the list. -/
def Reaper.dying (s : Reaper) : (Nat → Nat) → List Nat → List Nat
  | _, [] => []
  | refs, z :: rest =>
    match s.threads z with
    | none => s.dying refs rest
    | some b =>
      if b.thWakeHold ≠ 0 then s.dying refs rest
      else
        let later := s.dying (update refs b.thTask (refs b.thTask - 1)) rest
        if refs b.thTask = 1 then b.thTask :: later else later

/-- The entries that go with a task. -/
def Reaper.mapped (s : Reaper) (t : Nat) : List (Option Nat) :=
  if t = kernelTask then [] else (s.tasks t).vmHead

def Reaper.lost (s : Reaper) (zombies : List Nat) : List (Option Nat) :=
  (s.dying (fun t => (s.tasks t).tRefs) zombies).flatMap s.mapped

/-- No file of the live volume loses its last mapping with these zombies, and none is open in a task
that goes with them and is not Darwin. -/
structure Reaper.Light (s : Reaper) (zombies : List Nat) : Prop where
  mapped : ∀ o, (s.objects o).voHandle.live = true →
    (s.lost zombies).count (some o) < (s.objects o).voRefs
  files : ∀ t ∈ s.dying (fun t => (s.tasks t).tRefs) zombies, (s.tasks t).tDarwin = false →
    closes (s.tasks t).tDarwinFiles (range darwinNofile) = 0

/-- What holds between the steps of the kernel, for the zombies that wait. -/
structure Reaper.Sound (s : Reaper) (zombies : List Nat) : Prop where
  once : zombies.Nodup
  dead : ∀ z ∈ zombies, ∃ b, s.threads z = some b ∧ b.thWaitQlock = false ∧
    ((s.tasks b.thTask).tDarwin = true →
      closes (s.tasks b.thTask).tDarwinFiles (range darwinNofile) = 0)
  distinct : ∀ t, (s.tasks t).tThreads.Nodup
  belongs : ∀ t z, z ∈ (s.tasks t).tThreads ↔ ∃ b, s.threads z = some b ∧ b.thTask = t
  counted : ∀ t, (s.tasks t).tThreads.length ≤ (s.tasks t).tRefs
  single : ∀ t, (s.tasks t).tDarwin = true → (s.tasks t).tThreads.length ≤ 1
  unlocked : s.looks = 0

variable {lock : ExitRun Unit} {s s' : Reaper} {t z : Nat} {zombies rest l l' : List Nat} {b : Body}
  {refs : Nat → Nat} {task : Task}

/-! ### A reap that asks for nothing -/

theorem clearSlots_unlocked {x : Exiting} (empty : x.thMutexDepth = 0)
    (none : closes x.files (range darwinNofile) = 0) :
    ∃ x', clearSlots lock (range darwinNofile) x = (.ok (), x') ∧ x'.looks = x.looks := by
  rw [range_eq_range'] at none ⊢
  have ends : (clearSlots lock (range' 0 darwinNofile)).Ends x
      (fun _ => Closed ⟨fun _ => false, false⟩ (range' 0 darwinNofile) x)
      (Stuck ⟨fun _ => false, false⟩ (closes x.files (range' 0 darwinNofile)) x) :=
    clearSlots_ends empty fun some => absurd none some
  rcases run : clearSlots lock (range' 0 darwinNofile) x with ⟨why | _, x'⟩
  · obtain ⟨⟨k, -, -, busy⟩, -⟩ := ends.error rfl run
    cases busy
  · refine ⟨x', rfl, ?_⟩
    rw [(ends.ok rfl run).looks, none]
    rfl

theorem onFiles_skip {x : ExitRun Unit} (skip : x (s.closing t) = (.ok (), s.closing t)) :
    onFiles t x s = (.ok (), s) := by
  unfold onFiles
  rw [skip]
  unfold Reaper.setTask Reaper.closing
  dsimp only [Except.mapError]
  rw [update_eq_self]

/-- The objects after some entries have been given back. -/
structure Drops (s : Reaper) (entries : List (Option Nat)) (s' : Reaper) : Prop where
  same : s' = { s with objects := s'.objects }
  handle : ∀ o, (s'.objects o).voHandle = (s.objects o).voHandle
  refs : ∀ o, (s'.objects o).voRefs = (s.objects o).voRefs - entries.count (some o)

theorem vmObjectDeref_drops (lock : ExitRun Unit) (t : Nat) (e : Option Nat)
    (light : ∀ o, (s.objects o).voHandle.live = true → [e].count (some o) < (s.objects o).voRefs) :
    ∃ s', vmObjectDeref lock t e s = (.ok (), s') ∧ Drops s [e] s' := by
  cases e with
  | none => exact ⟨s, rfl, rfl, fun _ => rfl, fun _ => rfl⟩
  | some o =>
  let s₁ : Reaper :=
    { s with objects := update s.objects o ⟨(s.objects o).voRefs - 1, (s.objects o).voHandle⟩ }
  refine ⟨s₁, ?_, rfl, fun p => ?_, fun p => ?_⟩
  · rw [vmObjectDeref, read_bind]
    split
    next last =>
      -- the last reference of something that `fs_close` has nothing to do for
      apply onFiles_skip
      have dead : (s.objects o).voHandle.live = false := by
        by_contra alive
        have more := light o (Bool.not_eq_false _ ▸ alive)
        rw [count_singleton_self, last] at more
        exact lt_irrefl _ more
      rw [fsClose, if_neg (Bool.not_eq_true _ ▸ dead)]
      rfl
    · rfl
  · change (update s.objects o _ p).voHandle = _
    rw [update_apply]
    split
    next here => rw [here]
    · rfl
  change (update s.objects o _ p).voRefs = _
  rw [update_apply]
  split
  next here => rw [here, count_singleton_self]
  next other =>
    rw [count_eq_zero.mpr]
    · rfl
    · exact fun member => other (some.inj (mem_singleton.mp member))

theorem vmMapDestroy_drops {entries : List (Option Nat)}
    (light : ∀ o, (s.objects o).voHandle.live = true →
      entries.count (some o) < (s.objects o).voRefs) :
    ∃ s', vmMapDestroy lock t entries s = (.ok (), s') ∧ Drops s entries s' := by
  induction entries generalizing s with
  | nil => exact ⟨s, rfl, rfl, fun _ => rfl, fun _ => rfl⟩
  | cons e entries ih =>
  have split : ∀ o, (e :: entries).count (some o) =
      [e].count (some o) + entries.count (some o) := by
    intro o
    rw [← count_append]
    rfl
  obtain ⟨s₁, run₁, drops₁⟩ := vmObjectDeref_drops lock t e (s := s) fun o alive => by
    have more := light o alive
    rw [split] at more
    omega
  obtain ⟨s₂, run₂, drops₂⟩ := ih (s := s₁) fun o alive => by
    rw [drops₁.handle] at alive
    have more := light o alive
    rw [split] at more
    rw [drops₁.refs]
    omega
  refine ⟨s₂, (bind_of_ok run₁).trans run₂, ?_, fun o => ?_, fun o => ?_⟩
  · rw [drops₂.same, drops₁.same]
  · rw [drops₂.handle, drops₁.handle]
  · rw [drops₂.refs, drops₁.refs, split]
    omega

/-- A task that one of its threads has left, with these descriptors. -/
def Task.without (task : Task) (z : Nat) (files : Nat → DarwinOfile) : Task :=
  { task with tThreads := task.tThreads.erase z, tRefs := task.tRefs - 1, tDarwinFiles := files }

theorem taskDetachThread_drops (lock : ExitRun Unit) (positive : 0 < (s.tasks t).tRefs)
    (alone : (s.tasks t).tRefs = 1 → (s.tasks t).tThreads.erase z = [])
    (closed : (s.tasks t).tRefs = 1 → closes (s.tasks t).tDarwinFiles (range darwinNofile) = 0)
    (light : (s.tasks t).tRefs = 1 → ∀ o, (s.objects o).voHandle.live = true →
      (s.mapped t).count (some o) < (s.objects o).voRefs) :
    ∃ files s', taskDetachThread lock t z s = (.ok (), s') ∧
      ((s.tasks t).tRefs ≠ 1 → files = (s.tasks t).tDarwinFiles) ∧
      Drops (s.setTask t ((s.tasks t).without z files)) (if (s.tasks t).tRefs = 1 then s.mapped t
        else []) s' := by
  let s₁ := s.setTask t { s.tasks t with tThreads := (s.tasks t).tThreads.erase z }
  let s₂ := s.setTask t ((s.tasks t).without z (s.tasks t).tDarwinFiles)
  have here₁ : s₁.tasks t = { s.tasks t with tThreads := (s.tasks t).tThreads.erase z } :=
    update_self ..
  have here : s₂.tasks t = (s.tasks t).without z (s.tasks t).tDarwinFiles := update_self ..
  have entered : taskDetachThread lock t z s =
      (if (s₂.tasks t).tRefs = 0 then taskDestroy lock t else pure ()) s₂ := by
    have passed : (guard (fun s => 0 < (s.tasks t).tRefs) .underflow : ReapRun Unit) s₁ =
        (.ok (), s₁) :=
      guard_ok_iff.mpr ⟨by rw [here₁]; exact decide_eq_true positive, rfl⟩
    have same : s₁.setTask t { s₁.tasks t with tRefs := (s₁.tasks t).tRefs - 1 } = s₂ := by
      rw [here₁]
      unfold s₁ s₂ Reaper.setTask
      rw [update_idem]
      rfl
    unfold taskDetachThread taskDeref
    rw [modify_bind, bind_of_ok passed, modify_bind, same, read_bind]
  rw [entered, here]
  by_cases last : (s.tasks t).tRefs = 1
  · have empty : (guard (fun s => (s.tasks t).tThreads.isEmpty) .attached : ReapRun Unit) s₂ =
        (.ok (), s₂) :=
      guard_ok_iff.mpr ⟨by rw [here]; exact isEmpty_iff.mpr (alone last), rfl⟩
    obtain ⟨x, cleared, looks⟩ : ∃ x, clearSlots lock (range darwinNofile) (s₂.closing t) =
        (.ok (), x) ∧ x.looks = (s₂.closing t).looks := clearSlots_unlocked rfl (by
      change closes (s₂.tasks t).tDarwinFiles _ = 0
      rw [here]
      exact closed last)
    let s₃ := s.setTask t ((s.tasks t).without z x.files)
    have files : onFiles t (clearSlots lock (range darwinNofile)) s₂ = (.ok (), s₃) := by
      unfold onFiles
      rw [cleared, here]
      dsimp only [Except.mapError]
      rw [looks]
      unfold s₃ s₂ Reaper.setTask
      rw [update_idem]
      rfl
    have there : s₃.tasks t = (s.tasks t).without z x.files := update_self ..
    rw [if_pos (show ((s.tasks t).without z _).tRefs = 0 by unfold Task.without; dsimp only; omega)]
    unfold taskDestroy
    rw [bind_of_ok empty, bind_of_ok files, read_bind, there]
    unfold Reaper.mapped at light ⊢
    split
    · exact ⟨x.files, s₃, rfl, fun other => absurd last other, rfl, fun _ => rfl, fun _ => rfl⟩
    next user =>
      rw [if_neg user] at light
      obtain ⟨s', run, drops⟩ : ∃ s', vmMapDestroy lock t _ s₃ = (.ok (), s') ∧ Drops s₃ _ s' :=
        vmMapDestroy_drops (light last)
      exact ⟨x.files, s', run, fun other => absurd last other, drops⟩
  · rw [if_neg last, if_neg (show ¬ ((s.tasks t).without z _).tRefs =
      0 by unfold Task.without; dsimp only; omega)]
    exact ⟨_, s₂, rfl, fun _ => rfl, rfl, fun _ => rfl, fun _ => rfl⟩

theorem dying_congr (same : ∀ z ∈ zombies, s'.threads z = s.threads z) :
    s'.dying refs zombies = s.dying refs zombies := by
  induction zombies generalizing refs with
  | nil => rfl
  | cons z rest ih =>
    have later : ∀ refs, s'.dying refs rest = s.dying refs rest :=
      fun _ => ih fun y member => same y (mem_cons_of_mem z member)
    simp only [Reaper.dying, same z mem_cons_self, later]

theorem Reaper.lost_congr (tasks : s'.tasks = s.tasks) (threads : s'.threads = s.threads) :
    s'.lost zombies = s.lost zombies := by
  unfold Reaper.lost Reaper.mapped
  rw [tasks, dying_congr fun z _ => congrFun threads z]

theorem Reaper.Light.congr (light : s.Light zombies) (tasks : s'.tasks = s.tasks)
    (threads : s'.threads = s.threads)
    (objects : s'.objects = s.objects) : s'.Light zombies := by
  have dying (refs : Nat → Nat) : s'.dying refs zombies = s.dying refs zombies :=
    dying_congr fun z _ => congrFun threads z
  refine ⟨fun o alive => ?_, fun t going => ?_⟩
  · rw [objects] at alive ⊢
    rw [Reaper.lost_congr tasks threads]
    exact light.mapped o alive
  · rw [dying, tasks] at going
    rw [tasks]
    exact light.files t going

theorem reapOne_drops (lock : ExitRun Unit) (body : s.threads z = some b)
    (unheld : b.thWakeHold = 0)
    (unnoted : b.thWaitQlock = false) (positive : 0 < (s.tasks b.thTask).tRefs)
    (alone : (s.tasks b.thTask).tRefs = 1 → (s.tasks b.thTask).tThreads.erase z = [])
    (closed : (s.tasks b.thTask).tRefs = 1 →
      closes (s.tasks b.thTask).tDarwinFiles (range darwinNofile) = 0)
    (light : (s.tasks b.thTask).tRefs = 1 → ∀ o, (s.objects o).voHandle.live = true →
      (s.mapped b.thTask).count (some o) < (s.objects o).voRefs) :
    ∃ files s', reapOne lock z s = (.ok (), s') ∧
      ((s.tasks b.thTask).tRefs ≠ 1 → files = (s.tasks b.thTask).tDarwinFiles) ∧
      Drops { s.setTask b.thTask ((s.tasks b.thTask).without z files) with
          threads := update s.threads z none }
        (if (s.tasks b.thTask).tRefs = 1 then s.mapped b.thTask else []) s' := by
  obtain ⟨files, s₁, run, same, drops⟩ := taskDetachThread_drops lock positive alone closed light
  have threads : s₁.threads = s.threads := by
    rw [drops.same]
    rfl
  have passed : (guard (fun _ => !b.thWaitQlock) .noted : ReapRun Unit) s = (.ok (), s) :=
    guard_ok_iff.mpr ⟨Bool.not_eq_true' _ ▸ unnoted, rfl⟩
  refine ⟨files, { s₁ with threads := update s.threads z none }, ?_, same, ?_, drops.handle,
    drops.refs⟩
  · unfold reapOne
    rw [read_bind, body]
    dsimp only
    rw [if_neg (not_not.mpr unheld), bind_of_ok passed, bind_of_ok run, ← threads]
    rfl
  · rw [drops.same]

theorem dying_cons (body : s.threads z = some b) (unheld : b.thWakeHold = 0) :
    s.dying refs (z :: rest) = (if refs b.thTask = 1 then [b.thTask] else []) ++
      s.dying (update refs b.thTask (refs b.thTask - 1)) rest := by
  rw [Reaper.dying, body]
  dsimp only
  rw [if_neg (not_not.mpr unheld)]
  split <;> rfl

theorem Reaper.Sound.perm (sound : s.Sound l) (perm : l.Perm l') : s.Sound l' :=
  { sound with
    once := perm.nodup_iff.mp sound.once
    dead := fun z member => sound.dead z (perm.mem_iff.mpr member) }

theorem Reaper.Sound.objects (sound : s.Sound l) (same : s' = { s with objects := s'.objects }) :
    s'.Sound l := by
  rw [same]
  exact { sound with }

/-- Whether a Darwin task has nothing left to close. -/
def Task.Closed (task : Task) : Prop :=
  task.tDarwin = true → closes task.tDarwinFiles (range darwinNofile) = 0

theorem Reaper.Sound.closed (sound : s.Sound l) (member : z ∈ l) (body : s.threads z = some b) :
    (s.tasks b.thTask).Closed := by
  obtain ⟨b', body', -, free⟩ := sound.dead z member
  cases body.symm.trans body'
  exact free

/-- One task changes, with the threads that belong to it. -/
theorem Reaper.Sound.change {threads : Nat → Option Body} (sound : s.Sound l) (once : l'.Nodup)
    (dead : ∀ y ∈ l', y ∈ l ∧ threads y = s.threads y ∧ ∀ b, s.threads y = some b → b.thTask = t →
      task.Closed)
    (distinct : task.tThreads.Nodup)
    (here : ∀ y, y ∈ task.tThreads ↔ ∃ b, threads y = some b ∧ b.thTask = t)
    (there : ∀ t' y, t' ≠ t →
      ((∃ b, s.threads y = some b ∧ b.thTask = t') ↔ ∃ b, threads y = some b ∧ b.thTask = t'))
    (counted : task.tThreads.length ≤ task.tRefs)
    (single : task.tDarwin = true → task.tThreads.length ≤ 1) :
    Reaper.Sound { s.setTask t task with threads := threads } l' := by
  refine ⟨once, ?_, ?_, ?_, ?_, ?_, sound.unlocked⟩
  · intro y member
    obtain ⟨old, same, closed⟩ := dead y member
    obtain ⟨b, body, unnoted, free⟩ := sound.dead y old
    refine ⟨b, same.trans body, unnoted, ?_⟩
    unfold Reaper.setTask
    dsimp only
    rw [update_apply]
    split
    next here => exact closed b body here
    · exact free
  all_goals
    intro t'
    unfold Reaper.setTask
    dsimp only
    rw [update_apply]
    split
  · exact distinct
  · exact sound.distinct t'
  · next same => exact same ▸ here
  · next other => exact fun y => (sound.belongs t' y).trans (there t' y other)
  · exact counted
  · exact sound.counted t'
  · exact single
  · exact sound.single t'

theorem Reaper.Sound.setTask (sound : s.Sound l) (threads : task.tThreads = (s.tasks t).tThreads)
    (counted : task.tThreads.length ≤ task.tRefs)
    (single : task.tDarwin = true → task.tThreads.length ≤ 1)
    (closed : ∀ z ∈ l, ∀ b, s.threads z = some b → b.thTask = t → task.Closed) :
    (s.setTask t task).Sound l :=
  sound.change sound.once (fun y member => ⟨member, rfl, closed y member⟩)
    (threads ▸ sound.distinct t)
    (threads ▸ sound.belongs t) (fun _ _ _ => Iff.rfl) counted single

theorem Reaper.Sound.detach {files : Nat → DarwinOfile} (sound : s.Sound (z :: l))
    (body : s.threads z = some b)
    (kept : (s.tasks b.thTask).tRefs ≠ 1 → files = (s.tasks b.thTask).tDarwinFiles) :
    Reaper.Sound { s.setTask b.thTask ((s.tasks b.thTask).without z files) with
      threads := update s.threads z none } l := by
  obtain ⟨fresh, once⟩ := nodup_cons.mp sound.once
  have own := (sound.belongs _ z).mpr ⟨b, body, rfl⟩
  have length := length_erase_of_mem own
  have counted := sound.counted b.thTask
  have distinct := sound.distinct b.thTask
  unfold Task.without
  refine sound.change once (fun y member => ⟨mem_cons_of_mem z member, ?_, fun c dead same => ?_⟩)
    (distinct.erase z)
    (fun y => ?_) (fun t y elsewhere => ?_) (by dsimp only; omega) (fun darwin => ?_)
  · exact update_of_ne (fun same : y = z => fresh (same ▸ member)) ..
  · -- another zombie of the task, which then has more than one reference
    have other : y ∈ (s.tasks b.thTask).tThreads.erase z := by
      rw [distinct.mem_erase_iff, sound.belongs]
      exact ⟨fun same => fresh (same ▸ member), c, dead, same⟩
    have more := length_pos_of_mem other
    rw [kept (by omega)]
    exact same ▸ sound.closed (mem_cons_of_mem z member) dead
  · dsimp only
    rw [distinct.mem_erase_iff, sound.belongs, update_apply]
    split
    next same => simp [same]
    next other => simp [other]
  · rw [update_apply]
    split
    next same =>
      subst same
      simp [body, Ne.symm elsewhere]
    · exact Iff.rfl
  · have one := sound.single b.thTask darwin
    dsimp only
    omega

/-- What a reap lets go of depends on the threads, the references and the entries. -/
theorem dying_positive {t : Nat} (member : t ∈ s.dying refs zombies) : 0 < refs t := by
  induction zombies generalizing refs with
  | nil => cases member
  | cons z rest ih =>
  unfold Reaper.dying at member
  split at member
  · exact ih member
  next b body =>
  split at member
  · exact ih member
  have later (member : t ∈ s.dying (update refs b.thTask (refs b.thTask - 1)) rest) :
      0 < refs t := by
    have positive := ih member
    rw [update_apply] at positive
    split at positive
    next here =>
      rw [here]
      omega
    · exact positive
  dsimp only at member
  split at member
  next last =>
    rcases mem_cons.mp member with rfl | more
    · omega
    · exact later more
  · exact later member

/-- A zombie that somebody still has to wake waits for the next reap. -/
theorem reapOne_held (lock : ExitRun Unit) (sound : s.Sound (z :: rest ++ s.zombieHead))
    (light : s.Light (z :: rest)) (body : s.threads z = some b) (held : b.thWakeHold ≠ 0) :
    ∃ s', reapOne lock z s = (.ok (), s') ∧ s'.Sound (rest ++ s'.zombieHead) ∧ s'.Light rest := by
  refine ⟨{ s with zombieHead := z :: s.zombieHead }, ?_, ?_, ?_⟩
  · unfold reapOne
    rw [read_bind, body]
    dsimp only
    rw [if_pos held]
    rfl
  · have moved := sound.perm perm_middle.symm
    exact { moved with }
  have dying (refs : Nat → Nat) : s.dying refs (z :: rest) = s.dying refs rest := by
    rw [Reaper.dying, body]
    dsimp only
    rw [if_pos held]
  have light' : s.Light rest := by
    refine ⟨fun o alive => ?_, fun t going => light.files t (dying _ ▸ going)⟩
    have more := light.mapped o alive
    rwa [Reaper.lost, dying] at more
  exact light'.congr rfl rfl rfl

theorem Reaper.lost_cons (body : s.threads z = some b) (unheld : b.thWakeHold = 0) :
    s.lost (z :: rest) = (if (s.tasks b.thTask).tRefs = 1 then s.mapped b.thTask else []) ++
      (s.dying (update (fun t => (s.tasks t).tRefs) b.thTask ((s.tasks b.thTask).tRefs - 1))
        rest).flatMap s.mapped := by
  unfold Reaper.lost
  rw [dying_cons body unheld, flatMap_append]
  split
  · rw [flatMap_singleton]
  · rfl

/-- One zombie of a sound list: the reap goes on without having looked at `fs_lock`, and what
remains is as good as what there was. -/
theorem reapOne_sound (lock : ExitRun Unit) (sound : s.Sound (z :: rest ++ s.zombieHead))
    (light : s.Light (z :: rest)) :
    ∃ s', reapOne lock z s = (.ok (), s') ∧ s'.Sound (rest ++ s'.zombieHead) ∧ s'.Light rest := by
  obtain ⟨b, body, unnoted, closed⟩ := sound.dead z mem_cons_self
  have fresh := (nodup_cons.mp sound.once).1
  by_cases unheld : b.thWakeHold = 0
  · have member := (sound.belongs _ z).mpr ⟨b, body, rfl⟩
    have counted := sound.counted b.thTask
    have length := length_erase_of_mem member
    have positive := length_pos_of_mem member
    have dying : s.dying (fun t => (s.tasks t).tRefs) (z :: rest) = _ := dying_cons body unheld
    have lost : s.lost (z :: rest) = _ := Reaper.lost_cons body unheld
    obtain ⟨files, s', run, kept, drops⟩ := reapOne_drops lock body unheld unnoted (by omega)
      (fun last => eq_nil_of_length_eq_zero (by omega)) (fun last => by
        cases darwin : (s.tasks b.thTask).tDarwin with
        | true => exact closed darwin
        | false =>
          refine light.files _ ?_ darwin
          rw [dying, if_pos last]
          exact mem_append_left _ mem_cons_self) (fun last o alive => by
        have more := light.mapped o alive
        rw [lost, if_pos last, count_append] at more
        omega)
    have tasks : s'.tasks = update s.tasks b.thTask ((s.tasks b.thTask).without z files) := by
      rw [drops.same]
      rfl
    have refs : (fun t => (s'.tasks t).tRefs) = update (fun t => (s.tasks t).tRefs) b.thTask
        ((s.tasks b.thTask).tRefs - 1) := by
      funext t
      rw [tasks, update_apply, update_apply]
      split <;> rfl
    have mapped : s'.mapped = s.mapped := by
      funext t
      unfold Reaper.mapped
      rw [tasks, update_apply]
      split
      · rfl
      · split
        next here => rw [here]; rfl
        · rfl
    have later : s'.dying (fun t => (s'.tasks t).tRefs) rest =
      s.dying (update (fun t => (s.tasks t).tRefs) b.thTask
        ((s.tasks b.thTask).tRefs - 1)) rest := by
      rw [refs, dying_congr (s := s)]
      intro y queued
      have other : y ≠ z := by
        rintro rfl
        exact fresh (mem_append_left _ queued)
      rw [drops.same]
      exact update_of_ne other ..
    refine ⟨s', run, ?_, ⟨fun o alive => ?_, fun t going => ?_⟩⟩
    · have head : s'.zombieHead = s.zombieHead := by
        rw [drops.same]
        rfl
      rw [head]
      exact (sound.detach body kept).objects drops.same
    · have more := light.mapped o (drops.handle o ▸ alive)
      rw [lost, count_append] at more
      rw [Reaper.lost, later, mapped, drops.refs]
      change _ < (s.objects o).voRefs - _
      omega
    · -- a task that goes later has not gone yet, and has the descriptors it had
      rw [later] at going
      have left := dying_positive going
      have files' : (s'.tasks t).tDarwinFiles = (s.tasks t).tDarwinFiles ∧
          (s'.tasks t).tDarwin = (s.tasks t).tDarwin := by
        rw [tasks, update_apply]
        split
        next here =>
          subst here
          rw [update_self] at left
          exact ⟨kept (by omega), rfl⟩
        · exact ⟨rfl, rfl⟩
      rw [files'.1, files'.2]
      refine light.files t ?_
      rw [dying]
      exact mem_append_right _ going
  · exact reapOne_held lock sound light body unheld

theorem reapAll_sound (lock : ExitRun Unit) (sound : s.Sound (zombies ++ s.zombieHead))
    (light : s.Light zombies) :
    ∃ s', reapAll lock zombies s = (.ok (), s') ∧ s'.Sound s'.zombieHead := by
  induction zombies generalizing s with
  | nil => exact ⟨s, rfl, sound⟩
  | cons z rest ih =>
    obtain ⟨s₁, run₁, sound₁, light₁⟩ := reapOne_sound lock sound light
    obtain ⟨s₂, run₂, sound₂⟩ := ih sound₁ light₁
    exact ⟨s₂, (bind_of_ok run₁).trans run₂, sound₂⟩

theorem schedReapZombies_sound (lock : ExitRun Unit) (sound : s.Sound s.zombieHead)
    (light : s.Light s.zombieHead) :
    ∃ s', schedReapZombies lock s = (.ok (), s') ∧ s'.Sound s'.zombieHead := by
  let s₁ : Reaper := { s with zombieHead := [] }
  have sound₁ : s₁.Sound (s.zombieHead ++ s₁.zombieHead) := by
    rw [append_nil]
    exact { sound with }
  exact reapAll_sound lock sound₁ (light.congr rfl rfl rfl)

/-! ### The kernel around the reaper -/

inductive Change where
  /-- A new thread is attached; Darwin tasks have one. -/
  | attach (t z : Nat)
  /-- References of other holders come and go. -/
  | refs (t n : Nat)
  /-- A new task or the caller of `execve` is loaded with an image, which says whether it is Darwin.
  -/
  | load (t : Nat) (darwin : Bool)
  /-- A running thread of a Darwin task opens or closes a descriptor. -/
  | file (z i : Nat) (of : DarwinOfile)
  /-- Maps and objects change: `mmap`, `munmap`, `fork`, `execve`. -/
  | remap (t : Nat) (entries : List (Option Nat)) (objects : Nat → VmObject)
  /-- A waker takes or drops its hold. -/
  | hold (z n : Nat)
  /-- A running thread notes a list, or forgets it. -/
  | note (z : Nat) (noted : Bool)
  /-- `thread_exit` of a running thread, to its end. -/
  | exit (z : Nat) (e : Surroundings) (fuel : Nat)
  /-- `sched_reap_zombies`, to its end. -/
  | reap (c : Context) (fuel : Nat)

def Reaper.running (s : Reaper) (z : Nat) : Option Body :=
  if z ∈ s.zombieHead then none else s.threads z

/-- A thread that has become a zombie, with these descriptors left. -/
def Reaper.bury (s : Reaper) (z : Nat) (b : Body) (files : Nat → DarwinOfile) : Reaper :=
  { s.setTask b.thTask { s.tasks b.thTask with tDarwinFiles := files } with
    threads := update s.threads z (some { b with thWaitQlock := false })
    zombieHead := z :: s.zombieHead }

/-- The thread that enters `thread_exit`. -/
def Reaper.exiting (s : Reaper) (b : Body) : Exiting where
  files := (s.tasks b.thTask).tDarwinFiles
  thMutexDepth := 0
  thWaitQlock := b.thWaitQlock
  looks := 0
  calls := 0
  log := []

def Reaper.next (s : Reaper) : Change → Option Reaper
  | .attach t z =>
    if (s.threads z).isNone ∧ ((s.tasks t).tDarwin = true → (s.tasks t).tThreads = []) then
      some { s.setTask t { s.tasks t with
            tThreads := z :: (s.tasks t).tThreads, tRefs := (s.tasks t).tRefs + 1 } with
        threads := update s.threads z (some ⟨t, 0, false⟩) }
    else none
  | .refs t n => if (s.tasks t).tThreads.length ≤ n
    then some (s.setTask t { s.tasks t with tRefs := n }) else none
  | .load t darwin =>
    if (s.tasks t).tThreads.length ≤ 1 ∧ ∀ z ∈ (s.tasks t).tThreads, z ∉ s.zombieHead then
      some (s.setTask t { s.tasks t with tDarwin := darwin })
    else none
  | .file z i of =>
    (s.running z).bind fun b =>
      if (s.tasks b.thTask).tDarwin then
        some (s.setTask b.thTask { s.tasks b.thTask with
          tDarwinFiles := update (s.tasks b.thTask).tDarwinFiles i of })
      else none
  | .remap t entries objects =>
    some { s.setTask t { s.tasks t with vmHead := entries } with objects := objects }
  | .hold z n =>
    (s.threads z).map fun b =>
      { s with threads := update s.threads z (some { b with thWakeHold := n }) }
  | .note z noted =>
    (s.running z).map fun b =>
      { s with threads := update s.threads z (some { b with thWaitQlock := noted }) }
  | .exit z e fuel =>
    (s.running z).bind fun b =>
      if (s.tasks b.thTask).tDarwin && (s.tasks b.thTask).tThreads.length == 1 then
        match threadExit (mutexLock e fuel) (s.exiting b) with
        | (.error .handedOff, s') => some (s.bury z b s'.files)
        | _ => none
      else some (s.bury z b (s.tasks b.thTask).tDarwinFiles)
  | .reap c fuel =>
    match schedReapZombies (reaperLock c fuel) s with
    | (.ok (), s') => some s'
    | _ => none

theorem Reaper.Sound.setThread {c : Body} (sound : s.Sound l) (body : s.threads z = some b)
    (task : c.thTask = b.thTask) (unnoted : z ∈ l → c.thWaitQlock = false) :
    Reaper.Sound { s with threads := update s.threads z (some c) } l := by
  refine { sound with dead := ?_, belongs := ?_ }
  · intro y member
    obtain ⟨a, dead, forgotten, free⟩ := sound.dead y member
    dsimp only
    rw [update_apply]
    split
    next here =>
      subst here
      cases dead.symm.trans body
      exact ⟨c, rfl, unnoted member, task ▸ free⟩
    · exact ⟨a, dead, forgotten, free⟩
  intro t y
  rw [sound.belongs]
  dsimp only
  rw [update_apply]
  split
  next here => simp [here, body, task]
  · exact Iff.rfl

theorem Reaper.Sound.cons (sound : s.Sound l) (fresh : z ∉ l) (body : s.threads z = some b)
    (unnoted : b.thWaitQlock = false) (closed : (s.tasks b.thTask).Closed) : s.Sound (z :: l) := by
  refine { sound with once := nodup_cons.mpr ⟨fresh, sound.once⟩, dead := ?_ }
  intro y member
  rcases mem_cons.mp member with rfl | member
  · exact ⟨b, body, unnoted, closed⟩
  · exact sound.dead y member

theorem Reaper.Sound.setZombies {head : List Nat} (sound : s.Sound l) :
    Reaper.Sound { s with zombieHead := head } l :=
  { sound with }

theorem Reaper.running_eq (running : s.running z = some b) :
    z ∉ s.zombieHead ∧ s.threads z = some b := by
  unfold Reaper.running at running
  split at running
  · cases running
  next alive => exact ⟨alive, running⟩

theorem Reaper.Sound.bury {files : Nat → DarwinOfile} (sound : s.Sound s.zombieHead)
    (running : s.running z = some b)
    (closed : (s.tasks b.thTask).tDarwin = true → closes files (range darwinNofile) = 0) :
    (s.bury z b files).Sound (s.bury z b files).zombieHead := by
  obtain ⟨fresh, body⟩ := Reaper.running_eq running
  let s₁ := s.setTask b.thTask { s.tasks b.thTask with tDarwinFiles := files }
  have table : s₁.tasks b.thTask = { s.tasks b.thTask with tDarwinFiles := files } := update_self ..
  have sound₁ : s₁.Sound s.zombieHead :=
    sound.setTask rfl (sound.counted _) (sound.single _) fun _ _ _ _ _ => closed
  have forgotten := sound₁.setThread (c := { b with thWaitQlock := false }) body rfl fun _ => rfl
  have dead := forgotten.cons fresh (update_self ..) rfl (by
    rw [table]
    exact closed)
  exact dead.setZombies

theorem Reaper.Sound.attach (sound : s.Sound l) (unknown : s.threads z = none)
    (single : (s.tasks t).tDarwin = true → (s.tasks t).tThreads = []) :
    Reaper.Sound { s.setTask t { s.tasks t with
          tThreads := z :: (s.tasks t).tThreads, tRefs := (s.tasks t).tRefs + 1 } with
      threads := update s.threads z (some ⟨t, 0, false⟩) } l := by
  have stranger : ∀ t', z ∉ (s.tasks t').tThreads := by
    intro t' member
    obtain ⟨b, body, -⟩ := (sound.belongs t' z).mp member
    cases unknown.symm.trans body
  refine sound.change sound.once (fun y member => ⟨member, ?_, fun b dead same => ?_⟩)
    (nodup_cons.mpr ⟨stranger t, sound.distinct t⟩) (fun y => ?_) (fun t' y elsewhere => ?_)
    (Nat.succ_le_succ (sound.counted t)) (fun darwin => ?_)
  · refine update_of_ne ?_ ..
    rintro rfl
    obtain ⟨b, body, -⟩ := sound.dead y member
    cases unknown.symm.trans body
  · exact same ▸ sound.closed member dead
  · dsimp only
    rw [mem_cons, sound.belongs, update_apply]
    split
    next same => simp [same]
    next other => simp [other]
  · rw [update_apply]
    split
    next same => simp [same, unknown, Ne.symm elsewhere]
    · exact Iff.rfl
  · dsimp only
    rw [single darwin]
    exact le_refl 1

/-- What a step keeps, a reap under the condition that it has no file of the live volume to close.
-/
theorem Reaper.Sound.next {e : Change} (sound : s.Sound s.zombieHead) (step : s.next e = some s')
    (light : ∀ c fuel, e = .reap c fuel → s.Light s.zombieHead) : s'.Sound s'.zombieHead := by
  -- a task whose descriptors stay as they are
  have same : ∀ t (task : Task), task.tDarwinFiles = (s.tasks t).tDarwinFiles →
    task.tDarwin = (s.tasks t).tDarwin →
      ∀ z ∈ s.zombieHead, ∀ b, s.threads z = some b → b.thTask = t → task.Closed := by
    rintro t task files darwin z dead b body rfl
    unfold Task.Closed
    rw [files, darwin]
    exact sound.closed dead body
  cases e with
  | attach t z =>
    obtain ⟨new, is⟩ := ite_none_right_eq_some.mp step
    cases is
    exact sound.attach (isNone_iff_eq_none.mp new.1) new.2
  | refs t n =>
    obtain ⟨enough, is⟩ := ite_none_right_eq_some.mp step
    cases is
    exact sound.setTask rfl enough (sound.single t) (same t _ rfl rfl)
  | load t darwin =>
    obtain ⟨⟨one, alive⟩, is⟩ := ite_none_right_eq_some.mp step
    cases is
    refine sound.setTask rfl (sound.counted t) (fun _ => one) fun z dead b body here => ?_
    exact absurd dead (alive z ((sound.belongs t z).mpr ⟨b, body, here⟩))
  | file z i of =>
    obtain ⟨b, running, step⟩ := bind_eq_some_iff.mp step
    split at step
    next darwin =>
      cases step
      obtain ⟨alive, body⟩ := Reaper.running_eq running
      refine sound.setTask rfl (sound.counted _) (sound.single _) fun y dead a body' here => ?_
      -- the task's only thread is the one that runs
      have own := (sound.belongs _ z).mpr ⟨b, body, rfl⟩
      have too := (sound.belongs _ y).mpr ⟨a, body', here⟩
      obtain ⟨only, list⟩ := length_eq_one_iff.mp
        (le_antisymm (sound.single _ darwin) (length_pos_of_mem own))
      rw [list, mem_singleton] at own too
      rw [own, ← too] at alive
      exact absurd dead alive
    · cases step
  | remap t entries objects =>
    cases step
    have mapped : (s.setTask t { s.tasks t with vmHead := entries }).Sound s.zombieHead :=
      sound.setTask rfl (sound.counted t) (sound.single t) (same t _ rfl rfl)
    exact mapped.objects rfl
  | hold z n =>
    obtain ⟨b, body, rfl⟩ := map_eq_some_iff.mp step
    refine sound.setThread (c := { b with thWakeHold := n }) body rfl fun dead => ?_
    obtain ⟨b', body', unnoted, -⟩ := sound.dead z dead
    cases body.symm.trans body'
    exact unnoted
  | note z noted =>
    obtain ⟨b, running, rfl⟩ := map_eq_some_iff.mp step
    obtain ⟨alive, body⟩ := Reaper.running_eq running
    exact sound.setThread (c := { b with thWaitQlock := noted }) body rfl fun dead =>
      absurd dead alive
  | exit z e fuel =>
    obtain ⟨b, running, step⟩ := bind_eq_some_iff.mp step
    split at step
    · split at step
      next s₁ left =>
        cases step
        refine sound.bury running fun _ => countP_eq_zero.mpr fun i member => ?_
        simpa using DarwinOfile.not_closes (threadExit_bare left i (mem_range.mp member))
      · cases step
    next other =>
    cases step
    obtain ⟨-, body⟩ := Reaper.running_eq running
    refine sound.bury running fun darwin => ?_
    -- more than one thread, or none, is not how a Darwin task exits
    have own := (sound.belongs _ z).mpr ⟨b, body, rfl⟩
    have one := le_antisymm (sound.single _ darwin) (length_pos_of_mem own)
    rw [darwin, one] at other
    exact absurd rfl other
  | reap c fuel =>
  obtain ⟨s₁, run, sound₁⟩ := schedReapZombies_sound (reaperLock c fuel) sound (light c fuel rfl)
  simp only [Reaper.next, run] at step
  cases step
  exact sound₁

end Style9.Sched
