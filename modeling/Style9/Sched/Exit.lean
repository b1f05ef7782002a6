import Mathlib.Algebra.Order.Group.Nat
import Mathlib.Data.List.Basic
import Style9.Lib.Hoare

/-!
# The exit of a killed task

`thread_exit` closes the files of a Darwin task's last thread, and closing a file takes `fs_lock`. A
thread that finds the lock owned goes into the park, and the park retires a killed thread that owns
no mutex: it calls `thread_exit` again, on top of the one that is closing the files. The new call
starts over at the first slot and comes to the same file, and so on for as long as the lock is
owned.

The other threads are known here by what this one finds when it looks at `fs_lock`.
-/
namespace Style9.Sched

open Style9.Lib Function List Act Nat

/-! ### Descriptors -/

/-- `FS_HANDLE_*`. -/
inductive HandleKind where
  | none
  | apfs
  | fat
  deriving DecidableEq

/-- `struct fs_handle`: the stream its bytes are keyed on, the inode, the length and the generation
it was read at, and the checkpoint it reads, zero for the live volume. -/
structure FsHandle where
  fhKind : HandleKind
  fhId : Nat
  fhSize : Nat
  fhIno : Nat
  fhGen : Nat
  fhXid : Nat
  deriving DecidableEq

def FsHandle.empty : FsHandle := ⟨.none, 0, 0, 0, 0, 0⟩

/-- A hold on a file of the live volume, the only kind `fs_close` has to give back. -/
def FsHandle.live (h : FsHandle) : Bool := h.fhKind == .apfs && h.fhXid == 0

/-- `DARWIN_OF_*`. -/
inductive OfType where
  | free
  | file
  | console
  | pipeR
  | pipeW
  | dir
  | null
  | random
  deriving DecidableEq

/-- `struct darwin_ofile`; pointers are numbers. -/
structure DarwinOfile where
  ofType : OfType
  ofHandle : FsHandle
  ofPipe : Nat
  ofFoff : Option Nat
  ofBuf : Option Nat
  ofPath : Option Nat
  deriving DecidableEq

def DarwinOfile.cleared : DarwinOfile := ⟨.free, .empty, 0, none, none, none⟩

def darwinNofile : Nat := 16

/-- What is given back when a descriptor goes. -/
inductive Release where
  | fsClose (h : FsHandle)
  | pipeDrop (p : Nat) (writer : Bool)
  | foffDrop (fo : Nat)
  | kfree (p : Nat)
  deriving DecidableEq

/-! ### The thread -/

/-- How the code of an exiting thread ends: it never returns. -/
inductive Stop where
  /-- `sched_handoff_zombie`. -/
  | handedOff
  /-- `thread_wait_note`: still noted on another list. -/
  | stillNoted
  /-- `thread_exit`: dying with a mutex still held. -/
  | mutexHeld
  /-- `mutex_lock`: the owner asks again. -/
  | recursive
  /-- `thread_block_release`: idle cannot block. -/
  | idleBlocks
  /-- The bound of the model, not of the source. -/
  | outOfFuel
  deriving DecidableEq

/-- The exiting thread and its task. `looks` counts its tests of the owner of `fs_lock`, `calls` the
activations of `thread_exit` on its stack. -/
structure Exiting where
  files : Nat → DarwinOfile
  thMutexDepth : Nat
  thWaitQlock : Bool
  looks : Nat
  calls : Nat
  log : List (Nat × Release)

abbrev ExitRun : Type → Type := Act Exiting Stop

/-- What the thread finds at each look at `fs_lock`, and whether its task has been killed. -/
structure Surroundings where
  busy : Nat → Bool
  tKilled : Bool

def release (i : Nat) (r : Release) : ExitRun Unit :=
  modify fun s => { s with log := s.log ++ [(i, r)] }

def releaseSome (i : Nat) (p : Option Nat) (f : Nat → Release) : ExitRun Unit :=
  match p with
  | none => pure ()
  | some p => release i (f p)

variable (lock : ExitRun Unit)

/-- `fs_close` under a lock: a hold on the live volume is dropped under `fs_lock`. -/
def fsClose (i : Nat) (h : FsHandle) : ExitRun Unit :=
  if h.live then do
    lock
    release i (.fsClose h)
    modify fun s => { s with thMutexDepth := s.thMutexDepth - 1 }
  else pure ()

/-- The switch of `darwin_ofile_clear`. -/
def ofileRelease (i : Nat) (of : DarwinOfile) : ExitRun Unit :=
  match of.ofType with
  | .dir | .file => do
    fsClose lock i of.ofHandle
    releaseSome i of.ofBuf .kfree
    releaseSome i of.ofPath .kfree
  | .pipeR => release i (.pipeDrop of.ofPipe false)
  | .pipeW => release i (.pipeDrop of.ofPipe true)
  | _ => pure ()

def darwinOfileClear (i : Nat) : ExitRun Unit := do
  let of ← read fun s => s.files i
  ofileRelease lock i of
  releaseSome i of.ofFoff .foffDrop
  modify fun s => { s with files := update s.files i .cleared }

/-- The loop of `darwin_files_teardown`. -/
def clearSlots (lock : ExitRun Unit) : List Nat → ExitRun Unit
  | [] => pure ()
  | i :: rest => do
    let of ← read fun s => s.files i
    if of.ofType = .free then clearSlots lock rest
    else do
      darwinOfileClear lock i
      clearSlots lock rest

/-- `thread_exit` of a Darwin task's last thread. -/
def threadExit : ExitRun Unit := do
  modify fun s => { s with calls := s.calls + 1 }
  guard (fun s => s.thMutexDepth == 0) .mutexHeld
  clearSlots lock (range darwinNofile)
  modify fun s => { s with thWaitQlock := false }
  fail .handedOff

/-- `mutex_lock` on `fs_lock`: the note, the park and its kill check. -/
def mutexLock (e : Surroundings) : Nat → ExitRun Unit
  | 0 => fail .outOfFuel
  | n + 1 => do
    let k ← read fun s => s.looks
    modify fun s => { s with looks := s.looks + 1 }
    if e.busy k then do
      -- the note made here is taken back on both ways out: before the retirement, or after the park
      guard (fun s => !s.thWaitQlock) .stillNoted
      let depth ← read fun s => s.thMutexDepth
      if e.tKilled ∧ depth = 0 then threadExit (mutexLock e n)
      else mutexLock e n
    else modify fun s => { s with thMutexDepth := s.thMutexDepth + 1 }

/-! ### What a table owes -/

def owedSome (p : Option Nat) (f : Nat → Release) : List Release := (p.map f).toList

/-- The file or the pipe end behind an occupied slot. -/
def DarwinOfile.owesKind (of : DarwinOfile) : List Release :=
  match of.ofType with
  | .dir | .file =>
    (if of.ofHandle.live then [.fsClose of.ofHandle] else []) ++
      (owedSome of.ofBuf .kfree ++ owedSome of.ofPath .kfree)
  | .pipeR => [.pipeDrop of.ofPipe false]
  | .pipeW => [.pipeDrop of.ofPipe true]
  | _ => []

/-- What a slot has to give back, each thing once. -/
def DarwinOfile.owes (of : DarwinOfile) : List Release :=
  if of.ofType = .free then [] else of.owesKind ++ owedSome of.ofFoff .foffDrop

def owedAt (files : Nat → DarwinOfile) (i : Nat) : List (Nat × Release) := (files i).owes.map (i, ·)

/-- What the slots of a table still have to give back. -/
def owedFrom (files : Nat → DarwinOfile) (slots : List Nat) : List (Nat × Release) :=
  slots.flatMap (owedAt files)

/-- A file of the live volume, which is closed under `fs_lock`. -/
def DarwinOfile.Closes (of : DarwinOfile) : Prop :=
  (of.ofType = .dir ∨ of.ofType = .file) ∧ of.ofHandle.live = true

instance (of : DarwinOfile) : Decidable of.Closes := inferInstanceAs (Decidable (_ ∧ _))

theorem DarwinOfile.not_closes {of : DarwinOfile} (free : of.ofType = .free) : ¬ of.Closes := by
  rintro ⟨dir | file, -⟩
  · cases dir.symm.trans free
  · cases file.symm.trans free

/-- How many slots are closed under `fs_lock`. -/
def closes (files : Nat → DarwinOfile) (slots : List Nat) : Nat :=
  slots.countP fun i => (files i).Closes

/-- The slots of a table that has nothing left. -/
def Exiting.Bare (s : Exiting) : Prop := ∀ i < darwinNofile, (s.files i).ofType = .free

variable {e : Surroundings} {s s' s'' : Exiting} {i n c c' : Nat} {files : Nat → DarwinOfile}
  {lock : ExitRun Unit}

theorem free_update (earlier : ∀ j < i, (files j).ofType = .free) :
    ∀ j < i + 1, (update files i .cleared j).ofType = .free := by
  refine forall_lt_succ_right.mpr ⟨fun j below => ?_, by rw [update_self]; rfl⟩
  rw [update_of_ne (by omega)]
  exact earlier j below

/-- Clearing a slot is nothing to the others. -/
theorem later_update :
    owedFrom (update files i .cleared) (range' (i + 1) n) = owedFrom files (range' (i + 1) n) ∧
    closes (update files i .cleared) (range' (i + 1) n) = closes files (range' (i + 1) n) := by
  have other : ∀ j ∈ range' (i + 1) n, update files i .cleared j = files j := by
    intro j member
    have low := (mem_range'_1.mp member).1
    exact update_of_ne (by omega) ..
  refine ⟨flatMap_congr fun j member => ?_, countP_congr fun j member => ?_⟩
  · unfold owedAt
    rw [other j member]
  · rw [other j member]

/-! ### Whatever the schedule -/

/-- If the exit has been seen through, no slot is left; and no activation of `thread_exit` is lost.
-/
def Emptied (s : Exiting) (why : Stop) (s' : Exiting) : Prop :=
  s.calls ≤ s'.calls ∧ (why = .handedOff → s'.Bare)

/-- A piece of the exit comes back with the table as it was and no further activation. -/
def Spares (x : ExitRun Unit) : Prop :=
  ∀ s, x.Ends s (fun _ s' => s'.files = s.files ∧ s'.calls = s.calls) (Emptied s)

theorem Spares.pure : Spares (pure ()) := fun _ => .pure ⟨rfl, rfl⟩

theorem Spares.modify {f : Exiting → Exiting}
    (same : ∀ s, (f s).files = s.files ∧ (f s).calls = s.calls) :
    Spares (modify f) :=
  fun s => .of_ok rfl (same s)

theorem Emptied.congr {why : Stop} (calls : s'.calls = s.calls) (emptied : Emptied s' why s'') :
    Emptied s why s'' :=
  ⟨calls ▸ emptied.1, emptied.2⟩

theorem Spares.bind {x y : ExitRun Unit} (first : Spares x) (second : Spares y) :
    Spares (x >>= fun _ => y) :=
  fun s => (first s).bind fun _ s' same => (second s').mono
    (fun _ _ more => ⟨more.1.trans same.1, more.2.trans same.2⟩) fun _ _ => Emptied.congr same.2

theorem releaseSome_spares (p : Option Nat) (f : Nat → Release) : Spares (releaseSome i p f) := by
  cases p with
  | none => exact .pure
  | some p => exact .modify fun _ => ⟨rfl, rfl⟩

theorem fsClose_spares (h : FsHandle) (spares : Spares lock) : Spares (fsClose lock i h) := by
  unfold fsClose
  split
  · exact spares.bind (.bind (.modify fun _ => ⟨rfl, rfl⟩) (.modify fun _ => ⟨rfl, rfl⟩))
  · exact .pure

theorem ofileRelease_spares (of : DarwinOfile) (spares : Spares lock) :
    Spares (ofileRelease lock i of) := by
  have file : Spares (do
      fsClose lock i of.ofHandle
      releaseSome i of.ofBuf .kfree
      releaseSome i of.ofPath .kfree) :=
    (fsClose_spares _ spares).bind ((releaseSome_spares _ _).bind (releaseSome_spares _ _))
  unfold ofileRelease
  split
  · exact file
  · exact file
  · exact .modify fun _ => ⟨rfl, rfl⟩
  · exact .modify fun _ => ⟨rfl, rfl⟩
  · exact .pure

theorem darwinOfileClear_spares (spares : Spares lock) :
    (darwinOfileClear lock i).Ends s (fun _ s' => s'.files = update s.files i .cleared ∧
      s'.calls = s.calls) (Emptied s) := by
  have gone :=
    (ofileRelease_spares (i := i) (s.files i) spares).bind
      (releaseSome_spares (i := i) (s.files i).ofFoff .foffDrop)
  refine .read_bind (.congr (congrFun (Act.bind_assoc ..).symm _) ((gone s).bind fun _ s₁ same =>
    .of_ok rfl ⟨?_, same.2⟩))
  exact congrArg (update · i .cleared) same.1

theorem clearSlots_bare (spares : Spares lock) (whole : i + n = darwinNofile)
    (earlier : ∀ j < i, (s.files j).ofType = .free) :
    (clearSlots lock (range' i n)).Ends s (fun _ s' => s'.Bare ∧
      s'.calls = s.calls) (Emptied s) := by
  induction n generalizing i s with
  | zero => exact .pure ⟨fun j below => earlier j (by omega), rfl⟩
  | succ n ih =>
  rw [range'_succ]
  refine .read_bind ?_
  split
  next free => exact ih (by omega) (forall_lt_succ_right.mpr ⟨earlier, free⟩)
  · refine (darwinOfileClear_spares spares).bind fun _ s₁ same => ?_
    refine (ih (by omega) (same.1 ▸ free_update earlier)).mono ?_ fun _ _ => Emptied.congr same.2
    exact fun _ _ done => ⟨done.1, done.2.trans same.2⟩

theorem threadExit_enter (empty : s.thMutexDepth = 0) : threadExit lock s =
    (clearSlots lock (range' 0 darwinNofile) >>= fun _ => do
      modify fun s => { s with thWaitQlock := false }
      fail .handedOff) { s with calls := s.calls + 1 } := by
  unfold threadExit
  rw [modify_bind]
  exact bind_of_ok (a := ()) (guard_ok_iff.mpr ⟨beq_iff_eq.mpr empty, rfl⟩)

/-- It never returns, and it counts. -/
theorem threadExit_counts (spares : Spares lock) (s : Exiting) :
    (threadExit lock).Ends s (fun _ _ => False) (Emptied { s with calls := s.calls + 1 }) := by
  refine .congr (modify_bind _ _ s) (.guard_bind ⟨le_rfl, nofun⟩ fun _ => ?_)
  rw [range_eq_range']
  refine (clearSlots_bare spares (zero_add _) nofun).bind fun _ _ done =>
    .of_error rfl ⟨?_, fun _ => done.1⟩
  exact done.2.ge

theorem threadExit_spares (spares : Spares lock) : Spares (threadExit lock) := fun s =>
  (threadExit_counts spares s).mono (fun _ _ => False.elim) fun _ _ emptied =>
    ⟨(le_succ _).trans emptied.1, emptied.2⟩

theorem mutexLock_spares (e : Surroundings) (n : Nat) : Spares (mutexLock e n) := by
  induction n with
  | zero => exact fun s => .of_error rfl ⟨le_rfl, nofun⟩
  | succ n ih =>
  refine fun s => .read_bind
    (Spares.bind (Spares.modify (f := fun s => { s with looks := s.looks + 1 }) fun _ =>
      ⟨rfl, rfl⟩) ?_ s)
  split
  · intro s
    refine .guard_bind ⟨le_rfl, nofun⟩ fun _ => .read_bind ?_
    split
    · exact threadExit_spares ih s
    · exact ih s
  · exact .modify fun _ => ⟨rfl, rfl⟩

/-- However long it waits and however often it starts over, an exit that reaches the hand-over
leaves no open slot. -/
theorem threadExit_bare (run : threadExit (mutexLock e n) s = (.error .handedOff, s')) : s'.Bare :=
  ((threadExit_spares (mutexLock_spares e n) s).error rfl run).2 rfl

/-! ### Closing the files -/

/-- Some releases of one slot, at the cost of some looks that all found the lock free. -/
structure Gives (e : Surroundings) (i c : Nat) (l : List Release) (s s' : Exiting) : Prop where
  files : s'.files = s.files
  log : s'.log = s.log ++ l.map (i, ·)
  calls : s'.calls = s.calls
  looks : s'.looks = s.looks + c
  free : ∀ k, s.looks ≤ k → k < s'.looks → e.busy k = false
  depth : s'.thMutexDepth = 0

/-- One of the next looks finds the lock owned, and if the exit is seen through, then by another
activation. -/
def Stuck (e : Surroundings) (c : Nat) (s : Exiting) (why : Stop) (s' : Exiting) : Prop :=
  (∃ k, s.looks ≤ k ∧ k < s.looks + c ∧ e.busy k = true) ∧ (why = .handedOff → s.calls < s'.calls)

/-- A lock attempt of a thread that owns nothing ends at its first look. -/
def Locks (e : Surroundings) (lock : ExitRun Unit) (s : Exiting) : Prop :=
  lock.Ends s (fun _ s' => e.busy s.looks = false ∧
    s' = { s with looks := s.looks + 1, thMutexDepth := 1 }) (Stuck e 1 s)

variable {l l' : List Release} {E : Stop → Exiting → Prop}

theorem Stuck.wider {why : Stop} (stuck : Stuck e c s why s') (more : c ≤ c') :
    Stuck e c' s why s' := by
  obtain ⟨⟨k, low, high, busy⟩, calls⟩ := stuck
  exact ⟨⟨k, low, by omega, busy⟩, calls⟩

theorem Stuck.after {why : Stop} (looks : s'.looks = s.looks + c) (calls : s'.calls = s.calls)
    (stuck : Stuck e c' s' why s'') : Stuck e (c + c') s why s'' := by
  obtain ⟨⟨k, low, high, busy⟩, more⟩ := stuck
  exact ⟨⟨k, by omega, by omega, busy⟩, calls ▸ more⟩

theorem Gives.nothing (empty : s.thMutexDepth = 0) : Gives e i 0 [] s s :=
  ⟨rfl, (append_nil _).symm, rfl, rfl, fun _ low high => absurd low (by omega), empty⟩

theorem Gives.trans (first : Gives e i c l s s') (second : Gives e i c' l' s' s'') :
    Gives e i (c + c') (l ++ l') s s'' := by
  have looks := second.looks
  rw [first.looks] at looks
  refine ⟨second.files.trans first.files, ?_, second.calls.trans first.calls, by omega,
    fun k low high => ?_, second.depth⟩
  · rw [second.log, first.log, map_append, append_assoc]
  · by_cases early : k < s'.looks
    · exact first.free k low early
    · exact second.free k (by omega) high

/-- A piece of the teardown of one slot. -/
abbrev Tears (e : Surroundings) (i c : Nat) (l : List Release) (x : ExitRun Unit)
    (s : Exiting) : Prop :=
  x.Ends s (fun _ => Gives e i c l s) (Stuck e c s)

theorem Tears.then {x y : ExitRun Unit} (first : Tears e i c l x s)
    (rest : ∀ s', s'.thMutexDepth = 0 → Tears e i c' l' y s') :
    Tears e i (c + c') (l ++ l') (x >>= fun _ => y) s :=
  (first.mono (fun _ _ => id) fun _ _ stuck => stuck.wider (Nat.le_add_right ..)).bind
    fun _ s' gives =>
    (rest s' gives.depth).mono (fun _ _ more => gives.trans more) fun _ _ stuck =>
      stuck.after gives.looks gives.calls

theorem release_tears (r : Release) (empty : s.thMutexDepth = 0) :
    Tears e i 0 [r] (release i r) s :=
  .of_ok rfl ⟨rfl, rfl, rfl, rfl, fun _ low high => absurd (lt_of_le_of_lt low high) (lt_irrefl _),
    empty⟩

theorem releaseSome_tears (p : Option Nat) (f : Nat → Release) (empty : s.thMutexDepth = 0) :
    Tears e i 0 (owedSome p f) (releaseSome i p f) s := by
  cases p with
  | none => exact .pure (.nothing empty)
  | some p => exact release_tears (f p) empty

theorem fsClose_tears {h : FsHandle} (empty : s.thMutexDepth = 0)
    (locks : h.live = true → Locks e lock s) :
    Tears e i (if h.live then 1 else 0) (if h.live then [.fsClose h]
      else []) (fsClose lock i h) s := by
  unfold fsClose
  split
  next live =>
    refine (locks live).bind ?_
    rintro _ _ ⟨free, rfl⟩
    refine .of_ok rfl ⟨rfl, rfl, rfl, rfl, fun k low high => ?_, rfl⟩
    obtain rfl : k = s.looks := le_antisymm (le_of_lt_succ high) low
    exact free
  · exact .pure (.nothing empty)

theorem ofileRelease_tears {of : DarwinOfile} (empty : s.thMutexDepth = 0)
    (locks : of.Closes → Locks e lock s) :
    Tears e i (if of.Closes then 1 else 0) of.owesKind (ofileRelease lock i of) s := by
  have file (kind : of.ofType = .dir ∨ of.ofType = .file) : Tears e i (if of.Closes then 1 else 0)
      ((if of.ofHandle.live then [.fsClose of.ofHandle] else []) ++
        (owedSome of.ofBuf .kfree ++ owedSome of.ofPath .kfree)) (do
        fsClose lock i of.ofHandle
        releaseSome i of.ofBuf .kfree
        releaseSome i of.ofPath .kfree) s := by
    have close := fsClose_tears (i := i) empty fun live => locks ⟨kind, live⟩
    have same : of.Closes ↔ of.ofHandle.live = true := and_iff_right kind
    simp only [same]
    exact close.then fun _ empty => (releaseSome_tears _ _ empty).then fun _ =>
      releaseSome_tears _ _
  have other (kind : ¬ (of.ofType = .dir ∨ of.ofType = .file)) : ¬ of.Closes :=
    fun closes => kind closes.1
  unfold ofileRelease DarwinOfile.owesKind
  cases kind : of.ofType with
  | dir => exact file (.inl kind)
  | file => exact file (.inr kind)
  | pipeR | pipeW =>
    rw [if_neg (other (by simp [kind]))]
    exact release_tears _ empty
  | free | console | null | random =>
    rw [if_neg (other (by simp [kind]))]
    exact .pure (.nothing empty)

/-- What closing some slots has done. -/
structure Closed (e : Surroundings) (slots : List Nat) (s s' : Exiting) : Prop where
  log : s'.log = s.log ++ owedFrom s.files slots
  calls : s'.calls = s.calls
  looks : s'.looks = s.looks + closes s.files slots
  free : ∀ k, s.looks ≤ k → k < s'.looks → e.busy k = false

theorem clearSlots_ends (empty : s.thMutexDepth = 0)
    (locks : closes s.files (range' i n) ≠ 0 → ∀ s', s'.thMutexDepth = 0 → Locks e lock s') :
    (clearSlots lock (range' i n)).Ends s (fun _ => Closed e (range' i n) s)
      (Stuck e (closes s.files (range' i n)) s) := by
  induction n generalizing i s with
  | zero => exact .pure ⟨(append_nil _).symm, rfl, rfl, fun _ low high => absurd low (by omega)⟩
  | succ n ih =>
  have split : closes s.files (range' i (n + 1)) =
      (if (s.files i).Closes then 1 else 0) + closes s.files (range' (i + 1) n) := by
    unfold closes
    rw [range'_succ, countP_cons, add_comm]
    simp only [decide_eq_true_eq]
  rw [split] at locks ⊢
  rw [range'_succ]
  refine .read_bind ?_
  split
  next free =>
    have skip := DarwinOfile.not_closes free
    rw [if_neg skip, zero_add] at locks ⊢
    refine (ih empty locks).mono (fun _ s' closed => { closed with log := ?_, looks := ?_ })
      fun _ _ => id
    · rw [closed.log, owedFrom, owedFrom, flatMap_cons, owedAt, DarwinOfile.owes, if_pos free]
      rfl
    · have looks := closed.looks
      have split := split
      rw [range'_succ, if_neg skip, zero_add] at split
      rw [looks, split]
  next occupied =>
  have gone :=
    (ofileRelease_tears (i := i) empty fun closes =>
      locks (by rw [if_pos closes]; omega) s empty).then
    fun _ => releaseSome_tears (s.files i).ofFoff .foffDrop
  have cleared : (darwinOfileClear lock i).Ends s
      (fun _ s' => Gives e i (if (s.files i).Closes then 1
        else 0) (s.files i).owes s { s' with files := s.files } ∧
        s'.files = update s.files i .cleared) (Stuck e (if (s.files i).Closes then 1
          else 0) s) := by
    refine .read_bind (.congr (congrFun (Act.bind_assoc ..).symm _) (gone.bind fun _ s₁ gives =>
      .of_ok rfl ⟨?_, ?_⟩))
    · unfold DarwinOfile.owes
      rw [if_neg occupied]
      exact ⟨rfl, gives.log, gives.calls, gives.looks, gives.free, gives.depth⟩
    · exact congrArg (update · i .cleared) gives.files
  refine (cleared.mono (fun _ _ => id) fun _ _ stuck => stuck.wider (Nat.le_add_right ..)).bind ?_
  rintro _ s₁ ⟨gives, files⟩
  have looks₁ : s₁.looks = s.looks + _ := gives.looks
  have calls₁ : s₁.calls = s.calls := gives.calls
  have same : closes s₁.files (range' (i + 1) n) = closes s.files (range' (i + 1) n) := by
    rw [files]
    exact later_update.2
  refine (ih (s := s₁) gives.depth fun some => locks (by rw [same] at some; omega)).mono
    (fun _ s' closed => ?_) fun _ _ stuck => ?_
  · refine ⟨?_, closed.calls.trans calls₁, ?_, fun k low high => ?_⟩
    · have log₁ : s₁.log = s.log ++ _ := gives.log
      rw [closed.log, log₁, files, later_update.1, append_assoc]
      rfl
    · have split := split
      rw [range'_succ] at split
      rw [closed.looks, same, looks₁, split]
      omega
    · by_cases early : k < s₁.looks
      · exact gives.free k low early
      · exact closed.free k (by omega) high
  · rw [same] at stuck
    exact stuck.after looks₁ calls₁

/-! ### The exit -/

theorem mutexLock_locks (killed : e.tKilled = true) (empty : s.thMutexDepth = 0) :
    Locks e (mutexLock e (n + 1)) s := by
  cases busy : e.busy s.looks with
  | false =>
    refine .of_ok (a := ()) ?_ ⟨busy, rfl⟩
    rw [mutexLock, read_bind, modify_bind, busy]
    change (Except.ok (), _) = _
    rw [empty]
  | true =>
  have here : ∃ k, s.looks ≤ k ∧ k < s.looks + 1 ∧ e.busy k = true :=
    ⟨_, le_rfl, lt_succ_self _, busy⟩
  refine .read_bind (.congr (modify_bind ..) ?_)
  rw [if_pos busy]
  refine .guard_bind ⟨here, nofun⟩ fun _ => .read_bind ?_
  rw [if_pos ⟨killed, empty⟩]
  exact (threadExit_counts (mutexLock_spares e n) _).mono (fun _ _ => False.elim) fun _ _ emptied =>
    ⟨here, fun _ => emptied.1⟩

/-- The exit, when the lock is found free at each file that is closed: one activation, to the
hand-over. -/
structure Handed (e : Surroundings) (s : Exiting) (why : Stop) (s' : Exiting) : Prop extends
    Closed e (range darwinNofile) { s with calls := s.calls + 1 } s' where
  why : why = .handedOff
  bare : s'.Bare

theorem threadExit_ends (killed : e.tKilled = true) (empty : s.thMutexDepth = 0) : ∃ why s',
    threadExit (mutexLock e (n + 1)) s = (.error why, s') ∧
      (Handed e s why s' ∨
        Stuck e (closes s.files (range darwinNofile)) { s with calls := s.calls + 1 } why s') := by
  obtain ⟨why, s', run, -, bare⟩ := (threadExit_counts (mutexLock_spares e (n + 1)) s).failed
  refine ⟨why, s', run, ?_⟩
  rw [threadExit_enter empty] at run
  have closing :=
    clearSlots_ends (i := 0) (n := darwinNofile) (s := { s with calls := s.calls + 1 })
      (e := e) empty
    fun _ _ => mutexLock_locks (n := n) killed
  rcases bind_error run with stopped | ⟨_, s₁, closed, handed⟩
  · exact .inr (range_eq_range' ▸ closing.error rfl stopped)
  · cases handed
    exact .inl ⟨range_eq_range' ▸ { closing.ok rfl closed with }, rfl, bare rfl⟩

/-- A killed task's exit is one activation of `thread_exit`, run to the hand-over, that gives back
what the table holds once and in order, exactly if `fs_lock` is free at as many looks as there are
files of the live volume to close. -/
theorem exit_runs_once (busy : Nat → Bool) (s : Exiting) (n : Nat)
    (empty : s.thMutexDepth = 0) (first : s.calls = 0) (start : s.log = []) :
    (∃ s', threadExit (mutexLock ⟨busy, true⟩ (n + 1)) s = (.error .handedOff, s') ∧ s'.calls = 1 ∧
      s'.Bare ∧
      s'.log = (range darwinNofile).flatMap fun i => (s.files i).owes.map (i, ·)) ↔
    ∀ k < closes s.files (range darwinNofile), busy (s.looks + k) = false := by
  obtain ⟨why, s', run, ends⟩ := threadExit_ends (e := ⟨busy, true⟩) (n := n) rfl empty
  constructor
  · rintro ⟨s₁, run₁, calls, -⟩ k below
    cases run.symm.trans run₁
    rcases ends with handed | stuck
    · refine handed.free _ (Nat.le_add_right ..) ?_
      rw [handed.looks]
      exact Nat.add_lt_add_left below _
    · have more := stuck.2 rfl
      change s.calls + 1 < s'.calls at more
      omega
  · intro free
    rcases ends with handed | ⟨⟨k, low, high, owned⟩, -⟩
    · rw [handed.why] at run
      refine ⟨s', run, ?_, handed.bare, ?_⟩
      · rw [handed.calls, first]
      · rw [handed.log, start]
        rfl
    · have unowned := free (k - s.looks) (by
        change s.looks ≤ k at low
        change k < s.looks + _ at high
        omega)
      rw [Nat.add_sub_cancel' low] at unowned
      cases owned.symm.trans unowned

/-! ### One open file -/

/-- A task with one file of the live volume open. -/
def oneFile : Exiting where
  files := fun i => if i == 0 then ⟨.file, ⟨.apfs, 20, 5, 20, 0, 0⟩, 0, none, none, none⟩
    else .cleared
  thMutexDepth := 0
  thWaitQlock := false
  looks := 0
  calls := 0
  log := []

/-- The lock is owned from the second look on, and the thread looks once. -/
theorem exit_runs_once_small :
    ∃ s', threadExit (mutexLock ⟨fun k => decide (0 < k), true⟩ 1) oneFile =
      (.error .handedOff, s') ∧
    s'.calls = 1 ∧ s'.log = [(0, .fsClose ⟨.apfs, 20, 5, 20, 0, 0⟩)] := by
  obtain ⟨s', run, calls, -, log⟩ :=
    (exit_runs_once (fun k => decide (0 < k)) oneFile 0 rfl rfl rfl).mpr (by decide)
  exact ⟨s', run, calls, log⟩

theorem threadExit_oneFile {k c : Nat} {stop : Stop}
    (run : lock { oneFile with looks := k, calls := c + 1 } = (.error stop, s')) :
    threadExit lock { oneFile with looks := k, calls := c } = (.error stop, s') := by
  have close : ∀ h : FsHandle, h.live = true →
      fsClose lock 0 h { oneFile with looks := k, calls := c + 1 } = (.error stop, s') := by
    intro h live
    unfold fsClose
    rw [if_pos live]
    exact bind_of_error run
  have clear : darwinOfileClear lock 0 { oneFile with looks := k, calls := c + 1 } =
      (.error stop, s') := by
    unfold darwinOfileClear
    rw [read_bind]
    exact bind_of_error (bind_of_error (close _ rfl))
  have slots : clearSlots lock (range' 0 darwinNofile) { oneFile with looks := k, calls := c + 1 } =
      (.error stop, s') := by
    change clearSlots lock (0 :: range' 1 15) _ = _
    rw [clearSlots, read_bind]
    exact bind_of_error clear
  rw [threadExit_enter rfl]
  exact bind_of_error slots

/-- For every `n`, a schedule that has the lock owned for `n` looks puts `n` more activations of
`thread_exit` on the stack; and a thread that was killed while it waited for something else, and so
is still noted on that list, stops the machine at the first of them. -/
theorem exit_reenters :
    (∀ n, ∃ s', threadExit (mutexLock ⟨fun k => decide (k < n), true⟩ (n + 1)) oneFile =
      (.error .handedOff, s') ∧
      s'.calls = n + 1) ∧
    ∃ s', threadExit (mutexLock ⟨fun k => decide (k < 1), true⟩ 2)
      { oneFile with thWaitQlock := true } = (.error .stillNoted, s') := by
  have deep : ∀ n m k c, k + m = n →
    ∃ s', threadExit (mutexLock ⟨fun k => decide (k < n), true⟩ (m + 1))
      { oneFile with looks := k, calls := c } = (.error .handedOff, s') ∧ s'.calls = c + m + 1 := by
    intro n m
    induction m with
    | zero =>
      intro k c here
      obtain ⟨why, s', run, handed | ⟨⟨j, later, -, owned⟩, -⟩⟩ := threadExit_ends (n := 0)
        (e := ⟨fun k => decide (k < n), true⟩) (s := { oneFile with looks := k, calls := c })
          rfl rfl
      · exact ⟨s', handed.why ▸ run, handed.calls⟩
      · have before : j < n := of_decide_eq_true owned
        change k ≤ j at later
        omega
    | succ m ih =>
    intro k c here
    obtain ⟨s', run, calls⟩ := ih (k + 1) (c + 1) (by omega)
    refine ⟨s', threadExit_oneFile ?_, by omega⟩
    have owned : decide (k < n) = true := decide_eq_true (by omega)
    rw [mutexLock, read_bind, if_pos owned]
    exact run
  refine ⟨fun n => ?_, ?_⟩
  · obtain ⟨s', run, calls⟩ := deep n n 0 0 (zero_add n)
    exact ⟨s', run, by omega⟩
  · exact ⟨_, rfl⟩

end Style9.Sched
