import Mathlib.Data.Finset.Card
import Style9.Lib.Runs

/-!
# Mutexes and the park

`mutex_lock` waits in a loop: under the guard of the mutex it links itself onto the waiter list,
then `thread_block_release` commits to sleep under `sched_lock` and drops the guard there.
`mutex_unlock` gives the mutex to nobody: it takes the first waiter off the list and wakes it after
the guard is dropped. Both kill checks of the park retire the thread instead of returning.

A step is one critical section. Between two of them any other thread, on any CPU, may take its own.
READY and RUNNING are one state: wakes treat them alike, and the dispatcher may run any ready thread
at any time. A failed assertion stops the machine, so such a step has no next state.
-/
namespace Style9.Sched

open Style9.Lib Function

variable {T M K : Type} [DecidableEq T] [DecidableEq M] [DecidableEq K]

/-! ### Threads -/

inductive RunState where
  | awake
  | blocked
  | zombie
  deriving DecidableEq

/-- Where a thread is in these functions. -/
inductive Pc (T M : Type) where
  /-- In none of them; inside `thread_exit` if one of its activations is on the stack. -/
  | outside
  /-- `mutex_lock` has found an owner: on the list, the guard still held. -/
  | contended (m : M)
  /-- Switched away inside the park. -/
  | switched (m : M)
  /-- The park has returned to the loop of `mutex_lock`. -/
  | returning (m : M)
  /-- `mutex_unlock` has dropped the guard and owes a waiter its wake. -/
  | releasing (w : T)
  /-- Switched away in some other wait, interruptible by a kill or not. -/
  | elsewhere (intr : Bool)
  /-- `thread_exit` past the lists. -/
  | dying
  deriving DecidableEq

/-- `struct thread`. The last two fields are not the source's: how many calls of `thread_exit` are
on its stack, and which mutexes it has locked and not unlocked. -/
structure Thread (T M : Type) where
  thState : RunState := .awake
  thWakePending : Bool := false
  thMutexDepth : Nat := 0
  thWaitQlock : Option M := none
  pc : Pc T M := .outside
  exits : Nat := 0
  inside : Finset M := ∅

/-- `struct mutex`s and threads; the kernel's own threads are in no task that can be killed. -/
structure Sys (T M K : Type) where
  thread : T → Thread T M
  task : T → Option K
  tKilled : K → Bool
  mtxOwner : M → Option T
  mtxWaiters : M → List T
  mtxGuard : M → Option T

namespace Sys

variable (s : Sys T M K)

variable (t : T)

def put (th : Thread T M) : Sys T M K := { s with thread := update s.thread t th }

variable (m : M)

def setOwner (o : Option T) : Sys T M K := { s with mtxOwner := update s.mtxOwner m o }

def setWaiters (l : List T) : Sys T M K := { s with mtxWaiters := update s.mtxWaiters m l }

def setGuard (o : Option T) : Sys T M K := { s with mtxGuard := update s.mtxGuard m o }

/-! ### Wakes and kills -/

/-- `thread_wake`: a thread that is not blocked is left a note. -/
def threadWake : Sys T M K :=
  match (s.thread t).thState with
  | .awake => s.put t { s.thread t with thWakePending := true }
  | .blocked => s.put t { s.thread t with thWakePending := false, thState := .awake }
  | .zombie => s

/-- The kill checks of the park. -/
def killPending : Bool :=
  match s.task t with
  | none => false
  | some k => (s.thread t).thMutexDepth == 0 && s.tKilled k

/-- `thread_exit` up to its assertion; what was on the stack never runs again. -/
def threadExit : Option (Sys T M K) :=
  if (s.thread t).thMutexDepth = 0 then
    some (s.put t { s.thread t with pc := .outside, exits := (s.thread t).exits + 1 })
  else none

/-! ### The mutex -/

/-- `waiter_unbind` and `thread_wait_forget`. -/
def waiterUnbind : Sys T M K :=
  (s.setWaiters m ((s.mtxWaiters m).erase t)).put t { s.thread t with thWaitQlock := none }

def acquire : Sys T M K :=
  (s.setOwner m (some t)).put t
    { s.thread t with
      pc := .outside, thMutexDepth := (s.thread t).thMutexDepth + 1
      inside := insert m (s.thread t).inside }

/-- The loop of `mutex_lock` from its test on, under the guard: the mutex is taken, or the thread is
on the list with the guard still held. -/
def lockLoop : Option (Sys T M K) :=
  match s.mtxOwner m with
  | none => some (s.acquire t m)
  | some o =>
    if o = t ∨ (s.thread t).thWaitQlock ≠ none then none
    else some (((s.setWaiters m (s.mtxWaiters m ++ [t])).setGuard m (some t)).put t
      { s.thread t with thWaitQlock := some m, pc := .contended m })

/-- `block_release` for a mutex up to the switch, under `sched_lock`; the guard is dropped. -/
def blockRelease : Option (Sys T M K) :=
  if s.killPending t then ((s.waiterUnbind t m).setGuard m none).threadExit t
  else if (s.thread t).thWakePending then
    some ((s.setGuard m none).put t { s.thread t with thWakePending := false, pc := .returning m })
  else some ((s.setGuard m none).put t { s.thread t with thState := .blocked, pc := .switched m })

/-- The same for any other wait. -/
def blockElsewhere (intr : Bool) : Option (Sys T M K) :=
  if s.killPending t then
    if (s.thread t).thWaitQlock ≠ none then none
    else if intr then some s
    else s.threadExit t
  else if (s.thread t).thWakePending then some (s.put t { s.thread t with thWakePending := false })
  else some (s.put t { s.thread t with thState := .blocked, pc := .elsewhere intr })

/-- The part of `mutex_unlock` under the guard. -/
def mutexUnlock : Option (Sys T M K) :=
  if s.mtxOwner m ≠ some t ∨ (s.thread t).thMutexDepth = 0 then none
  else
    let th := { s.thread t with
      thMutexDepth := (s.thread t).thMutexDepth - 1, inside := (s.thread t).inside.erase m }
    match s.mtxWaiters m with
    | [] => some ((s.setOwner m none).put t th)
    | w :: rest =>
      some (((s.setOwner m none).setWaiters m rest).put t { th with pc := .releasing w })

end Sys

/-! ### Steps -/

inductive Event (T M K : Type) where
  | lock (t : T) (m : M)
  | tryLock (t : T) (m : M)
  | unlock (t : T) (m : M)
  /-- The critical section of the park. -/
  | park (t : T)
  /-- A thread that was switched away runs again, up to the end of the park. -/
  | resume (t : T)
  /-- The loop of `mutex_lock` after a park. -/
  | retake (t : T)
  /-- The wake that an unlock owes. -/
  | wake (t : T)
  /-- A wake from anywhere. -/
  | stray (t : T)
  | kill (k : K)
  | sleep (t : T) (intr : Bool)
  /-- `thread_exit` called from outside the park. -/
  | exit (t : T)
  /-- `thread_wait_unbind`, after the files have been closed. -/
  | settle (t : T)
  | retire (t : T)
  deriving DecidableEq

/-- One critical section. -/
def next (s : Sys T M K) : Event T M K → Option (Sys T M K)
  | .lock t m =>
    if (s.thread t).thState = .awake ∧ (s.thread t).pc = .outside ∧ s.mtxGuard m = none
      then s.lockLoop t m
    else none
  | .tryLock t m =>
    if (s.thread t).thState = .awake ∧ (s.thread t).pc = .outside ∧ s.mtxGuard m = none then
      if s.mtxOwner m = none then some (s.acquire t m) else some s
    else none
  | .unlock t m =>
    if (s.thread t).thState = .awake ∧ (s.thread t).pc = .outside ∧ s.mtxGuard m = none
      then s.mutexUnlock t m
    else none
  | .park t =>
    match (s.thread t).pc with
    | .contended m => s.blockRelease t m
    | _ => none
  | .resume t =>
    if (s.thread t).thState = .awake then
      match (s.thread t).pc with
      | .switched m => if s.killPending t then s.threadExit t
        else some (s.put t { s.thread t with pc := .returning m })
      | .elsewhere intr =>
        if s.killPending t ∧ intr = false then s.threadExit t
        else some (s.put t { s.thread t with pc := .outside })
      | _ => none
    else none
  | .retake t =>
    match (s.thread t).pc with
    | .returning m => if s.mtxGuard m = none then (s.waiterUnbind t m).lockLoop t m else none
    | _ => none
  | .wake t =>
    match (s.thread t).pc with
    | .releasing w => some ((s.put t { s.thread t with pc := .outside }).threadWake w)
    | _ => none
  | .stray t => some (s.threadWake t)
  | .kill k => some { s with tKilled := update s.tKilled k true }
  | .sleep t intr =>
    if (s.thread t).thState = .awake ∧ (s.thread t).pc = .outside then s.blockElsewhere t intr
      else none
  | .exit t =>
    if (s.thread t).thState = .awake ∧ (s.thread t).pc = .outside ∧ (s.thread t).exits = 0
      then s.threadExit t else none
  | .settle t =>
    if (s.thread t).thState = .awake ∧ (s.thread t).pc = .outside ∧ 0 < (s.thread t).exits ∧
        (s.thread t).thMutexDepth = 0 then
      match (s.thread t).thWaitQlock with
      | none => some (s.put t { s.thread t with pc := .dying })
      | some m =>
        if s.mtxGuard m = none then
          some ((s.waiterUnbind t m).put t { s.thread t with thWaitQlock := none, pc := .dying })
        else none
    else none
  | .retire t =>
    if (s.thread t).thState = .awake ∧ (s.thread t).pc = .dying then
      some (s.put t { s.thread t with thState := .zombie })
    else none

/-- What a step is, once its conditions have been met. -/
inductive Takes (s : Sys T M K) : Sys T M K → Prop
  | lock {t m s'} (awake : (s.thread t).thState = .awake) (out : (s.thread t).pc = .outside)
      (unguarded : s.mtxGuard m = none) (body : s.lockLoop t m = some s') : Takes s s'
  | acquire {t m} (awake : (s.thread t).thState = .awake) (out : (s.thread t).pc = .outside)
      (free : s.mtxOwner m = none) : Takes s (s.acquire t m)
  | unlock {t m s'} (awake : (s.thread t).thState = .awake) (out : (s.thread t).pc = .outside)
      (unguarded : s.mtxGuard m = none) (body : s.mutexUnlock t m = some s') : Takes s s'
  | park {t m s'} (place : (s.thread t).pc = .contended m) (body : s.blockRelease t m = some s') :
      Takes s s'
  | back {t m} (awake : (s.thread t).thState = .awake) (place : (s.thread t).pc = .switched m) :
      Takes s (s.put t { s.thread t with pc := .returning m })
  | arrive {t b} (awake : (s.thread t).thState = .awake) (place : (s.thread t).pc = .elsewhere b) :
      Takes s (s.put t { s.thread t with pc := .outside })
  | exit {t s'} (awake : (s.thread t).thState = .awake)
      (place : (s.thread t).pc = .outside ∨ (∃ m, (s.thread t).pc = .switched m) ∨
        ∃ b, (s.thread t).pc = .elsewhere b)
      (body : s.threadExit t = some s') : Takes s s'
  | retake {t m s'} (place : (s.thread t).pc = .returning m) (unguarded : s.mtxGuard m = none)
      (body : (s.waiterUnbind t m).lockLoop t m = some s') : Takes s s'
  | wake {t w} (place : (s.thread t).pc = .releasing w) :
      Takes s ((s.put t { s.thread t with pc := .outside }).threadWake w)
  | stray {t} : Takes s (s.threadWake t)
  | kill {k} : Takes s { s with tKilled := update s.tKilled k true }
  | sleep {t intr s'} (awake : (s.thread t).thState = .awake) (out : (s.thread t).pc = .outside)
      (body : s.blockElsewhere t intr = some s') : Takes s s'
  | leave {t} (awake : (s.thread t).thState = .awake) (out : (s.thread t).pc = .outside)
      (empty : (s.thread t).thMutexDepth = 0) (unnoted : (s.thread t).thWaitQlock = none) :
      Takes s (s.put t { s.thread t with pc := .dying })
  | settle {t m} (awake : (s.thread t).thState = .awake) (out : (s.thread t).pc = .outside)
      (empty : (s.thread t).thMutexDepth = 0) (noted : (s.thread t).thWaitQlock = some m)
        (unguarded : s.mtxGuard m = none) :
      Takes s ((s.waiterUnbind t m).put t { s.thread t with thWaitQlock := none, pc := .dying })
  | retire {t} (place : (s.thread t).pc = .dying) :
      Takes s (s.put t { s.thread t with thState := .zombie })
  | nothing : Takes s s

theorem next_takes {s s' : Sys T M K} {e : Event T M K} (step : next s e = some s') :
    Takes s s' := by
  cases e with
  | lock t m =>
    simp only [next] at step
    split at step
    next can => exact .lock can.1 can.2.1 can.2.2 step
    · cases step
  | tryLock t m =>
    simp only [next] at step
    split at step
    next can =>
      split at step
      next free => cases step; exact .acquire can.1 can.2.1 free
      · cases step; exact .nothing
    · cases step
  | unlock t m =>
    simp only [next] at step
    split at step
    next can => exact .unlock can.1 can.2.1 can.2.2 step
    · cases step
  | park t =>
    simp only [next] at step
    split at step
    next m place => exact .park place step
    · cases step
  | resume t =>
    simp only [next] at step
    split at step
    next awake =>
      split at step
      next m place =>
        split at step
        · exact .exit awake (.inr (.inl ⟨m, place⟩)) step
        · cases step; exact .back awake place
      next b place =>
        split at step
        · exact .exit awake (.inr (.inr ⟨b, place⟩)) step
        · cases step; exact .arrive awake place
      · cases step
    · cases step
  | retake t =>
    simp only [next] at step
    split at step
    next m place =>
      split at step
      next unguarded => exact .retake place unguarded step
      · cases step
    · cases step
  | wake t =>
    simp only [next] at step
    split at step
    next w place => cases step; exact .wake place
    · cases step
  | stray t => cases step; exact .stray
  | kill k => cases step; exact .kill
  | sleep t intr =>
    simp only [next] at step
    split at step
    next can => exact .sleep can.1 can.2 step
    · cases step
  | exit t =>
    simp only [next] at step
    split at step
    next can => exact .exit can.1 (.inl can.2.1) step
    · cases step
  | settle t =>
    simp only [next] at step
    split at step
    next can =>
      split at step
      next unnoted => cases step; exact .leave can.1 can.2.1 can.2.2.2 unnoted
      next m noted =>
        split at step
        next unguarded => cases step; exact .settle can.1 can.2.1 can.2.2.2 noted unguarded
        · cases step
    · cases step
  | retire t =>
  simp only [next] at step
  split at step
  next can => cases step; exact .retire can.2
  · cases step

/-- Nobody has called anything yet. -/
def Sys.init (task : T → Option K) : Sys T M K where
  thread := fun _ => {}
  task := task
  tKilled := fun _ => false
  mtxOwner := fun _ => none
  mtxWaiters := fun _ => []
  mtxGuard := fun _ => none

end Style9.Sched
