import Mathlib.Data.Fintype.Basic
import Style9.Sched.Mutex

/-!
# Waiters of a mutex

`Coherent` is what every step keeps: one owner, depths that count what a thread owns, lists without
repetition that hold only threads inside `mutex_lock` or retired from it, and for each parked thread
a place on its list or a wake that some unlock still owes it.

`Served` says that a free mutex with waiters has somebody on the way to it. A step keeps it as long
as no unlock spends its wake on a thread that a kill is about to retire: such a thread leaves the
park without trying the mutex, and nothing in its exit passes the wake on.
-/
namespace Style9.Sched

open Style9.Lib Function List

variable {T M K : Type} {s s' : Sys T M K} {t u w : T} {m m' : M} {P : Prop}

/-! ### Reading a state that was written -/

namespace Sys

section

variable [DecidableEq T] {th : Thread T M}

@[grind =] theorem thread_put : (s.put t th).thread u = if u = t then th else s.thread u := by
  unfold put
  grind

@[grind =] theorem mtxOwner_put : (s.put t th).mtxOwner m = s.mtxOwner m := rfl
@[grind =] theorem mtxWaiters_put : (s.put t th).mtxWaiters m = s.mtxWaiters m := rfl
@[grind =] theorem mtxGuard_put : (s.put t th).mtxGuard m = s.mtxGuard m := rfl

end

section

variable [DecidableEq M] {o : Option T} {l : List T}

@[grind =] theorem thread_setOwner : (s.setOwner m o).thread t = s.thread t := rfl
@[grind =] theorem mtxWaiters_setOwner : (s.setOwner m o).mtxWaiters m' = s.mtxWaiters m' := rfl
@[grind =] theorem mtxGuard_setOwner : (s.setOwner m o).mtxGuard m' = s.mtxGuard m' := rfl

@[grind =] theorem mtxOwner_setOwner :
    (s.setOwner m o).mtxOwner m' = if m' = m then o else s.mtxOwner m' := by
  unfold setOwner
  grind

@[grind =] theorem thread_setWaiters : (s.setWaiters m l).thread t = s.thread t := rfl
@[grind =] theorem mtxOwner_setWaiters : (s.setWaiters m l).mtxOwner m' = s.mtxOwner m' := rfl
@[grind =] theorem mtxGuard_setWaiters : (s.setWaiters m l).mtxGuard m' = s.mtxGuard m' := rfl

@[grind =] theorem mtxWaiters_setWaiters :
    (s.setWaiters m l).mtxWaiters m' = if m' = m then l else s.mtxWaiters m' := by
  unfold setWaiters
  grind

@[grind =] theorem thread_setGuard : (s.setGuard m o).thread t = s.thread t := rfl
@[grind =] theorem mtxOwner_setGuard : (s.setGuard m o).mtxOwner m' = s.mtxOwner m' := rfl
@[grind =] theorem mtxWaiters_setGuard : (s.setGuard m o).mtxWaiters m' = s.mtxWaiters m' := rfl

@[grind =] theorem mtxGuard_setGuard :
    (s.setGuard m o).mtxGuard m' = if m' = m then o else s.mtxGuard m' := by
  unfold setGuard
  grind

end

end Sys

/-! ### What holds between two steps -/

theorem Sys.setGuard_none [DecidableEq M] (unguarded : s.mtxGuard m = none) :
    s.setGuard m none = s := by
  unfold Sys.setGuard
  rw [← unguarded, update_eq_self]

/-- An unlock has taken the thread off a list and not woken it yet. -/
def Sys.Owing (s : Sys T M K) (t : T) : Prop := ∃ u, (s.thread u).pc = .releasing t

section

variable {th : Thread T M} {o : Option T} {l : List T}

@[grind ←] theorem Sys.Owing.put [DecidableEq T] (owing : s.Owing w)
    (kept : (s.thread t).pc = .releasing w → th.pc = .releasing w) : (s.put t th).Owing w := by
  obtain ⟨u, releasing⟩ := owing
  refine ⟨u, ?_⟩
  rw [thread_put]
  split
  next here => exact kept (here ▸ releasing)
  · exact releasing

@[grind =] theorem Sys.owing_setOwner [DecidableEq M] : (s.setOwner m o).Owing w ↔ s.Owing w :=
  Iff.rfl
@[grind =] theorem Sys.owing_setWaiters [DecidableEq M] : (s.setWaiters m l).Owing w ↔ s.Owing w :=
  Iff.rfl
@[grind =] theorem Sys.owing_setGuard [DecidableEq M] : (s.setGuard m o).Owing w ↔ s.Owing w :=
  Iff.rfl

theorem Sys.Owing.of_releasing (releasing : (s.thread t).pc = .releasing w) : s.Owing w :=
  ⟨t, releasing⟩

end

/-- Inside `mutex_lock`, between joining the list and looking at the owner again. -/
@[grind =] def Pc.Waiting (m : M) (pc : Pc T M) : Prop :=
  pc = .contended m ∨ pc = .switched m ∨ pc = .returning m

/-- What holds between any two critical sections. -/
structure Coherent (s : Sys T M K) : Prop where
  depth : ∀ t, (s.thread t).thMutexDepth = (s.thread t).inside.card
  owns : ∀ m t, s.mtxOwner m = some t ↔ m ∈ (s.thread t).inside
  waits : ∀ t m, (s.thread t).pc.Waiting m → (s.thread t).thWaitQlock = some m
  left : ∀ t m, (s.thread t).thWaitQlock = some m → (s.thread t).pc.Waiting m ∨
    0 < (s.thread t).exits
  listed : ∀ t m, t ∈ s.mtxWaiters m → (s.thread t).thWaitQlock = some m
  nodup : ∀ m, (s.mtxWaiters m).Nodup
  guards : ∀ m t, s.mtxGuard m = some t ↔ (s.thread t).pc = .contended m
  contended : ∀ t m, (s.thread t).pc = .contended m → t ∈ s.mtxWaiters m ∧ s.mtxOwner m ≠ none
  asleep : ∀ t, (s.thread t).thState = .blocked → (∃ m, (s.thread t).pc = .switched m) ∨
    ∃ b, (s.thread t).pc = .elsewhere b
  owed : ∀ t m, (s.thread t).pc = .switched m → (s.thread t).thState = .blocked →
    t ∈ s.mtxWaiters m ∨ s.Owing t
  gone : ∀ t, (s.thread t).pc = .dying → (s.thread t).inside = ∅ ∧ (s.thread t).thWaitQlock = none
  dead : ∀ t, (s.thread t).thState = .zombie → (s.thread t).pc = .dying

theorem Coherent.awake (inv : Coherent s) (switched : ∀ m, (s.thread t).pc ≠ .switched m)
    (elsewhere : ∀ b, (s.thread t).pc ≠ .elsewhere b) (alive : (s.thread t).pc ≠ .dying) :
    (s.thread t).thState = .awake := by
  cases state : (s.thread t).thState with
  | awake => rfl
  | blocked =>
    rcases inv.asleep t state with ⟨m, place⟩ | ⟨b, place⟩
    · exact absurd place (switched m)
    · exact absurd place (elsewhere b)
  | zombie => exact absurd (inv.dead t state) alive

theorem Coherent.bare (inv : Coherent s) (empty : (s.thread t).thMutexDepth = 0) :
    (s.thread t).inside = ∅ := by
  rw [inv.depth] at empty
  exact Finset.card_eq_zero.mp empty

theorem Coherent.sole (inv : Coherent s) (first : (s.thread t).pc = .contended m)
    (second : (s.thread u).pc = .contended m) :
    u = t := by
  have held := (inv.guards m t).mpr first
  rw [(inv.guards m u).mpr second] at held
  exact Option.some.inj held

theorem Coherent.unheld (inv : Coherent s) (unguarded : s.mtxGuard m = none) :
    (s.thread u).pc ≠ .contended m := by
  intro contended
  rw [(inv.guards m u).mpr contended] at unguarded
  cases unguarded

/-! ### Nobody is forgotten -/

/-- The thread was taken off the list and has not looked at the owner again. -/
@[grind =] def Sys.Called (s : Sys T M K) (m : M) (t : T) : Prop :=
  ((s.thread t).pc = .switched m ∨ (s.thread t).pc = .returning m) ∧ t ∉ s.mtxWaiters m

/-- A waiter that a kill has taken out of `mutex_lock` is still on the list: no unlock has chosen
it. -/
def Sys.Spared (s : Sys T M K) : Prop :=
  ∀ t m, (s.thread t).thWaitQlock = some m → ¬ (s.thread t).pc.Waiting m → t ∈ s.mtxWaiters m

/-- A free mutex with waiters is about to be looked at. -/
def Served (s : Sys T M K) : Prop :=
  ∀ m, s.mtxOwner m = none → s.mtxWaiters m ≠ [] → ∃ t, s.Called m t

/-- A step after which a free mutex was free before, with the same waiters or fewer, and has whoever
was called for it still called. -/
theorem Served.keep (served : Served s) (owner : ∀ m, s'.mtxOwner m = none → s.mtxOwner m = none)
    (list : ∀ m x, s'.mtxOwner m = none → x ∈ s'.mtxWaiters m → x ∈ s.mtxWaiters m)
    (called : ∀ m x, s'.mtxOwner m = none → s.Called m x → s'.Called m x) : Served s' := by
  intro m free waiting
  obtain ⟨x, member⟩ := exists_mem_of_ne_nil _ waiting
  obtain ⟨y, here⟩ := served m (owner m free) (ne_nil_of_mem (list m x free member))
  exact ⟨y, called m y free here⟩

/-- A step that keeps what holds between two sections, and forgets nobody if `P`. -/
structure Preserves (P : Prop) (s s' : Sys T M K) : Prop where
  coherent : Coherent s'
  served : P → Served s → Served s'

/-! ### What each critical section keeps -/

section

variable [DecidableEq T]

theorem Coherent.threadWake (inv : Coherent s) (w : T) : Preserves P s (s.threadWake w) := by
  unfold Sys.threadWake
  split
  all_goals
    cases inv
    refine ⟨?_, fun _ served => served.keep ?_ ?_ ?_⟩
    · constructor <;> grind
    all_goals grind

theorem Coherent.wake (inv : Coherent s) (place : (s.thread t).pc = .releasing w) :
    Preserves P s ((s.put t { s.thread t with pc := .outside }).threadWake w) := by
  have awake :=
    inv.awake (t := t) (by rw [place]; nofun) (by rw [place]; nofun) (by rw [place]; nofun)
  unfold Sys.threadWake
  split
  all_goals
    cases inv
    refine ⟨?_, fun _ served => served.keep ?_ ?_ ?_⟩
    · constructor <;> grind
    all_goals grind

/-- What `thread_exit` starts from: the thread has left the park, or was never in one. -/
theorem Coherent.threadExit (inv : Coherent s) (awake : (s.thread t).thState = .awake)
    (free : ∀ m, (s.thread t).pc ≠ .contended m) (idle : ∀ w, (s.thread t).pc ≠ .releasing w)
    (step : s.threadExit t = some s') : Preserves s'.Spared s s' := by
  unfold Sys.threadExit at step
  split at step
  · cases step
    cases inv
    refine ⟨?_, fun spared served => ?_⟩
    · constructor <;> grind
    · unfold Sys.Spared at spared
      refine served.keep ?_ ?_ ?_ <;> grind
  · cases step

theorem Sys.threadExit_place (pc : Pc T M) :
    (s.put t { s.thread t with pc := pc }).threadExit t = s.threadExit t := by
  simp [Sys.threadExit, Sys.put, update_idem]

variable [DecidableEq M]

/-- What the critical sections write; `P` is what a thread that leaves a list leaves it under. -/
inductive Edit (P : Prop) (s : Sys T M K) : Sys T M K → Prop
  | back {t : T} {m : M} (awake : (s.thread t).thState = .awake)
      (place : (s.thread t).pc = .switched m) :
      Edit P s (s.put t { s.thread t with pc := .returning m })
  | wander {t : T} {state : RunState} {pending : Bool} {pc : Pc T M}
      (before : (s.thread t).pc = .outside ∨ ∃ b, (s.thread t).pc = .elsewhere b)
      (after : pc = .outside ∧ state = .awake ∨ (∃ b, pc = .elsewhere b) ∧ state = .blocked) :
      Edit P s (s.put t { s.thread t with thState := state, thWakePending := pending, pc := pc })
  | die {t : T} {state : RunState} (place : (s.thread t).pc = .outside ∨ (s.thread t).pc = .dying)
      (bare : (s.thread t).inside = ∅) (unnoted : (s.thread t).thWaitQlock = none)
      (up : state ≠ .blocked) :
      Edit P s (s.put t { s.thread t with thState := state, pc := .dying })
  | acquire {t : T} {m : M} (awake : (s.thread t).thState = .awake)
      (out : (s.thread t).pc = .outside) (free : s.mtxOwner m = none) : Edit P s (s.acquire t m)
  | enlist {t : T} {m : M} (awake : (s.thread t).thState = .awake)
      (out : (s.thread t).pc = .outside) (owned : s.mtxOwner m ≠ none)
      (unguarded : s.mtxGuard m = none) (unnoted : (s.thread t).thWaitQlock = none) :
      Edit P s (((s.setWaiters m (s.mtxWaiters m ++ [t])).setGuard m (some t)).put t
        { s.thread t with thWaitQlock := some m, pc := .contended m })
  | detach {t : T} {m : M} {p : Pc T M} (awake : (s.thread t).thState = .awake)
      (place : p = .outside ∨ p = .dying ∧ (s.thread t).inside = ∅)
      (noted : (s.thread t).thWaitQlock = some m)
      (unguarded : s.mtxGuard m = none ∨ s.mtxGuard m = some t)
      (idle : ∀ w, (s.thread t).pc ≠ .releasing w)
      (uncalled : P → ∀ m, ¬ s.Called m t) :
      Edit P s (((s.setWaiters m ((s.mtxWaiters m).erase t)).setGuard m none).put t
        { s.thread t with thWaitQlock := none, pc := p })
  | commit {t : T} {m : M} (place : (s.thread t).pc = .contended m)
      (sole : ∀ u, (s.thread u).pc = .contended m → u = t) :
      Edit P s ((s.setGuard m none).put t
        { s.thread t with thState := .blocked, pc := .switched m })
  | decline {t : T} {m : M} (place : (s.thread t).pc = .contended m)
      (sole : ∀ u, (s.thread u).pc = .contended m → u = t) :
      Edit P s ((s.setGuard m none).put t
        { s.thread t with thWakePending := false, pc := .returning m })

theorem Edit.coherent (edit : Edit P s s') (inv : Coherent s) : Coherent s' := by
  cases inv
  cases edit with
  | acquire =>
    unfold Sys.acquire
    constructor <;> grind
  | _ => constructor <;> grind

theorem Edit.served (edit : Edit P s s') (inv : Coherent s) (fine : P) (served : Served s) :
    Served s' := by
  cases inv
  apply served.keep <;> cases edit with
  | acquire =>
    unfold Sys.acquire
    grind
  | _ => grind

theorem Coherent.edit (inv : Coherent s) (edit : Edit P s s') : Preserves P s s' :=
  ⟨edit.coherent inv, edit.served inv⟩

theorem Sys.lockLoop_place (pc : Pc T M) :
    (s.put t { s.thread t with pc := pc }).lockLoop t m = s.lockLoop t m := by
  simp [Sys.lockLoop, Sys.acquire, Sys.put, Sys.setOwner, Sys.setWaiters, Sys.setGuard, update_idem]

section

variable (inv : Coherent s) (awake : (s.thread t).thState = .awake)
  (out : (s.thread t).pc = .outside)
include inv awake out

theorem Coherent.blockElsewhere {intr : Bool} (step : s.blockElsewhere t intr = some s') :
    Preserves s'.Spared s s' := by
  unfold Sys.blockElsewhere at step
  split at step
  · split at step
    · cases step
    split at step
    · cases step
      exact ⟨inv, fun _ => id⟩
    · exact inv.threadExit awake (by rw [out]; nofun) (by rw [out]; nofun) step
  split at step
  · cases step
    exact inv.edit (.wander (.inl out) (.inl ⟨out, awake⟩))
  · cases step
    exact inv.edit (.wander (.inl out) (.inr ⟨⟨_, rfl⟩, rfl⟩))

theorem Coherent.unlock (unguarded : s.mtxGuard m = none) (step : s.mutexUnlock t m = some s') :
    Preserves s'.Spared s s' := by
  have unheld := fun u => inv.unheld (u := u) unguarded
  unfold Sys.mutexUnlock at step
  split at step
  · cases step
  next mine =>
  rw [not_or, not_ne_iff] at mine
  obtain ⟨own, positive⟩ := mine
  split at step
  next list =>
    cases step
    cases inv
    refine ⟨?_, fun _ served m' free waiting => ?_⟩
    · constructor <;> grind
    by_cases here : m' = m
    · subst here
      exact absurd list waiting
    · obtain ⟨x, called⟩ := served m' (by grind) (by grind)
      exact ⟨x, by grind⟩
  next w rest list =>
  cases step
  have owing : (((s.setOwner m none).setWaiters m rest).put t { s.thread t with
        thMutexDepth := (s.thread t).thMutexDepth - 1, inside := (s.thread t).inside.erase m
        pc := .releasing w }).Owing w :=
    .of_releasing (t := t) (by rw [Sys.thread_put, if_pos rfl])
  have noted := inv.listed w m (list ▸ mem_cons_self)
  have once := inv.nodup m
  rw [list] at once
  have left := (nodup_cons.mp once).1
  cases inv
  refine ⟨?_, fun spared served m' free waiting => ?_⟩
  · constructor <;> grind
  by_cases here : m' = m
  · -- it noted this list, and as it is spared it is still in the loop
    subst here
    refine ⟨w, ?_⟩
    unfold Sys.Spared at spared
    grind
  · obtain ⟨x, called⟩ := served m' (by grind) (by grind)
    exact ⟨x, by grind⟩

theorem Coherent.lockLoop (unguarded : s.mtxGuard m = none) (step : s.lockLoop t m = some s') :
    Preserves P s s' := by
  unfold Sys.lockLoop at step
  split at step
  next free =>
    cases step
    exact inv.edit (.acquire awake out free)
  next o owner =>
  split at step
  · cases step
  next fine =>
    cases step
    rw [not_or, not_not] at fine
    exact inv.edit (.enlist awake out (by rw [owner]; nofun) unguarded fine.2)

end

theorem Coherent.unbind {p : Pc T M} (inv : Coherent s) (awake : (s.thread t).thState = .awake)
    (place : p = .outside ∨ p = .dying ∧ (s.thread t).inside = ∅)
    (noted : (s.thread t).thWaitQlock = some m)
    (unguarded : s.mtxGuard m = none) (idle : ∀ w, (s.thread t).pc ≠ .releasing w) :
    Preserves (∀ m, ¬ s.Called m t) s
      ((s.waiterUnbind t m).put t { s.thread t with thWaitQlock := none, pc := p }) := by
  have detached := inv.edit (.detach awake place noted (.inl unguarded) idle id)
  rw [Sys.setGuard_none (s := s.setWaiters m _) unguarded] at detached
  have same : (s.waiterUnbind t m).put t { s.thread t with thWaitQlock := none, pc := p } =
      (s.setWaiters m ((s.mtxWaiters m).erase t)).put t
        { s.thread t with thWaitQlock := none, pc := p } := by
    simp [Sys.waiterUnbind, Sys.put, update_idem]
  rw [same]
  exact detached

theorem Served.retake (served : Served s) (place : (s.thread t).pc = .returning m)
    (step : (s.waiterUnbind t m).lockLoop t m = some s') : Served s' := by
  unfold Sys.lockLoop Sys.waiterUnbind at step
  split at step
  next free =>
    cases step
    unfold Sys.acquire
    refine served.keep ?_ ?_ ?_ <;> grind
  next o owner =>
  split at step
  · cases step
  · cases step
    refine served.keep ?_ ?_ ?_ <;> grind

theorem Coherent.retake (inv : Coherent s) (awake : (s.thread t).thState = .awake)
    (place : (s.thread t).pc = .returning m)
    (unguarded : s.mtxGuard m = none) (step : (s.waiterUnbind t m).lockLoop t m = some s') :
    Preserves P s s' := by
  refine ⟨?_, fun _ served => served.retake place step⟩
  have noted := inv.waits t m (.inr (.inr place))
  have detached :=
    inv.unbind (p := .outside) awake (.inl rfl) noted unguarded (by rw [place]; nofun)
  have here : (s.waiterUnbind t m).thread t = { s.thread t with thWaitQlock := none } := by
    unfold Sys.waiterUnbind
    rw [Sys.thread_put, if_pos rfl]
  rw [← Sys.lockLoop_place .outside, here] at step
  refine (detached.coherent.lockLoop (P := True) ?_ ?_ unguarded step).coherent
  · rw [Sys.thread_put, if_pos rfl]
    exact awake
  · rw [Sys.thread_put, if_pos rfl]

theorem Coherent.blockRelease (inv : Coherent s) (place : (s.thread t).pc = .contended m)
    (step : s.blockRelease t m = some s') : Preserves s'.Spared s s' := by
  have awake :=
    inv.awake (t := t) (by rw [place]; nofun) (by rw [place]; nofun) (by rw [place]; nofun)
  unfold Sys.blockRelease at step
  split at step
  · -- the thread leaves the list before it leaves the guard
    have noted := inv.waits t m (.inl place)
    have detached :=
      inv.edit (.detach (p := .outside) awake (.inl rfl) noted (.inr ((inv.guards m t).mpr place))
        (by rw [place]; nofun) id)
    have here : ((s.waiterUnbind t m).setGuard m none).thread t =
        { s.thread t with thWaitQlock := none } := by
      rw [Sys.thread_setGuard]
      unfold Sys.waiterUnbind
      rw [Sys.thread_put, if_pos rfl]
    have same : ((s.waiterUnbind t m).setGuard m none).put t
        { s.thread t with thWaitQlock := none, pc := .outside } =
        ((s.setWaiters m ((s.mtxWaiters m).erase t)).setGuard m none).put t
          { s.thread t with thWaitQlock := none, pc := .outside } := by
      simp [Sys.waiterUnbind, Sys.put, Sys.setGuard, update_idem]
    rw [← Sys.threadExit_place .outside, here, same] at step
    have out : ((((s.setWaiters m ((s.mtxWaiters m).erase t)).setGuard m none).put t
        { s.thread t with thWaitQlock := none, pc := .outside }).thread t) =
          { s.thread t with thWaitQlock := none, pc := .outside } := by
      rw [Sys.thread_put, if_pos rfl]
    have exited := detached.coherent.threadExit (by rw [out]; exact awake) (by rw [out]; nofun)
      (by rw [out]; nofun) step
    exact ⟨exited.coherent,
      fun spared served => exited.served spared (detached.served (by grind) served)⟩
  split at step
  · cases step
    exact inv.edit (.decline place fun _ => inv.sole place)
  · cases step
    exact inv.edit (.commit place fun _ => inv.sole place)

variable [DecidableEq K]

theorem Coherent.takes (inv : Coherent s) (step : Takes s s') : Preserves s'.Spared s s' := by
  cases step with
  | lock awake out unguarded step => exact inv.lockLoop awake out unguarded step
  | acquire awake out free => exact inv.edit (.acquire awake out free)
  | unlock awake out unguarded step => exact inv.unlock awake out unguarded step
  | park place step => exact inv.blockRelease place step
  | back awake place => exact inv.edit (.back awake place)
  | arrive awake place => exact inv.edit (.wander (.inr ⟨_, place⟩) (.inl ⟨rfl, awake⟩))
  | exit awake place step => exact inv.threadExit awake (by grind) (by grind) step
  | retake place unguarded step =>
    exact inv.retake (inv.awake (by grind) (by grind) (by grind)) place unguarded step
  | wake place => exact inv.wake place
  | stray => exact inv.threadWake _
  | kill => exact ⟨{ inv with }, fun _ => id⟩
  | sleep awake out step => exact inv.blockElsewhere awake out step
  | leave awake out empty unnoted =>
    exact inv.edit (.die (.inl out) (inv.bare empty) unnoted (by rw [awake]; nofun))
  | settle awake out empty noted unguarded =>
    have unbound :=
      inv.unbind awake (.inr ⟨rfl, inv.bare empty⟩) noted unguarded (by rw [out]; nofun)
    exact ⟨unbound.coherent, fun _ => unbound.served (by grind)⟩
  | @retire t place =>
    have died : Preserves True s (s.put t { s.thread t with thState := .zombie, pc := .dying }) :=
      inv.edit (.die (.inr place) (inv.gone t place).1 (inv.gone t place).2 nofun)
    rw [← place] at died
    exact ⟨died.coherent, fun _ => died.served trivial⟩
  | nothing => exact ⟨inv, fun _ => id⟩

end

/-! ### Whole runs -/

theorem coherent_init (task : T → Option K) : Coherent (Sys.init task : Sys T M K) := by
  unfold Sys.init
  constructor <;> grind

theorem served_init (task : T → Option K) : Served (Sys.init task : Sys T M K) :=
  fun _ _ waiting => absurd rfl waiting

/-- In none of these functions, or asleep in one. -/
def Thread.quiet (th : Thread T M) : Bool :=
  match th.pc with
  | .outside | .elsewhere _ | .dying => true
  | .switched _ => th.thState == .blocked
  | _ => false

/-- No thread is inside these functions, and no woken thread is still to run. -/
def Sys.Quiescent (s : Sys T M K) : Prop := ∀ t, (s.thread t).quiet = true

theorem Coherent.not_called (inv : Coherent s) (quiescent : s.Quiescent) : ¬ s.Called m t := by
  rintro ⟨place, unlisted⟩
  have quiet := quiescent t
  unfold Thread.quiet at quiet
  rcases place with place | place
  · rw [place] at quiet
    rcases inv.owed t m place (beq_iff_eq.mp quiet) with listed | ⟨u, releasing⟩
    · exact unlisted listed
    have busy := quiescent u
    unfold Thread.quiet at busy
    rw [releasing] at busy
    cases busy
  · rw [place] at quiet
    cases quiet

section

variable [DecidableEq T] [DecidableEq M] [DecidableEq K]

/-- In every state reached by lockers, unlockers, kills and wakes in any order: a mutex has one
owner at most, a thread's count is the number of mutexes it owns, a thread owns none when a kill
check retires it and when it is gone, a waiter is on its list once, and a thread asleep in
`mutex_lock` is on the list or about to be woken. In a run in which no unlock chooses a waiter that
a kill then takes away, a mutex with a waiter has an owner whenever these functions are at rest. -/
theorem no_waiter_on_free_mutex (task : T → Option K) (s : Sys T M K)
    (run : Runs next (fun _ _ _ => True) (Sys.init task) s) :
    (∀ m t u, m ∈ (s.thread t).inside → m ∈ (s.thread u).inside → t = u) ∧
    (∀ t, (s.thread t).thMutexDepth = (s.thread t).inside.card) ∧
    (∀ t, s.killPending t = true ∨ (s.thread t).thState = .zombie → (s.thread t).inside = ∅) ∧
    (∀ m, (s.mtxWaiters m).Nodup ∧
      ∀ t ∈ s.mtxWaiters m, (s.thread t).pc.Waiting m ∨ (s.thread t).thWaitQlock = some m ∧
        0 < (s.thread t).exits) ∧
    (∀ m t, (s.thread t).pc = .switched m → (s.thread t).thState = .blocked → t ∈ s.mtxWaiters m ∨
      s.Owing t) ∧
    (Runs next (fun _ _ s' => s'.Spared) (Sys.init task) s → s.Quiescent →
      ∀ m, s.mtxWaiters m ≠ [] → s.mtxOwner m ≠ none) := by
  have inv := run.invariant (coherent_init task) fun _ _ _ inv step _ =>
    (inv.takes (next_takes step)).coherent
  refine ⟨fun m t u first second => ?_, inv.depth, fun t out => ?_,
    fun m => ⟨inv.nodup m, fun t member => ?_⟩,
    fun m t => inv.owed t m, fun kept quiescent m waiting free => ?_⟩
  · have owner := (inv.owns m t).mpr first
    rw [(inv.owns m u).mpr second] at owner
    exact (Option.some.inj owner).symm
  · rcases out with pending | zombie
    · unfold Sys.killPending at pending
      split at pending
      · cases pending
      · rw [Bool.and_eq_true, beq_iff_eq] at pending
        exact inv.bare pending.1
    · exact (inv.gone t (inv.dead t zombie)).1
  · have noted := inv.listed t m member
    exact (inv.left t m noted).imp_right fun exiting => ⟨noted, exiting⟩
  have served :=
    kept.invariant (P := fun s => Coherent s ∧ Served s) ⟨coherent_init task, served_init task⟩
    fun _ _ _ both step spared => ⟨(both.1.takes (next_takes step)).coherent,
      (both.1.takes (next_takes step)).served spared both.2⟩
  obtain ⟨t, called⟩ := served.2 m free waiting
  exact inv.not_called quiescent called

end

/-! ### Three threads -/

/-- A task of its own for each of three threads. -/
def trio : Sys (Fin 3) (Fin 1) (Fin 3) := Sys.init some

/-- Thread 0 owns the mutex, 1 and 2 wait for it. -/
def crowd : List (Event (Fin 3) (Fin 1) (Fin 3)) :=
    [.lock 0 0, .lock 1 0, .park 1, .lock 2 0, .park 2]

/-- The first waiter is killed; the unlock wakes it, and it dies before it looks. -/
def killedWaiter : List (Event (Fin 3) (Fin 1) (Fin 3)) :=
  [.kill 1, .unlock 0 0, .wake 0, .resume 1, .settle 1, .retire 1]

instance (pc : Pc T M) (m : M) [DecidableEq T] [DecidableEq M] : Decidable (pc.Waiting m) :=
  inferInstanceAs (Decidable (_ ∨ _))

instance [Fintype T] [Fintype M] [DecidableEq T] [DecidableEq M] : Decidable s.Spared :=
  inferInstanceAs (Decidable (∀ t m, (s.thread t).thWaitQlock = some m →
    ¬ (s.thread t).pc.Waiting m → t ∈ s.mtxWaiters m))

instance [Fintype T] : Decidable s.Quiescent :=
  inferInstanceAs (Decidable (∀ t, (s.thread t).quiet = true))

/-- Thread 2 is woken for nothing and parks again; 1 is given the mutex; 2 is killed, woken and
leaves while it is on the list; 0 comes back. -/
def relay : List (Event (Fin 3) (Fin 1) (Fin 3)) :=
  [.stray 2, .resume 2, .retake 2, .park 2, .unlock 0 0, .wake 0, .resume 1, .retake 1,
    .kill 2, .stray 2, .resume 2, .settle 2, .retire 2, .lock 0 0, .park 0]

theorem no_waiter_on_free_mutex_crowd : ∃ s,
    Runs next (fun _ _ s' => s'.Spared) trio s ∧ s.Quiescent ∧
    s.mtxWaiters 0 = [0] ∧ (s.thread 2).thState = .zombie ∧ s.mtxOwner 0 ≠ none := by
  obtain ⟨s, kept, quiescent, waiters, dead⟩ : ∃ s,
      Runs next (fun _ _ s' => s'.Spared) trio s ∧ s.Quiescent ∧
      s.mtxWaiters 0 = [0] ∧ (s.thread 2).thState = .zombie :=
    Runs.exists_of_follow (crowd ++ relay) (by decide +kernel)
  have run := kept.mono fun _ _ _ _ => trivial
  exact ⟨s, kept, quiescent, waiters, dead,
    (no_waiter_on_free_mutex some s run).2.2.2.2.2 kept quiescent 0 (by rw [waiters]; nofun)⟩

/-- The wake is lost with the thread it was for: all is at rest, the mutex is free, and thread 2
sleeps on it. -/
theorem wake_lost_to_kill : ∃ s, Runs next (fun _ _ _ => True) trio s ∧ s.Quiescent ∧
    s.mtxOwner 0 = none ∧ s.mtxWaiters 0 = [2] ∧ (s.thread 2).thState = .blocked ∧
      (s.thread 1).thState = .zombie :=
  Runs.exists_of_follow (crowd ++ killedWaiter) (by decide +kernel)

end Style9.Sched
