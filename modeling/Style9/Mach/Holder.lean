import Mathlib.Data.Fin.VecNotation
import Style9.Mach.Traffic

/-!
# Who receives from a port

A receive looks its name up and then goes on without it, keeping no reference; the calls that take
the receive right out of a table do not wait for it. A message goes to the task that holds the
right, and nobody stays parked on a right that left, as long as the right leaves a table only when
no receive or insert of that name stands between its look and its section.
-/
namespace Style9.Mach

open Style9.Lib List Option

variable {q q' : PortState} {n : Nat} {s s' : PortRun n} {e : Fin n × Chance}

/-- The thread is going to be woken, or it is on the list of a port that its task holds or that is
about to be emptied of waiters. -/
def Attended (s : PortRun n) (i : Fin n) (sp : SpaceId) (name : Name) : Prop :=
  i.val ∈ s.shared.wakePending ∨ (∃ j, i.val ∈ (s.pc j).owes) ∨
    (i.val ∈ s.shared.pWaiters ∧ (s.shared.receive = .named sp name ∨ ∃ j, (s.pc j).detaches))

/-- What holds between any two steps. -/
structure Kept (s : PortRun n) : Prop where
  log : ∀ m into fits holder, .dequeued m into fits holder ∈ s.shared.log →
    ∃ name, holder = .named into name
  looks : ∀ i x, (s.pc i).looks = some x → s.shared.pDead = true ∨ s.shared.receive = .named x.1 x.2
  lists : ∀ i x, (s.pc i).lists = some x → s.shared.receive = .named x.1.space x.2
  members : ∀ set ∈ s.shared.psMembers, ∃ name, s.shared.receive = .named set.space name
  dead : s.shared.pDead = true → s.shared.pQueue = []
  falls : ∀ i, (s.pc i).falls = true → s.shared.receive = .falling
  sole : ∀ i j, (s.pc i).falls = true → (s.pc j).falls = true → i = j
  parked : ∀ i sp name, (s.pc i).parked = some (sp, name) → Attended s i sp name

/-- A right leaves the table where it is only when no receive or insert goes on by its name and no
set lists the port, and for another task only when nobody is on the waiter list either. A message is
put back only on a port that lives. -/
structure Guarded (s : PortRun n) (e : Fin n × Chance) (s' : PortRun n) : Prop where
  leaves : s'.shared.receive ≠ s.shared.receive → ∀ sp name, s.shared.receive = .named sp name →
    (∀ j, (s.pc j).looks ≠ some (sp, name) ∧ (s.pc j).lists = none) ∧ s.shared.psMembers = [] ∧
      (s'.shared.receive = .carried → s.shared.pWaiters = [])
  returns : (∃ m, (s.pc e.1).holding = some (m, false)) → s.shared.pDead = false

/-! One step of a run, of the thread `i`. -/

section

variable {i : Fin n} (kept : Kept s) (effect : Effect i s.shared s'.shared (s.pc i) (s'.pc i))
  (there : ∀ j ≠ i, s'.pc j = s.pc j)

include kept effect there

theorem Kept.falls_step (j : Fin n) (falls : (s'.pc j).falls = true) :
    s'.shared.receive = .falling := by
  by_cases same : j = i
  · rw [same] at falls
    rcases effect.falls falls with ⟨before, receive⟩ | ⟨_, falling⟩
    · exact receive.trans (kept.falls i before)
    · exact falling
  rw [there j same] at falls
  have falling := kept.falls j falls
  rcases effect.stays with receive | mine | elsewhere
  · exact receive.trans falling
  · exact absurd (kept.sole j i falls mine) same
  · exact absurd falling elsewhere

theorem Kept.sole_step (j k : Fin n) (first : (s'.pc j).falls = true)
    (second : (s'.pc k).falls = true) : j = k := by
  -- the thread that moves did not take the right over from another one
  have mine : ∀ l ≠ i, (s'.pc i).falls = true → (s.pc l).falls = true → l = i := by
    intro l other falls before
    rcases effect.falls falls with ⟨already, _⟩ | ⟨elsewhere, _⟩
    · exact kept.sole l i before already
    · exact absurd (kept.falls l before) elsewhere
  by_cases same : j = i <;> by_cases same' : k = i
  · rw [same, same']
  · rw [same] at first ⊢
    rw [there k same'] at second
    exact (mine k same' first second).symm
  · rw [same'] at second ⊢
    rw [there j same] at first
    exact mine j same second first
  · rw [there j same] at first
    rw [there k same'] at second
    exact kept.sole j k first second

end

section

variable {i : Fin n} (kept : Kept s) (effect : Effect i s.shared s'.shared (s.pc i) (s'.pc i))
  (there : ∀ j ≠ i, s'.pc j = s.pc j) {chance : Chance} (guarded : Guarded s (i, chance) s')

include guarded

theorem Guarded.looks_stays {j : Fin n} {x : SpaceId × Name} (looks : (s.pc j).looks = some x)
    (named : s.shared.receive = .named x.1 x.2) : s'.shared.receive = .named x.1 x.2 := by
  by_contra left
  have leaves : s'.shared.receive ≠ s.shared.receive := by rwa [named]
  exact ((guarded.leaves leaves x.1 x.2 named).1 j).1 looks

include kept

theorem Kept.lists_stays {j : Fin n} {x : SetName × Name} (lists : (s.pc j).lists = some x) :
    s'.shared.receive = .named x.1.space x.2 := by
  have named := kept.lists j x lists
  by_contra left
  have leaves : s'.shared.receive ≠ s.shared.receive := by rwa [named]
  have none := ((guarded.leaves leaves _ _ named).1 j).2
  rw [none] at lists
  cases lists

theorem Kept.member_stays {set : SetName} (member : set ∈ s.shared.psMembers) :
    ∃ name, s'.shared.receive = .named set.space name := by
  obtain ⟨name, named⟩ := kept.members set member
  refine ⟨name, ?_⟩
  by_contra left
  have leaves : s'.shared.receive ≠ s.shared.receive := by rwa [named]
  have none := (guarded.leaves leaves _ _ named).2.1
  rw [none] at member
  cases member

include effect there

theorem Kept.looks_step (dead : s.shared.pDead = true → s'.shared.pDead = true) (j : Fin n)
    (x : SpaceId × Name)
    (looks : (s'.pc j).looks = some x) :
    s'.shared.pDead = true ∨ s'.shared.receive = .named x.1 x.2 := by
  have before : ∀ k, (s.pc k).looks = some x → s'.shared.pDead = true ∨
      s'.shared.receive = .named x.1 x.2 :=
    fun k here => (kept.looks k x here).imp dead fun named => guarded.looks_stays here named
  by_cases same : j = i
  · rw [same] at looks
    rcases effect.looks x looks with earlier | gone | named
    · exact before i earlier
    · exact .inl (dead gone)
    · exact .inr named
  · rw [there j same] at looks
    exact before j looks

theorem Kept.lists_step (j : Fin n) (x : SetName × Name) (lists : (s'.pc j).lists = some x) :
    s'.shared.receive = .named x.1.space x.2 := by
  by_cases same : j = i
  · rw [same] at lists
    rcases effect.lists x lists with earlier | named
    · exact kept.lists_stays guarded earlier
    · exact named
  · rw [there j same] at lists
    exact kept.lists_stays guarded lists

theorem Kept.parked_step (j : Fin n) (sp : SpaceId) (name : Name)
    (parked : (s'.pc j).parked = some (sp, name)) :
    Attended s' j sp name := by
  by_cases same : j = i
  · -- it has just parked, on a port that its task holds
    rw [same] at parked ⊢
    obtain ⟨listed, looks, live, receive⟩ := effect.parks _ parked
    have named :=
      (kept.looks i _ looks).resolve_left (by simp [live])
    exact .inr (.inr ⟨listed, .inl (receive.trans named)⟩)
  rw [there j same] at parked
  have other : j.val ≠ i.val := fun equal => same (Fin.ext equal)
  rcases kept.parked j sp name parked with woken | ⟨k, owed⟩ | ⟨listed, reason⟩
  · exact .inl (effect.pending _ other woken)
  · by_cases mine : k = i
    · rw [mine] at owed
      exact (effect.owed _ owed).elim (fun owed => .inr (.inl ⟨i, owed⟩)) .inl
    · exact .inr (.inl ⟨k, (there k mine).symm ▸ owed⟩)
  rcases effect.waiters _ other listed with still | owed
  · rcases reason with named | ⟨k, detaches⟩
    · rcases effect.right with receive | carried | ⟨_, detaches⟩ | falls | unnamed
      · exact .inr (.inr ⟨still, .inl (receive.trans named)⟩)
      · -- a right that moves on finds the list empty
        have leaves : s'.shared.receive ≠ s.shared.receive := by simp [carried, named]
        have empty := (guarded.leaves leaves sp name named).2.2 carried
        rw [empty] at listed
        cases listed
      · exact .inr (.inr ⟨still, .inr ⟨i, detaches⟩⟩)
      · exact absurd ((kept.falls i falls).symm.trans named) nofun
      · exact absurd named (unnamed sp name)
    by_cases mine : k = i
    · rw [mine] at detaches
      rcases effect.detach detaches with later | all
      · exact .inr (.inr ⟨still, .inr ⟨i, later⟩⟩)
      · exact .inr (.inl ⟨i, all _ listed⟩)
    · exact .inr (.inr ⟨still, .inr ⟨k, (there k mine).symm ▸ detaches⟩⟩)
  · exact .inr (.inl ⟨i, owed⟩)

end

theorem Traffic.empty {hand hand' : Option (Mail × Bool)} (traffic : Traffic q q' hand hand')
    (before : q.pDead = true → q.pQueue = [])
    (returns : (∃ m, hand = some (m, false)) → q.pDead = false)
    (dead : q'.pDead = true) : q'.pQueue = [] := by
  cases traffic with
  | calm _ calm => exact calm.queue.trans (before (calm.dead.symm.trans dead))
  | queued m live _ _ _ same => exact absurd (live.symm.trans (same.symm.trans dead)) (by decide)
  | dequeued m _ _ _ queue same =>
    rw [before (same.symm.trans dead)] at queue
    cases queue
  | returned m _ _ same =>
    exact absurd ((returns ⟨m, rfl⟩).symm.trans (same.symm.trans dead)) (by decide)
  | delivered m _ queue same => exact queue.trans (before (same.symm.trans dead))
  | destroyed m calm => exact calm.queue.trans (before (calm.dead.symm.trans dead))
  | died _ _ queue => exact queue

theorem Kept.step (kept : Kept s) (taken : portNext s e = some s') (guarded : Guarded s e s') :
    Kept s' := by
  obtain ⟨w', stepped, moved⟩ := Threads.next_eq_some_iff.mp taken
  have here : s'.pc e.1 = w' := by rw [moved, Function.update_self]
  have there : ∀ j ≠ e.1, s'.pc j = s.pc j := fun j ne => by rw [moved, Function.update_of_ne ne]
  have effect := PortWork.step_effect stepped
  rw [← here] at effect
  have traffic := effect.traffic
  have dead : s.shared.pDead = true → s'.shared.pDead = true := fun dead => by
    by_contra live
    simp [traffic.live (Bool.eq_false_iff.mpr live)] at dead
  refine
    { log := fun m into fits holder event => ?_
      looks := kept.looks_step effect there guarded dead
      lists := kept.lists_step effect there guarded
      members := fun set listed => ?_
      dead := fun dead => ?_
      falls := kept.falls_step effect there
      sole := kept.sole_step effect there
      parked := kept.parked_step effect there guarded }
  · rcases effect.log m into fits holder event with earlier |
      ⟨now, filled, ⟨name, looks⟩ | gone | ⟨set, member, mine⟩⟩
    · exact kept.log m into fits holder earlier
    · rcases kept.looks e.1 _ looks with gone | named
      · exact absurd (kept.dead gone) filled
      · exact ⟨name, now.trans named⟩
    · exact absurd (kept.dead gone) filled
    · obtain ⟨name, named⟩ := kept.members set member
      exact ⟨name, now.trans (mine ▸ named)⟩
  · rcases effect.members set listed with member | ⟨name, lists⟩
    · exact kept.member_stays guarded member
    · exact ⟨name, kept.lists_stays guarded lists⟩
  · exact traffic.empty kept.dead guarded.returns dead

theorem PortRun.Begins.kept (begins : s.Begins) : Kept s := by
  obtain ⟨⟨space, name, wakes, created⟩, fresh⟩ := begins
  have still : ∀ i, (s.pc i).looks = none ∧ (s.pc i).lists = none ∧ (s.pc i).falls = false ∧
      (s.pc i).parked = none := by
    intro i
    have begun := fresh i
    cases work : s.pc i with
    | recv c =>
      rw [work] at begun
      have place := of_decide_eq_true begun
      simp [PortWork.looks, PortWork.lists, PortWork.falls, PortWork.parked, place, RecvStage.looks]
    | set c =>
      rw [work] at begun
      have place := of_decide_eq_true begun
      simp [PortWork.looks, PortWork.lists, PortWork.falls, PortWork.parked, place]
    | drop c =>
      rw [work] at begun
      have place := of_decide_eq_true begun
      simp [PortWork.looks, PortWork.lists, PortWork.falls, PortWork.parked, place, DropStage.falls]
    | _ => exact ⟨rfl, rfl, rfl, rfl⟩
  constructor
  · simp [created, PortState.created]
  · intro i x looks
    rw [(still i).1] at looks
    cases looks
  · intro i x lists
    rw [(still i).2.1] at lists
    cases lists
  · simp [created, PortState.created]
  · simp [created, PortState.created]
  · intro i falls
    rw [(still i).2.2.1] at falls
    cases falls
  · intro i j falls
    rw [(still i).2.2.1] at falls
    cases falls
  · intro i sp name parked
    rw [(still i).2.2.2] at parked
    cases parked

/-- In every run in which the right leaves a table only when no call of that table stands between
its look and its section: a message taken off the queue goes to the task that holds the receive
right at that moment, and a thread that is parked, with no wake on its way and no `port_deref` about
to empty the list, belongs to the task that holds it. -/
theorem received_by_holder {s₀ : PortRun n} (begins : s₀.Begins)
    (run : Runs portNext Guarded s₀ s) :
    (∀ m into fits holder, .dequeued m into fits holder ∈ s.shared.log →
      ∃ name, holder = .named into name) ∧
    ∀ i sp name, (s.pc i).parked = some (sp, name) → i.val ∉ s.shared.wakePending →
      (∀ j, i.val ∉ (s.pc j).owes ∧ (s.pc j).detaches = false) →
        s.shared.receive = .named sp name := by
  have kept := run.invariant (P := Kept) begins.kept fun s e s' kept taken guarded =>
    kept.step taken guarded
  refine ⟨kept.log, fun i sp name parked unwoken quiet => ?_⟩
  rcases kept.parked i sp name parked with woken | ⟨j, owed⟩ | ⟨_, named | ⟨j, detaches⟩⟩
  · exact absurd woken unwoken
  · exact absurd owed (quiet j).1
  · exact named
  · rw [(quiet j).2] at detaches
    cases detaches

/-! ### A receive overtaken by a move -/

/-- A test for a step: the right stays, or nobody goes on by its name. -/
def guards (s : PortRun n) (e : Fin n × Chance) (s' : PortRun n) : Bool :=
  (s'.shared.receive = s.shared.receive ||
    ((∀ j, (s.pc j).looks = none ∧ (s.pc j).lists = none) && s.shared.psMembers.isEmpty &&
      (s'.shared.receive != .carried || s.shared.pWaiters.isEmpty))) &&
    (s.pc e.1).holding.all (·.2)

theorem Guarded.of_guards (passed : guards s e s' = true) : Guarded s e s' := by
  simp only [guards, Bool.and_eq_true, Bool.or_eq_true, decide_eq_true_eq, List.isEmpty_iff,
    bne_iff_ne] at passed
  obtain ⟨stays, keeps⟩ := passed
  refine ⟨fun leaves sp name named => ?_, fun ⟨m, held⟩ => ?_⟩
  · obtain ⟨⟨nobody, unlisted⟩, alone⟩ := stays.resolve_left leaves
    refine ⟨fun j => ⟨?_, (nobody j).2⟩, unlisted, fun carried => ?_⟩
    · rw [(nobody j).1]
      exact nofun
    · exact alone.resolve_left fun elsewhere => elsewhere carried
  · rw [held] at keeps
    cases keeps

def recvOf (space : SpaceId) (name : Name) : PortWork :=
  .recv ⟨space, name, 64, .forever, false, .resolve⟩

def dropThenServe : PortRun 6 :=
  ⟨.created 1 1, ![.watch 1 1, recvOf 1 1, .drop ⟨1, 1, .unbind⟩, .accept 2 5,
    .send ⟨40, .bounded, .forever, .reserve⟩,
    recvOf 2 5]⟩

/-- A right dropped while a thread is parked on it goes to the task that asked for it. The thread
leaves, and the next message is received over there. -/
theorem received_by_holder_two : ∃ s, Runs portNext Guarded dropThenServe s ∧
    s.pc 1 = .recv ⟨1, 1, 64, .forever, false, .done .right⟩ ∧
    .dequeued ⟨0, 40⟩ 2 true (.named 2 5) ∈ s.shared.log ∧
    ∀ m into fits holder, .dequeued m into fits holder ∈ s.shared.log →
      ∃ name, holder = .named into name := by
  obtain ⟨s, run, left, took⟩ : ∃ s, Runs portNext (guards · · · = true) dropThenServe s ∧
      s.pc 1 = .recv ⟨1, 1, 64, .forever, false, .done .right⟩ ∧
        .dequeued ⟨0, 40⟩ 2 true (.named 2 5) ∈ s.shared.log :=
    Runs.exists_of_follow (goes [0, 0, 1, 1, 2, 2, 2, 2, 2, 2, 1, 1, 1, 3, 4, 4, 4, 4, 5, 5, 5])
      (by decide +kernel)
  have guarded := run.mono fun _ _ _ => Guarded.of_guards
  have begins : dropThenServe.Begins := ⟨⟨1, 1, ∅, rfl⟩, by decide⟩
  exact ⟨s, guarded, left, took, (received_by_holder begins guarded).1⟩

def moveUnderReceives : PortRun 5 :=
  ⟨.created 1 1, ![recvOf 1 1, recvOf 1 1, .move ⟨1, 1, .resolve⟩, .accept 2 5,
    .send ⟨40, .bounded, .forever, .reserve⟩]⟩

/-- Two receives of task 1 have looked their name up when the right moves to task 2. The first takes
a message that is meant for task 2, the second parks on the port and nobody is going to wake it. -/
theorem received_after_move :
    moveUnderReceives.Begins ∧ ∃ s, Runs portNext (fun _ _ _ => True) moveUnderReceives s ∧
    .dequeued ⟨0, 40⟩ 1 true (.named 2 5) ∈ s.shared.log ∧ .delivered ⟨0, 40⟩ ∈ s.shared.log ∧
    s.shared.receive = .named 2 5 ∧ (s.pc 1).parked = some (1, 1) ∧ 1 ∉ s.shared.wakePending ∧
    ∀ j, 1 ∉ (s.pc j).owes ∧ (s.pc j).detaches = false :=
  ⟨⟨⟨1, 1, ∅, rfl⟩, by decide⟩,
    Runs.exists_of_follow (goes [0, 1, 2, 2, 2, 3, 4, 4, 4, 4, 0, 0, 1]) (by decide +kernel)⟩

end Style9.Mach
