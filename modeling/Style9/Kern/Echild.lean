import Style9.Kern.Orphans

/-!
# The answer that there is no child

`wait4` looks for a zombie and, when there is none, counts the children on the task list, under
another lock. A child that records its zombie and leaves the list between the two looks is seen by
neither, and the answer is `ECHILD` although there was the child or its zombie all the time. But for
such a child the answer is true when the children are counted.
-/
namespace Style9.Kern.Wait

open Style9.Lib List Option

/-- A thread in one of the calls; `wait4` has a stage between its two looks. -/
inductive Stage where
  | calls (work : CallState)
  | counting (ppid pid : Pid)
  | echild (ppid pid : Pid)
  deriving DecidableEq

/-- Whether a wait of `ppid` for `pid` is about this child of this parent; 0 is for any child. -/
def asks (ppid pid parent child : Pid) : Bool := parent == ppid && (pid == 0 || child == pid)

theorem asks_iff {ppid pid parent child : Pid} :
    asks ppid pid parent child = true ↔ parent = ppid ∧ (pid = 0 ∨ child = pid) := by
  simp [asks]

def taskCountDarwinChildren (w : Processes) (ppid pid : Pid) : Nat :=
  (List.range w.nextPid).countP fun p => w.listed p && asks ppid pid (w.tDarwinPpid p) p

def Stage.step (choice : Choice) (w : Processes) : Stage → Option (Processes × Stage)
  | .calls (.waiting ppid pid) =>
    some (
      match darwinZombieReap ppid pid w.darwinZombies with
      | some (z, slots) => ({ w with darwinZombies := slots }, .calls (.charging z))
      | none => (w, .counting ppid pid))
  | .calls work => (Wait.step choice w work).map fun r => (r.1, .calls r.2)
  | .counting ppid pid =>
    some (w,
      if taskCountDarwinChildren w ppid pid = 0 then .echild ppid pid
      else .calls (if choice = .answer true then .waiting ppid pid else .idle))
  | .echild .. => some (w, .calls .idle)

def Stage.next {n : Nat} (s : Threads n Processes Stage) (e : Fin n × Choice) :
    Option (Threads n Processes Stage) :=
  s.next (Stage.step e.2) e.1

/-- The call as it is without the stage. -/
def Stage.work : Stage → CallState
  | .calls work => work
  | .counting ppid pid => .waiting ppid pid
  | .echild .. => .idle

/-- The wait has looked for this zombie and is about to count. -/
def Stage.passed : Stage → Zombie → Bool
  | .counting ppid pid, z => asks ppid pid z.zPpid z.zPid
  | _, _ => false

/-- The task that the step takes off the list. -/
def Stage.leaver (choice : Choice) (w : Processes) : Stage → Option Pid
  | .calls (.leaving pid _) => some pid
  | .calls .idle =>
    match choice with
    | .call (.retire pid) => (w.killed pid).map fun _ => pid
    | _ => none
  | _ => none

variable {n : Nat} {whole : Prop} {u v : Pid → Nat} {s₀ s s' : Threads n Processes Stage}
  {e : Fin n × Choice} {w w' : Processes} {choice : Choice} {work work' : CallState}
    {stage stage' : Stage}
  {ppid pid : Pid}

/-- No task leaves the list while its zombie is in the table and a wait for it is about to count. -/
def Steady (s : Threads n Processes Stage) (e : Fin n × Choice) : Prop :=
  ∀ i, ∀ z ∈ s.shared.darwinZombies.reduceOption, (s.pc i).passed z = true →
    (s.pc e.1).leaver e.2 s.shared ≠ some z.zPid

instance : Decidable (Steady s e) := inferInstanceAs (Decidable (∀ _, _))

theorem leave_listed {status : Nat} {p : Pid} (other : p ≠ pid) (listed : w.listed p = true) :
    (w.leave pid status).listed p = true :=
  (Function.update_of_ne other _ _).trans listed

theorem begin_listed {c : Call} (stays : c = .retire pid → w.killed pid = none)
    (listed : w.listed pid = true) : (Wait.begin w c).1.listed pid = true := by
  cases c with
  | fork ppid =>
    simp only [Wait.begin]
    split
    · simp [Function.update_apply, listed]
    · exact listed
  | retire p =>
    cases killed : w.killed p with
    | none => simpa only [Wait.begin, killed] using listed
    | some status =>
    have other : pid ≠ p := by
      rintro rfl
      rw [stays rfl] at killed
      cases killed
    simp only [Wait.begin, killed]
    split
    · exact leave_listed other listed
    · exact listed
  | _ => exact listed

theorem Stage.listed_of_stays (taken : stage.step choice w = some (w', stage'))
    (stays : stage.leaver choice w ≠ some pid) (listed : w.listed pid = true) :
    w'.listed pid = true := by
  cases stage with
  | calls work =>
    cases work with
    | idle =>
      cases choice with
      | answer => cases taken
      | call c =>
      cases taken
      refine begin_listed (fun same => ?_) listed
      subst same
      cases killed : w.killed pid with
      | none => rfl
      | some status => exact absurd (congrArg (Option.map fun _ => pid) killed) stays
    | leaving p status =>
      cases taken
      exact leave_listed (fun same => stays (congrArg some same.symm)) listed
    | waiting => grind [Stage.step]
    | copying => grind [Stage.step, Wait.step]
    | _ =>
      cases taken
      exact listed
  | counting ppid pid =>
    cases taken
    exact listed
  | echild =>
    cases taken
    exact listed

/-- The task whose death a call is going to record. -/
def CallState.target : CallState → Option Pid
  | .times pid _ _ | .recording pid _ _ _ _ | .killing pid _ => some pid
  | _ => none

/-- What a thread relies on: the task whose death it is going to record is on the list unless its
death was recorded, and so is every task whose zombie the thread has not looked at. -/
structure Relies (w : Processes) (stage : Stage) : Prop where
  own : Own w stage.work
  known : ∀ p, stage.work.target = some p → w.Known p
  there : ∀ z, some z ∈ w.darwinZombies → stage.passed z = true → w.listed z.zPid = true

theorem Relies.of_quiet (own : Own w stage.work) (target : stage.work.target = none)
    (passed : ∀ z, stage.passed z = false) : Relies w stage where
  own := own
  known p aimed := by
    rw [target] at aimed
    cases aimed
  there z _ looked := by
    rw [passed] at looked
    cases looked

theorem step_target (taken : step choice w work = some (w', work')) (p : Pid)
    (aimed : work'.target = some p) : work.target = some p ∨ w.listed p = true := by
  cases work with
  | idle =>
    cases choice with
    | answer => cases taken
    | call c => cases c <;> grind [step, Wait.begin, CallState.target]
  | recording pid status utime stime recorder => cases recorder <;> grind [step, CallState.target]
  | _ => grind [step, CallState.target]

theorem Relies.step {rest : Hand → Nat} (relies : Relies w (.calls work))
    (ok : DeathsOk whole u v w (work.holds + rest)) (room : whole → roomy choice w work = true)
    (first : single w work = true)
    (taken : step choice w work = some (w', work')) :
    DeathsOk whole u v w' (work'.holds + rest) ∧ Relies w' (.calls work') ∧ Later work w w' := by
  obtain ⟨kept, own, later⟩ := ok.step relies.own room first taken
  refine ⟨kept, ⟨own, fun p aimed => later.known ?_, fun _ _ passed => by cases passed⟩, later⟩
  rcases step_target taken p aimed with before | listed
  · exact relies.known p before
  · exact fun _ => listed

theorem Relies.moves {rest : Hand → Nat} (relies : Relies w stage)
    (ok : DeathsOk whole u v w (stage.work.holds + rest))
    (room : whole → roomy choice w stage.work = true) (first : single w stage.work = true)
    (taken : stage.step choice w = some (w', stage')) :
    DeathsOk whole u v w' (stage'.work.holds + rest) ∧ Relies w' stage' ∧
      Later stage.work w w' := by
  cases stage with
  | calls work =>
    by_cases waits : ∃ ppid pid, work = .waiting ppid pid
    · obtain ⟨ppid, pid, rfl⟩ := waits
      cases reaped : darwinZombieReap ppid pid w.darwinZombies with
      | some r =>
        simp only [Stage.step, reaped] at taken
        cases taken
        exact relies.step ok room first (by simp [Wait.step, reaped, Stage.work])
      | none =>
        simp only [Stage.step, reaped] at taken
        cases taken
        refine ⟨ok, ⟨trivial, fun _ aimed => (by cases aimed), fun z slot passed => ?_⟩, .refl⟩
        -- the first look has found nothing
        obtain ⟨parent, named⟩ := asks_iff.mp passed
        have found := reap_isSome slot parent named
        rw [reaped] at found
        cases found
    · have plain : Stage.step choice w (.calls work) =
          (Wait.step choice w work).map fun r => (r.1, .calls r.2) := by
        cases work with
        | waiting ppid pid => exact absurd ⟨ppid, pid, rfl⟩ waits
        | _ => rfl
      rw [plain] at taken
      obtain ⟨⟨_, work'⟩, moved, rfl, rfl⟩ := map_eq_some_iff.mp taken
      exact relies.step ok room first moved
  | counting ppid pid =>
    cases taken
    split
    next => exact ⟨ok, .of_quiet trivial rfl fun _ => rfl, .refl⟩
    next =>
      split
      next => exact ⟨ok, .of_quiet trivial rfl fun _ => rfl, .refl⟩
      next => exact ⟨ok, .of_quiet trivial rfl fun _ => rfl, .refl⟩
  | echild =>
    cases taken
    exact ⟨ok, .of_quiet trivial rfl fun _ => rfl, .refl⟩

theorem Relies.later {mover : CallState} (relies : Relies w stage) (later : Later mover w w')
    (first : single w mover = true) (aims : ∀ p, mover.target = some p → w.Known p)
    (stays : ∀ z, some z ∈ w.darwinZombies → stage.passed z = true → w.listed z.zPid = true →
      w'.listed z.zPid = true) : Relies w' stage where
  own := relies.own.later later
  known p aimed := later.known (relies.known p aimed)
  there z slot passed := by
    rcases later.table with ⟨-, -, fewer⟩ | ⟨p, status, utime, stime, recorder, rfl, rfl⟩
    · exact stays z (fewer z slot) passed (relies.there z (fewer z slot) passed)
    · rcases record_slot slot with ⟨rfl, -⟩ | ⟨-, earlier⟩
      · -- a task is on the list when its death is recorded
        exact aims p rfl (of_decide_eq_true first)
      · exact relies.there z earlier passed

abbrev Watched (whole : Prop) (u v : Pid → Nat) (s : Threads n Processes Stage) : Prop :=
  s.Sound (DeathsOk whole u v) (fun stage => stage.work.holds) Relies fun _ _ => True

theorem Watched.next (sound : Watched whole u v s) (taken : Stage.next s e = some s')
    (room : whole → roomy e.2 s.shared (s.pc e.1).work = true)
    (first : single s.shared (s.pc e.1).work = true) (steady : Steady s e) :
    Watched whole u v s' := by
  have world := sound.world
  rw [s.total_eq _ e.1] at world
  obtain ⟨p, moved, -⟩ := Threads.next_eq_some_iff.mp taken
  obtain ⟨-, -, later⟩ := (sound.own e.1).moves world room first moved
  refine sound.kept taken (fun m q moves ok own => ?_) fun m q j _ moves own _ _ =>
    ⟨?_, trivial, trivial⟩
  · obtain ⟨kept, mine, -⟩ := own.moves ok room first moves
    exact ⟨kept, mine⟩
  · cases moved.symm.trans moves
    exact own.later later first (sound.own e.1).known fun z slot passed =>
      Stage.listed_of_stays moves (steady j z (reduceOption_mem_iff.mpr slot) passed)

/-- A step finds room for a status where `whole` asks for it, records no death twice, and takes no
task off the list between the two looks of a wait for its zombie. -/
def Careful (whole : Prop) (s : Threads n Processes Stage) (e : Fin n × Choice) : Prop :=
  (whole → roomy e.2 s.shared (s.pc e.1).work = true) ∧
    single s.shared (s.pc e.1).work = true ∧ Steady s e

instance [Decidable whole] : Decidable (Careful whole s e) := inferInstanceAs (Decidable (_ ∧ _))

/-- Over every interleaving in which each death is recorded once and no child both records its
zombie and leaves the list between the two looks of a wait for it: a wait that answers `ECHILD` had
no child on the list and no zombie when it counted; and unless a status was lost, the zombie of
every recorded child of a living parent is what the parent's next wait for it finds, or a wait has
it. -/
theorem echild_is_true {w₀ : Processes} (whole : Prop) (fresh : Fresh (n := n) ⟨w₀, fun _ => .idle⟩)
    (run : Runs Stage.next (fun s e _ => Careful whole s e) ⟨w₀, fun _ => .calls .idle⟩ s) :
    (∀ i choice s' ppid pid, s.pc i = .counting ppid pid → Stage.next s (i, choice) = some s' →
      s'.pc i = .echild ppid pid →
      (∀ p, s.shared.listed p = true → asks ppid pid (s.shared.tDarwinPpid p) p = false) ∧
        darwinZombieReap ppid pid s.shared.darwinZombies = none) ∧
    (whole → ∀ z ∈ s.shared.died, z.zPid ≠ 0 → z.zPpid ≠ 0 →
      (∀ d ∈ s.shared.died, d.zPid ≠ z.zPpid) →
      Placed ⟨s.shared, fun i => (s.pc i).work⟩ z) := by
  have start : Watched whole w₀.tCutime w₀.tCstime (n := n) ⟨w₀, fun _ => .calls .idle⟩ :=
    ⟨fresh.account.world, fun _ => .of_quiet trivial rfl fun _ => rfl, fun _ _ _ => trivial⟩
  have watched : Watched whole w₀.tCutime w₀.tCstime s := run.invariant start
    fun _ _ _ sound taken met => sound.next taken met.1 met.2.1 met.2.2
  have ok := watched.world
  refine ⟨fun i choice s' ppid pid here taken answer => ?_,
    fun kept z inside named parent alive => ?_⟩
  · obtain ⟨p, moved, there⟩ := Threads.next_eq_some_iff.mp taken
    rw [there, Function.update_self] at answer
    simp only [here, Stage.step, Option.some.injEq, Prod.mk.injEq, answer] at moved
    have counted : taskCountDarwinChildren s.shared ppid pid = 0 := by
      by_contra more
      rw [if_neg more] at moved
      cases moved.2
    have childless : ∀ p, s.shared.listed p = true →
        asks ppid pid (s.shared.tDarwinPpid p) p = false := by
      intro p listed
      have none := countP_eq_zero.mp counted p (mem_range.mpr (ok.listed p listed))
      simpa [listed] using none
    refine ⟨childless, ?_⟩
    by_contra found
    obtain ⟨⟨z, slots⟩, reaped⟩ := ne_none_iff_exists'.mp found
    obtain ⟨parent, named, -, count⟩ := reap_spec reaped
    have one := count z
    have within := ok.within z
    rw [if_pos rfl] at one
    have asked : asks ppid pid z.zPpid z.zPid = true := asks_iff.mpr ⟨parent, named⟩
    have listed := (watched.own i).there z (count_pos_iff.mp (by omega)) (by rw [here]; exact asked)
    have none := childless z.zPid listed
    rw [← (ok.parent z (count_pos_iff.mp (by omega))).1, asked] at none
    cases none
  · have account : Account True w₀.tCutime w₀.tCstime ⟨s.shared, fun i => (s.pc i).work⟩ := by
      rw [← eq_true kept]
      exact ⟨ok, fun i => (watched.own i).own, fun _ _ _ => trivial⟩
    exact account.placed inside named parent alive

/-- The parent waits for any child after it has taken its only one. -/
theorem echild_is_true_family : ∃ s s' : Threads 2 Processes Stage, s.pc 0 = .counting 1 0 ∧
    Stage.next s (0, .answer true) = some s' ∧ s'.pc 0 = .echild 1 0 ∧
    s.shared.listed 2 = false ∧ darwinZombieReap 1 0 s.shared.darwinZombies = none := by
  obtain ⟨s, run, here, gone, answers⟩ : ∃ s : Threads 2 Processes Stage,
      Runs Stage.next (fun s e _ => Careful True s e) ⟨family, fun _ => .calls .idle⟩ s ∧
      s.pc 0 = .counting 1 0 ∧ s.shared.listed 2 = false ∧
      (Stage.next s (0, .answer true)).any (fun s' => decide (s'.pc 0 = .echild 1 0)) = true :=
    Runs.exists_of_follow
      [(0, .call (.wait4 1 2)), (1, .call (.exit 2 0)), (1, .answer true), (1, .answer true),
        (1, .answer true), (0, .answer true), (0, .answer true), (0, .answer true),
        (0, .call (.wait4 1 0)), (0, .answer true)] (by decide +kernel)
  obtain ⟨s', taken, answer⟩ := (Option.any_eq_true _ _).mp answers
  have answer := of_decide_eq_true answer
  have holds := (echild_is_true True family_fresh run).1 0 _ s' 1 0 here taken answer
  exact ⟨s, s', here, taken, answer, gone, holds.2⟩

/-- A parent that waits for its only child is told that there is none, and at every instant of the
wait the child was on the list or its zombie in the table. -/
theorem echild_for_a_zombie : Fresh (n := 2) ⟨family, fun _ => .idle⟩ ∧
    ∃ s : Threads 2 Processes Stage,
    Runs Stage.next (fun s e s' => roomy e.2 s.shared (s.pc e.1).work = true ∧
      single s.shared (s.pc e.1).work = true ∧
      (s'.shared.listed 2 = true ∧ s'.shared.tDarwinPpid 2 = 1 ∨
        (darwinZombieReap 1 2 s'.shared.darwinZombies).isSome = true))
      ⟨family, fun _ => .calls .idle⟩ s ∧ s.pc 0 = .echild 1 2 :=
  ⟨family_fresh, Runs.exists_of_follow
    [(0, .call (.wait4 1 2)), (0, .answer true), (1, .call (.exit 2 0)), (1, .answer true),
      (1, .answer true), (1, .answer true), (0, .answer true)] (by decide +kernel)⟩

end Style9.Kern.Wait
