import Style9.Lib.Threads

/-!
# The reports of dead children

A task that dies leaves a zombie, which its parent takes with `wait4`. The status is recorded by the
task itself, on its way out of `exit`, a fatal signal or a failed `execve`, or by another task that
kills it; nothing marks a task whose death has been recorded. The model has any number of threads,
each in one of these calls, and one step per critical section. What was recorded, what ended each
task, what was added to a parent's times and what `wait4` returned is kept beside the state.
-/
namespace Style9.Kern.Wait

open Style9.Lib Function List Option Nat

abbrev Pid : Type := Nat

/-- `struct darwin_zombie`. -/
structure Zombie where
  zPid : Pid
  zPpid : Pid
  zUtime : Nat
  zStime : Nat
  zStatus : Nat
  deriving DecidableEq

/-- The fields of the tasks, the zombie table, and what became of the deaths: all that were
recorded, the status of what ended each task that left the list, all whose times a parent was given,
all that a `wait4` returned. A request to terminate is kept with the status it stands for. -/
structure Processes where
  tDarwinPpid : Pid → Pid
  listed : Pid → Bool
  killed : Pid → Option Nat
  utime : Pid → Nat
  stime : Pid → Nat
  tCutime : Pid → Nat
  tCstime : Pid → Nat
  darwinZombies : List (Option Zombie)
  nextPid : Pid
  died : List Zombie
  ended : List (Pid × Nat)
  charged : List Zombie
  reported : List Zombie

/-! ### The zombie table -/

/-- The first slot not in use. -/
def place (z : Zombie) : List (Option Zombie) → Option (List (Option Zombie))
  | [] => none
  | none :: rest => some (some z :: rest)
  | some y :: rest => (place z rest).map (some y :: ·)

/-- The zombies of a task that dies are nobody's. -/
def sweep (pid : Pid) (slots : List (Option Zombie)) : List (Option Zombie) :=
  slots.map fun slot => slot.filter fun z => z.zPpid ≠ pid

def darwinZombieReap (ppid pid : Pid) :
    List (Option Zombie) → Option (Zombie × List (Option Zombie))
  | [] => none
  | none :: rest => (darwinZombieReap ppid pid rest).map fun r => (r.1, none :: r.2)
  | some z :: rest =>
    if z.zPpid = ppid ∧ (pid = 0 ∨ z.zPid = pid) then some (z, none :: rest)
    else (darwinZombieReap ppid pid rest).map fun r => (r.1, some z :: r.2)

variable (w : Processes)

def Processes.zombie (pid : Pid) (status utime stime : Nat) : Zombie :=
  ⟨pid, w.tDarwinPpid pid, utime, stime, status⟩

/-- `darwin_zombie_record` under its lock. A full table drops the status. -/
def darwinZombieRecord (pid : Pid) (status utime stime : Nat) : Processes :=
  let z := w.zombie pid status utime stime
  let swept := sweep pid w.darwinZombies
  { w with
    darwinZombies := if z.zPpid = 0 then swept else (place z swept).getD swept
    died := z :: w.died }

/-! ### Calls -/

/-- `exit` stands for every way in which a task records its own death. `run` is time that passes in
a task, `retire` the exit of a task that was killed. -/
inductive Call where
  | fork (ppid : Pid)
  | exit (pid : Pid) (status : Nat)
  | kill (pid : Pid) (sig : Nat)
  | wait4 (ppid pid : Pid)
  | run (pid : Pid) (utime stime : Nat)
  | retire (pid : Pid)
  deriving DecidableEq

inductive Recorder where
  | self
  | killer
  deriving DecidableEq

inductive CallState where
  | idle
  | times (pid : Pid) (status : Nat) (recorder : Recorder)
  | recording (pid : Pid) (status utime stime : Nat) (recorder : Recorder)
  | leaving (pid : Pid) (status : Nat)
  | killing (pid : Pid) (sig : Nat)
  | terminating (pid : Pid) (status : Nat)
  | waiting (ppid pid : Pid)
  | charging (z : Zombie)
  | copying (z : Zombie)
  deriving DecidableEq

/-- What a step finds: a call to make, a disposition that terminates, a wait that goes on, a status
pointer that can be written. -/
inductive Choice where
  | call (c : Call)
  | answer (yes : Bool)
  deriving DecidableEq

def Processes.leave (pid : Pid) (status : Nat) : Processes :=
  { w with listed := update w.listed pid false, ended := (pid, status) :: w.ended }

def begin : Call → Processes × CallState
  | .fork ppid =>
    if w.listed ppid then
      ({ w with
          tDarwinPpid := update w.tDarwinPpid w.nextPid ppid
          listed := update w.listed w.nextPid true
          nextPid := w.nextPid + 1 }, .idle)
    else (w, .idle)
  | .exit pid status => (w, if w.listed pid then .times pid status .self else .idle)
  | .kill pid sig => (w, if w.listed pid then .killing pid sig else .idle)
  | .wait4 ppid pid => (w, if w.listed ppid then .waiting ppid pid else .idle)
  | .run pid utime stime =>
    ({ w with
        utime := update w.utime pid (w.utime pid + utime)
        stime := update w.stime pid (w.stime pid + stime) }, .idle)
  | .retire pid =>
    match w.killed pid with
    | some status => (if w.listed pid then w.leave pid status else w, .idle)
    | none => (w, .idle)

def step (choice : Choice) (w : Processes) : CallState → Option (Processes × CallState)
  | .idle =>
    match choice with
    | .call c => some (begin w c)
    | .answer _ => none
  | .times pid status recorder =>
    some (w, .recording pid status (w.utime pid + w.tCutime pid) (w.stime pid + w.tCstime pid)
      recorder)
  | .recording pid status utime stime recorder =>
    some (darwinZombieRecord w pid status utime stime,
      match recorder with
      | .self => .leaving pid status
      | .killer => .terminating pid status)
  | .leaving pid status => some (w.leave pid status, .idle)
  | .killing pid sig =>
    some (w, if sig ≠ 0 ∧ choice = .answer true then .times pid (sig % 128) .killer else .idle)
  | .terminating pid status =>
    some ({ w with killed := update w.killed pid (some status) }, .idle)
  | .waiting ppid pid =>
    some (
      match darwinZombieReap ppid pid w.darwinZombies with
      | some (z, slots) => ({ w with darwinZombies := slots }, .charging z)
      | none => (w, if choice = .answer true then .waiting ppid pid else .idle))
  | .charging z =>
    some ({ w with
      tCutime := update w.tCutime z.zPpid (w.tCutime z.zPpid + z.zUtime)
      tCstime := update w.tCstime z.zPpid (w.tCstime z.zPpid + z.zStime)
      charged := z :: w.charged }, .copying z)
  | .copying z =>
    some (if choice = .answer true then { w with reported := z :: w.reported } else w, .idle)

def next {n : Nat} (s : Threads n Processes CallState) (e : Fin n × Choice) :
    Option (Threads n Processes CallState) :=
  s.next (step e.2) e.1

/-- A death finds a free slot, and a reaped status can be written. -/
def roomy (choice : Choice) (w : Processes) : CallState → Bool
  | .recording pid status utime stime _ =>
    w.tDarwinPpid pid == 0 ||
      (place (w.zombie pid status utime stime) (sweep pid w.darwinZombies)).isSome
  | .copying _ => choice = .answer true
  | _ => true

/-- The death of a task is recorded once. -/
def single : CallState → Bool
  | .recording pid _ _ _ _ => decide (∀ z ∈ w.died, z.zPid ≠ pid)
  | _ => true

/-! ### Slots -/

section Slots

variable {z y : Zombie} {slots slots' : List (Option Zombie)} {ppid pid : Pid}

theorem place_spec (placed : place z slots = some slots') : slots'.length = slots.length ∧
    ∀ y, slots'.count (some y) = slots.count (some y) + if y = z then 1 else 0 := by
  induction slots generalizing slots' with
  | nil => cases placed
  | cons slot rest ih =>
  cases slot with
  | none =>
    cases placed
    refine ⟨rfl, fun y => ?_⟩
    simp [count_cons, eq_comm (a := z)]
  | some x =>
  obtain ⟨later, inRest, rfl⟩ := map_eq_some_iff.mp placed
  obtain ⟨length, count⟩ := ih inRest
  refine ⟨congrArg succ length, fun y => ?_⟩
  rw [count_cons, count_cons, count]
  omega

theorem sweep_count (pid : Pid) (y : Zombie) (slots : List (Option Zombie)) :
    (sweep pid slots).count (some y) = if y.zPpid = pid then 0 else slots.count (some y) := by
  induction slots with
  | nil => simp [sweep]
  | cons slot rest ih =>
  change List.count _ (_ :: sweep pid rest) = _
  -- only slots of the dying task's children are cleared
  have kept : (slot.filter fun z => decide (z.zPpid ≠ pid)) = some y ↔
      slot = some y ∧ y.zPpid ≠ pid := by
    rw [filter_eq_some_iff, decide_eq_true_iff]
  simp only [count_cons, ih, beq_iff_eq, kept]
  split
  next own => simp [own]
  next other => simp [other]

theorem reap_spec {r : Zombie × List (Option Zombie)}
    (reaped : darwinZombieReap ppid pid slots = some r) :
    r.1.zPpid = ppid ∧ (pid = 0 ∨ r.1.zPid = pid) ∧ r.2.length = slots.length ∧
      ∀ y, slots.count (some y) = r.2.count (some y) + if y = r.1 then 1 else 0 := by
  induction slots generalizing r with
  | nil => cases reaped
  | cons slot rest ih =>
  cases slot with
  | none =>
    obtain ⟨later, inRest, rfl⟩ := map_eq_some_iff.mp reaped
    obtain ⟨parent, named, length, count⟩ := ih inRest
    refine ⟨parent, named, congrArg succ length, fun y => ?_⟩
    simpa using count y
  | some x =>
  simp only [darwinZombieReap] at reaped
  split at reaped
  next found =>
    cases reaped
    refine ⟨found.1, found.2, rfl, fun y => ?_⟩
    simp [count_cons, eq_comm (a := x)]
  next =>
  obtain ⟨later, inRest, rfl⟩ := map_eq_some_iff.mp reaped
  obtain ⟨parent, named, length, count⟩ := ih inRest
  refine ⟨parent, named, congrArg succ length, fun y => ?_⟩
  simp only [count_cons, count y]
  omega

theorem reap_isSome (there : some z ∈ slots) (parent : z.zPpid = ppid)
    (named : pid = 0 ∨ z.zPid = pid) :
    (darwinZombieReap ppid pid slots).isSome := by
  induction slots with
  | nil => cases there
  | cons slot rest ih =>
  rcases mem_cons.mp there with rfl | later
  · simp [darwinZombieReap, parent, named]
  cases slot with
  | none => simpa [darwinZombieReap] using ih later
  | some x =>
  simp only [darwinZombieReap]
  split
  · rfl
  · simpa using ih later

end Slots

/-! ### The account of the deaths -/

/-- A reaped zombie, before and after its times are added. -/
inductive Hand where
  | taken (z : Zombie)
  | added (z : Zombie)

def CallState.holds : CallState → Hand → Nat
  | .charging z, .taken y => if y = z then 1 else 0
  | .copying z, .added y => if y = z then 1 else 0
  | _, _ => 0

def Processes.Recorded (pid : Pid) (status : Nat) : Prop :=
  ∃ z ∈ w.died, z.zPid = pid ∧ z.zStatus = status

/-- What the parent `p` was given in all, of one of the two times. -/
def Processes.given (time : Zombie → Nat) (w : Processes) (p : Pid) : Nat :=
  w.charged.foldr (fun z sum => sum + if z.zPpid = p then time z else 0) 0

/-- The deaths and what became of them, with the zombies in the hands of threads; no status was lost
if `whole`. `u` and `v` are the times of reaped children that the tasks started with. -/
structure DeathsOk (whole : Prop) (u v : Pid → Nat) (w : Processes) (hand : Hand → Nat) : Prop where
  within : ∀ z, w.darwinZombies.count (some z) + hand (.taken z) + hand (.added z) +
    w.reported.count z ≤
    w.died.count z
  kept : whole → ∀ z, z.zPpid ≠ 0 → (∀ d ∈ w.died, d.zPid ≠ z.zPpid) → w.died.count z ≤
    w.darwinZombies.count (some z) + hand (.taken z) + hand (.added z) + w.reported.count z
  charged : whole → ∀ z, w.charged.count z = hand (.added z) + w.reported.count z
  parent : ∀ z ∈ w.died, z.zPpid = w.tDarwinPpid z.zPid ∧ z.zPid < w.nextPid
  one : (w.died.map Zombie.zPid).Nodup
  ended : ∀ e ∈ w.ended, w.Recorded e.1 e.2
  killed : ∀ pid status, w.killed pid = some status → w.Recorded pid status
  utime : ∀ p, w.tCutime p = u p + w.given Zombie.zUtime p
  stime : ∀ p, w.tCstime p = v p + w.given Zombie.zStime p
  listed : ∀ pid, w.listed pid = true → pid < w.nextPid

/-- What a thread relies on. -/
def Own : CallState → Prop
  | .times pid _ _ | .recording pid _ _ _ _ | .killing pid _ => pid < w.nextPid
  | .leaving pid status | .terminating pid status => w.Recorded pid status
  | _ => True

variable {z : Zombie}

section Steps

variable {whole : Prop} {u v : Pid → Nat} {w w' : Processes} {hand rest : Hand → Nat}
  {pid status : Nat} {work : CallState}

/-- What a step does to the tasks and to the table: process numbers are not reused, only a task
whose death was recorded leaves the list, a child gets a listed task for its parent, and but for a
death no slot is filled. -/
structure Later (work : CallState) (w w' : Processes) : Prop where
  nextPid : w.nextPid ≤ w'.nextPid
  listed : ∀ p, w.listed p = true → w'.listed p = true ∨ ∃ status, w.Recorded p status
  parents : ∀ p, w'.tDarwinPpid p = w.tDarwinPpid p ∨ w'.tDarwinPpid p ≠ p ∧
    w.listed (w'.tDarwinPpid p) = true
  table : w'.died = w.died ∧ w'.darwinZombies.length = w.darwinZombies.length ∧
      (∀ z, some z ∈ w'.darwinZombies → some z ∈ w.darwinZombies) ∨
    ∃ pid status utime stime recorder, work = .recording pid status utime stime recorder ∧
      w' = darwinZombieRecord w pid status utime stime

theorem Later.of_eq (nextPid : w'.nextPid = w.nextPid) (listed : w'.listed = w.listed)
    (parents : w'.tDarwinPpid = w.tDarwinPpid) (died : w'.died = w.died)
    (table : w'.darwinZombies = w.darwinZombies) : Later work w w' where
  nextPid := nextPid.ge
  listed _ there := .inl (listed ▸ there)
  parents _ := .inl (parents ▸ rfl)
  table := .inl ⟨died, congrArg _ table, fun _ => table ▸ id⟩

theorem Later.refl : Later work w w := .of_eq rfl rfl rfl rfl rfl

theorem Later.leave (recorded : w.Recorded pid status) : Later work w (w.leave pid status) where
  nextPid := le_rfl
  listed p there := by
    rcases eq_or_ne p pid with rfl | other
    · exact .inr ⟨status, recorded⟩
    · exact .inl ((update_of_ne other _ _).trans there)
  parents _ := .inl rfl
  table := .inl ⟨rfl, rfl, fun _ => id⟩

theorem Later.died (later : Later work w w') : w.died ⊆ w'.died := by
  rcases later.table with ⟨same, -⟩ | ⟨_, _, _, _, _, -, rfl⟩
  · exact same ▸ List.Subset.refl _
  · exact subset_cons_self _ _

theorem Processes.Recorded.later (recorded : w.Recorded pid status) (later : w.died ⊆ w'.died) :
    w'.Recorded pid status := by
  obtain ⟨z, inside, known⟩ := recorded
  exact ⟨z, later inside, known⟩

theorem Own.later {mover : CallState} (own : Own w work) (later : Later mover w w') :
    Own w' work := by
  cases work with
  | idle | waiting | charging | copying => exact own
  | times | recording | killing => exact lt_of_lt_of_le own later.nextPid
  | leaving | terminating => exact Processes.Recorded.later own later.died

theorem Processes.given_cons (time : Zombie → Nat) {p : Pid}
    (charges : w'.charged = z :: w.charged) :
    w'.given time p = w.given time p + if z.zPpid = p then time z else 0 := by
  unfold Processes.given
  rw [charges, foldr_cons]

theorem DeathsOk.leave (ok : DeathsOk whole u v w hand) (recorded : w.Recorded pid status) :
    DeathsOk whole u v (w.leave pid status) hand := by
  refine { ok with ended := ?_, killed := ok.killed, listed := ?_ }
  · rintro e (_ | ⟨_, earlier⟩)
    · exact recorded
    · exact ok.ended e earlier
  intro p still
  rcases eq_or_ne p pid with rfl | other
  · cases still.symm.trans (update_self ..)
  · exact ok.listed p ((update_of_ne other _ _).symm.trans still)

theorem DeathsOk.begin (ok : DeathsOk whole u v w hand) (work : CallState) (c : Call) :
    DeathsOk whole u v (begin w c).1 hand ∧ Own (begin w c).1 (begin w c).2 ∧
      (begin w c).2.holds = (fun _ => 0) ∧
      Later work w (begin w c).1 := by
  cases c with
  | fork ppid =>
    simp only [Wait.begin]
    split
    next alive =>
      refine ⟨{ ok with
        parent := fun z inside => ?_, ended := ok.ended, killed := ok.killed
        listed := fun p there => ?_ },
        trivial, rfl, le_succ _, fun p there => .inl ?_, fun p => ?_, .inl ⟨rfl, rfl, fun _ => id⟩⟩
      · obtain ⟨same, below⟩ := ok.parent z inside
        exact ⟨same.trans (update_of_ne (Nat.ne_of_lt below) _ _).symm, Nat.lt_succ_of_lt below⟩
      · rcases eq_or_ne p w.nextPid with rfl | other
        · exact lt_succ_self _
        · exact Nat.lt_succ_of_lt (ok.listed p ((update_of_ne other _ _).symm.trans there))
      · exact (update_of_ne (Nat.ne_of_lt (ok.listed p there)) _ _).trans there
      rcases eq_or_ne p w.nextPid with rfl | other
      · refine .inr ?_
        dsimp only
        rw [update_self]
        exact ⟨Nat.ne_of_lt (ok.listed ppid alive), alive⟩
      · exact .inl (update_of_ne other _ _)
    · exact ⟨ok, trivial, rfl, .refl⟩
  | exit pid status | kill pid status =>
    simp only [Wait.begin]
    split
    next there => exact ⟨ok, ok.listed pid there, rfl, .refl⟩
    · exact ⟨ok, trivial, rfl, .refl⟩
  | wait4 ppid pid =>
    simp only [Wait.begin]
    split <;> exact ⟨ok, trivial, rfl, .refl⟩
  | run pid utime stime =>
    exact ⟨{ ok with ended := ok.ended, killed := ok.killed }, trivial, rfl,
      .of_eq rfl rfl rfl rfl rfl⟩
  | retire pid =>
  simp only [Wait.begin]
  split
  next status killed =>
    split
    · have recorded := ok.killed pid status killed
      exact ⟨ok.leave recorded, trivial, rfl, .leave recorded⟩
    · exact ⟨ok, trivial, rfl, .refl⟩
  · exact ⟨ok, trivial, rfl, .refl⟩

/-- The table after a record: what the sweep leaves, and one zombie more if there is a parent and
room. -/
theorem record_count (w : Processes) (pid status utime stime : Nat) (z : Zombie) :
    (darwinZombieRecord w pid status utime stime).darwinZombies.count (some z) ≤
      (sweep pid w.darwinZombies).count (some z) +
        (if z = w.zombie pid status utime stime ∧ w.tDarwinPpid pid ≠ 0 then 1 else 0) ∧
    ((w.tDarwinPpid pid ≠ 0 →
      (place (w.zombie pid status utime stime) (sweep pid w.darwinZombies)).isSome) →
      (sweep pid w.darwinZombies).count (some z) +
        (if z = w.zombie pid status utime stime ∧ w.tDarwinPpid pid ≠ 0 then 1 else 0) ≤
      (darwinZombieRecord w pid status utime stime).darwinZombies.count (some z)) := by
  have parent : (w.zombie pid status utime stime).zPpid = w.tDarwinPpid pid := rfl
  simp only [darwinZombieRecord, parent]
  split
  next orphan => simp [orphan]
  next parent =>
    cases placed : place (w.zombie pid status utime stime) (sweep pid w.darwinZombies) with
    | none => exact ⟨le_add_right _ _, fun room => absurd (room parent) Bool.false_ne_true⟩
    | some slots => simp [(place_spec placed).2, parent]

theorem DeathsOk.record {utime stime : Nat} (ok : DeathsOk whole u v w hand)
    (below : pid < w.nextPid)
    (first : ∀ z ∈ w.died, z.zPid ≠ pid) (room : whole → w.tDarwinPpid pid ≠ 0 →
      (place (w.zombie pid status utime stime) (sweep pid w.darwinZombies)).isSome) :
    DeathsOk whole u v (darwinZombieRecord w pid status utime stime) hand := by
  have more : w.died ⊆ (darwinZombieRecord w pid status utime stime).died := subset_cons_self _ _
  refine { ok with
    within := fun z => ?_, kept := fun kept z parent alive => ?_, parent := ?_, one := ?_
    ended := ?_, killed := ?_ }
  · have counted := (record_count w pid status utime stime z).1
    have before := ok.within z
    rw [sweep_count] at counted
    simp only [darwinZombieRecord, count_cons, beq_iff_eq] at counted ⊢
    grind
  · have counted := (record_count w pid status utime stime z).2 (room kept)
    have before := ok.kept kept z parent fun d inside => alive d (more inside)
    rw [sweep_count, if_neg (show z.zPpid ≠ pid from (alive _ (mem_cons_self ..)).symm)] at counted
    have mine : z = w.zombie pid status utime stime → w.tDarwinPpid pid ≠ 0 := by
      rintro rfl
      exact parent
    simp only [darwinZombieRecord, count_cons, beq_iff_eq] at counted ⊢
    grind
  · rintro z (_ | ⟨_, earlier⟩)
    · exact ⟨rfl, below⟩
    · exact ok.parent z earlier
  · refine nodup_cons.mpr ⟨fun again => ?_, ok.one⟩
    obtain ⟨z, inside, same⟩ := mem_map.mp again
    exact first z inside same
  · exact fun e earlier => (ok.ended e earlier).later more
  · exact fun p status asked => (ok.killed p status asked).later more

theorem DeathsOk.reap {ppid p : Pid} {slots : List (Option Zombie)}
    (ok : DeathsOk whole u v w ((CallState.waiting ppid p).holds + rest))
    (reaped : darwinZombieReap ppid p w.darwinZombies = some (z, slots)) :
    DeathsOk whole u v { w with darwinZombies := slots } ((CallState.charging z).holds + rest) := by
  have moved : ∀ y, w.darwinZombies.count (some y) = slots.count (some y) + if y = z then 1
      else 0 :=
    (reap_spec reaped).2.2.2
  refine { ok with
    within := fun y => ?_, kept := fun kept y parent alive => ?_, ended := ok.ended
    killed := ok.killed }
  · have before := ok.within y
    have here := moved y
    simp only [CallState.holds, Pi.add_apply] at before ⊢
    omega
  have before := ok.kept kept y parent alive
  have here := moved y
  simp only [CallState.holds, Pi.add_apply] at before ⊢
  omega

theorem Processes.given_update {time : Zombie → Nat} {c start : Pid → Nat}
    (before : ∀ p, c p = start p + w.given time p) (charges : w'.charged = z :: w.charged)
    (p : Pid) :
    update c z.zPpid (c z.zPpid + time z) p = start p + w'.given time p := by
  rw [Processes.given_cons time charges]
  rcases eq_or_ne p z.zPpid with rfl | other
  · rw [update_self, before, if_pos rfl, add_assoc]
  · rw [update_of_ne other, before, if_neg other.symm, add_zero]

theorem DeathsOk.charge (ok : DeathsOk whole u v w ((CallState.charging z).holds + rest)) :
    DeathsOk whole u v { w with
        tCutime := update w.tCutime z.zPpid (w.tCutime z.zPpid + z.zUtime)
        tCstime := update w.tCstime z.zPpid (w.tCstime z.zPpid + z.zStime)
        charged := z :: w.charged } ((CallState.copying z).holds + rest) := by
  refine { ok with
    within := fun y => ?_, kept := fun kept y parent alive => ?_, charged := fun kept y => ?_
    ended := ok.ended, killed := ok.killed
    utime := Processes.given_update ok.utime rfl, stime := Processes.given_update ok.stime rfl }
  · have before := ok.within y
    simp only [CallState.holds, Pi.add_apply] at before ⊢
    omega
  · have before := ok.kept kept y parent alive
    simp only [CallState.holds, Pi.add_apply] at before ⊢
    omega
  · have before := ok.charged kept y
    simp only [CallState.holds, Pi.add_apply, count_cons, beq_iff_eq, eq_comm (b := y)] at before ⊢
    omega

theorem DeathsOk.report (ok : DeathsOk whole u v w ((CallState.copying z).holds + rest)) :
    DeathsOk whole u v { w with reported := z :: w.reported } (CallState.idle.holds + rest) := by
  refine { ok with
    within := fun y => ?_, kept := fun kept y parent alive => ?_, charged := fun kept y => ?_
    ended := ok.ended, killed := ok.killed }
  · have before := ok.within y
    simp only [CallState.holds, Pi.add_apply, count_cons, beq_iff_eq, eq_comm (b := y)] at before ⊢
    omega
  · have before := ok.kept kept y parent alive
    simp only [CallState.holds, Pi.add_apply, count_cons, beq_iff_eq, eq_comm (b := y)] at before ⊢
    omega
  · have before := ok.charged kept y
    simp only [CallState.holds, Pi.add_apply, count_cons, beq_iff_eq, eq_comm (b := y)] at before ⊢
    omega

theorem DeathsOk.forget (ok : DeathsOk whole u v w ((CallState.copying z).holds + rest))
    (lost : ¬ whole) :
    DeathsOk whole u v w (CallState.idle.holds + rest) := by
  refine { ok with
    within := fun y => ?_, kept := fun kept => absurd kept lost
    charged := fun kept => absurd kept lost }
  have before := ok.within y
  simp only [CallState.holds, Pi.add_apply] at before ⊢
  omega

theorem DeathsOk.terminate (ok : DeathsOk whole u v w hand) (recorded : w.Recorded pid status) :
    DeathsOk whole u v { w with killed := update w.killed pid (some status) } hand := by
  refine { ok with ended := ok.ended, killed := fun p asked request => ?_ }
  rcases eq_or_ne p pid with rfl | other
  · have asks : update w.killed p (some status) p = some asked := request
    rw [update_self] at asks
    cases asks
    exact recorded
  · exact ok.killed p asked ((update_of_ne other _ _).symm.trans request)

theorem DeathsOk.step {choice : Choice} {work' : CallState}
    (ok : DeathsOk whole u v w (work.holds + rest))
    (own : Own w work) (room : whole → roomy choice w work = true) (first : single w work = true)
    (taken : step choice w work = some (w', work')) :
    DeathsOk whole u v w' (work'.holds + rest) ∧ Own w' work' ∧ Later work w w' := by
  cases work with
  | idle =>
    cases choice with
    | answer => cases taken
    | call c =>
    obtain ⟨kept, mine, empty, later⟩ := ok.begin .idle c
    rw [Option.some.inj taken] at kept mine empty later
    refine ⟨?_, mine, later⟩
    rw [empty]
    exact kept
  | times pid status recorder =>
    cases taken
    exact ⟨ok, own, .refl⟩
  | recording pid status utime stime recorder =>
    have kept :=
      ok.record own (of_decide_eq_true first) fun kept parent =>
        by simpa [roomy, parent] using room kept
    have recorded : (darwinZombieRecord w pid status utime stime).Recorded pid status :=
      ⟨_, mem_cons_self .., rfl, rfl⟩
    cases recorder with
    | self | killer =>
      cases taken
      exact ⟨kept, recorded, le_rfl, fun _ => .inl, fun _ => .inl rfl,
        .inr ⟨_, _, _, _, _, rfl, rfl⟩⟩
  | leaving pid status =>
    cases taken
    exact ⟨ok.leave own, trivial, .leave own⟩
  | killing pid sig =>
    simp only [Wait.step] at taken
    split at taken
    · cases taken
      exact ⟨ok, own, .refl⟩
    · cases taken
      exact ⟨ok, trivial, .refl⟩
  | terminating pid status =>
    cases taken
    exact ⟨ok.terminate own, trivial, .of_eq rfl rfl rfl rfl rfl⟩
  | waiting ppid pid =>
    simp only [Wait.step] at taken
    split at taken
    next z slots reaped =>
      cases taken
      obtain ⟨-, -, length, count⟩ := reap_spec reaped
      refine ⟨ok.reap reaped, trivial, le_rfl, fun _ => .inl, fun _ => .inl rfl,
        .inl ⟨rfl, length, fun y there => ?_⟩⟩
      exact count_pos_iff.mp ((count y).symm ▸ Nat.add_pos_left (count_pos_iff.mpr there) _)
    next =>
    cases taken
    split
    · exact ⟨ok, trivial, .refl⟩
    · exact ⟨ok, trivial, .refl⟩
  | charging z =>
    cases taken
    exact ⟨ok.charge, trivial, .of_eq rfl rfl rfl rfl rfl⟩
  | copying z =>
  simp only [Wait.step] at taken
  split at taken
  · cases taken
    exact ⟨ok.report, trivial, .of_eq rfl rfl rfl rfl rfl⟩
  next unwritten =>
    cases taken
    exact ⟨ok.forget fun kept => unwritten (of_decide_eq_true (room kept)), trivial, .refl⟩

end Steps

/-! ### Whole runs -/

section Whole

variable {n : Nat} {whole : Prop} {s₀ s s' : Threads n Processes CallState} {e : Fin n × Choice}
  {w : Processes}
  {hand : Hand → Nat}

/-- A start: nobody has died, and every thread is outside these calls. -/
structure Fresh (s : Threads n Processes CallState) : Prop where
  slots : ∀ z, some z ∉ s.shared.darwinZombies
  died : s.shared.died = []
  ended : s.shared.ended = []
  charged : s.shared.charged = []
  reported : s.shared.reported = []
  killed : ∀ pid, s.shared.killed pid = none
  listed : ∀ pid, s.shared.listed pid = true → pid < s.shared.nextPid
  idle : ∀ i, s.pc i = .idle

abbrev Account (whole : Prop) (u v : Pid → Nat) (s : Threads n Processes CallState) : Prop :=
  s.Sound (DeathsOk whole u v) CallState.holds Own fun _ _ => True

theorem Fresh.account (fresh : Fresh s) : Account whole s.shared.tCutime s.shared.tCstime s := by
  have nothing : s.total CallState.holds = fun _ => 0 := by
    funext k
    simp [Threads.total, fresh.idle, CallState.holds]
  have given : ∀ time p, s.shared.given time p = 0 :=
    fun time p => by simp [Processes.given, fresh.charged]
  refine ⟨?_, fun i => by rw [fresh.idle i]; trivial, fun _ _ _ => trivial⟩
  rw [nothing]
  exact {
    within := fun z => by simp [fresh.reported, count_eq_zero.mpr (fresh.slots z)]
    kept := fun _ z _ _ => by simp [fresh.died]
    charged := fun _ z => by simp [fresh.charged, fresh.reported]
    parent := fun z inside => by simp [fresh.died] at inside
    one := by simp [fresh.died]
    ended := fun e inside => by simp [fresh.ended] at inside
    killed := fun pid status asked => by simp [fresh.killed] at asked
    utime := fun p => by rw [given, add_zero]
    stime := fun p => by rw [given, add_zero]
    listed := fresh.listed }

theorem Account.next {u v : Pid → Nat} (sound : Account whole u v s) (taken : next s e = some s')
    (room : whole → roomy e.2 s.shared (s.pc e.1) = true)
    (first : single s.shared (s.pc e.1) = true) :
    Account whole u v s' ∧ Later (s.pc e.1) s.shared s'.shared := by
  have world := sound.world
  rw [s.total_eq CallState.holds e.1] at world
  have later : ∀ m p, step e.2 s.shared (s.pc e.1) = some (m, p) → Later (s.pc e.1) s.shared m :=
    fun m p moved =>
    (world.step (sound.own e.1) room first moved).2.2
  refine ⟨sound.kept taken (fun m p moved ok own => ?_) fun m p j _ moved own _ _ => ?_, ?_⟩
  · obtain ⟨kept, mine, -⟩ := ok.step own room first moved
    exact ⟨kept, mine⟩
  · exact ⟨own.later (later m p moved), trivial, trivial⟩
  · obtain ⟨p, moved, -⟩ := Threads.next_eq_some_iff.mp taken
    exact later _ p moved

/-- The condition on every step of a run. -/
abbrev Once (s : Threads n Processes CallState) (e : Fin n × Choice)
    (_ : Threads n Processes CallState) : Prop :=
  roomy e.2 s.shared (s.pc e.1) = true ∧ single s.shared (s.pc e.1) = true

theorem runs_account (fresh : Fresh s₀) (run : Runs next Once s₀ s) :
    Account True s₀.shared.tCutime s₀.shared.tCstime s :=
  run.invariant fresh.account fun _ _ _ sound taken met =>
    (sound.next taken (fun _ => met.1) met.2).1

theorem DeathsOk.mem_died {u v : Pid → Nat} (ok : DeathsOk True u v w hand)
    (reported : z ∈ w.charged) : z ∈ w.died := by
  have many := count_pos_iff.mpr reported
  rw [ok.charged trivial z] at many
  have within := ok.within z
  exact count_pos_iff.mp (by omega)

theorem DeathsOk.at_most_once {u v : Pid → Nat} {l : List Zombie} (ok : DeathsOk whole u v w hand)
    (few : ∀ z, l.count z ≤ w.died.count z) (c : Pid) : (l.filter (·.zPid = c)).length ≤ 1 := by
  have sub := subperm_ext_iff.mpr fun z _ => few z
  calc (l.filter (·.zPid = c)).length = l.countP (·.zPid = c) := countP_eq_length_filter.symm
    _ ≤ w.died.countP (·.zPid = c) := sub.countP_le _
    _ = (w.died.map Zombie.zPid).count c := by
      rw [count_eq_countP, countP_map]
      congr 1
    _ ≤ 1 := nodup_iff_count_le_one.mp ok.one c

theorem DeathsOk.same {u v : Pid → Nat} {y : Zombie} (ok : DeathsOk whole u v w hand)
    (first : y ∈ w.died) (second : z ∈ w.died) (same : y.zPid = z.zPid) : y = z :=
  inj_on_of_nodup_map ok.one first second same

/-- Where the zombie of a death is: in its slot, in the hand of a waiting thread, or reported. -/
def Placed (s : Threads n Processes CallState) (z : Zombie) : Prop :=
  (∃ slots, darwinZombieReap z.zPpid z.zPid s.shared.darwinZombies = some (z, slots)) ∨
  (∃ i, s.pc i = .charging z ∨ s.pc i = .copying z) ∨ z ∈ s.shared.reported

theorem CallState.eq_of_holds {work : CallState}
    (held : 0 < work.holds (.taken z) ∨ 0 < work.holds (.added z)) :
    work = .charging z ∨ work = .copying z := by
  cases work with
  | charging y =>
    have same : z = y := by
      by_contra other
      simp [CallState.holds, other] at held
    exact .inl (same ▸ rfl)
  | copying y =>
    have same : z = y := by
      by_contra other
      simp [CallState.holds, other] at held
    exact .inr (same ▸ rfl)
  | idle | times | recording | leaving | killing | terminating | waiting =>
    simp [CallState.holds] at held

theorem Account.placed {u v : Pid → Nat} (account : Account True u v s) (inside : z ∈ s.shared.died)
    (named : z.zPid ≠ 0) (parent : z.zPpid ≠ 0) (alive : ∀ d ∈ s.shared.died, d.zPid ≠ z.zPpid) :
    Placed s z := by
  have ok := account.world
  have kept := ok.kept trivial z parent alive
  have positive := count_pos_iff.mpr inside
  by_cases slot : some z ∈ s.shared.darwinZombies
  · -- the wait for this child finds a zombie, and the child has left only one
    obtain ⟨⟨y, slots⟩, reaped⟩ := isSome_iff_exists.mp (reap_isSome slot rfl (.inr rfl))
    obtain ⟨-, same, -, count⟩ := reap_spec reaped
    have there := count y
    have within := ok.within y
    rw [if_pos rfl] at there
    have yDied : y ∈ s.shared.died := count_pos_iff.mp (by omega)
    obtain rfl := ok.same yDied inside (same.resolve_left named)
    exact .inl ⟨slots, reaped⟩
  rw [count_eq_zero.mpr slot] at kept
  by_cases reported : z ∈ s.shared.reported
  · exact .inr (.inr reported)
  rw [count_eq_zero.mpr reported] at kept
  have held : 0 < s.total CallState.holds (.taken z) ∨ 0 < s.total CallState.holds (.added z) := by
    omega
  refine .inr (.inl ?_)
  rcases held with held | held
  · obtain ⟨i, holds⟩ := Threads.exists_of_total held
    exact ⟨i, CallState.eq_of_holds (.inl holds)⟩
  · obtain ⟨i, holds⟩ := Threads.exists_of_total held
    exact ⟨i, CallState.eq_of_holds (.inr holds)⟩

/-- Over every interleaving in which each death is recorded once, a child whose parent lives is
reported at most once and its times are added at most once, with the values that were recorded; once
it has ended, its one zombie has the status of what ended it and is in the table, with a thread of
the parent or reported; and the parents' times are those they started with and those of the reaped
children. -/
theorem child_reported_once {c : Pid} (fresh : Fresh s₀) (run : Runs next Once s₀ s) (child : c ≠ 0)
    (parent : s.shared.tDarwinPpid c ≠ 0)
    (alive : ∀ d ∈ s.shared.died, d.zPid ≠ s.shared.tDarwinPpid c) :
    (s.shared.reported.filter (·.zPid = c)).length ≤ 1 ∧
    (s.shared.charged.filter (·.zPid = c)).length ≤ 1 ∧
    (∀ z ∈ s.shared.reported, z.zPid = c → z ∈ s.shared.charged ∧ z ∈ s.shared.died) ∧
    (∀ status, (c, status) ∈ s.shared.ended → ∃ z, z.zPid = c ∧ z.zPpid = s.shared.tDarwinPpid c ∧
      z.zStatus = status ∧ Placed s z ∧ ∀ y ∈ s.shared.reported, y.zPid = c → y = z) ∧
    (∀ p, s.shared.tCutime p = s₀.shared.tCutime p + s.shared.given Zombie.zUtime p ∧
      s.shared.tCstime p = s₀.shared.tCstime p + s.shared.given Zombie.zStime p) := by
  have account := runs_account fresh run
  have ok := account.world
  have reportedCharged : ∀ z ∈ s.shared.reported, z ∈ s.shared.charged := fun z reported => by
    have many := count_pos_iff.mpr reported
    have charged := ok.charged trivial z
    exact count_pos_iff.mp (by omega)
  refine ⟨ok.at_most_once (fun z => ?_) c, ok.at_most_once (fun z => ?_) c, fun z reported _ => ?_,
    fun status ended => ?_, fun p => ⟨ok.utime p, ok.stime p⟩⟩
  · have within := ok.within z
    omega
  · have within := ok.within z
    have charged := ok.charged trivial z
    omega
  · exact ⟨reportedCharged z reported, ok.mem_died (reportedCharged z reported)⟩
  obtain ⟨z, inside, rfl, same⟩ := ok.ended _ ended
  have whose := (ok.parent z inside).1
  refine ⟨z, rfl, whose, same, ?_, fun y reported equal => ?_⟩
  · exact account.placed inside child (whose ▸ parent) (whose ▸ alive)
  · exact ok.same (ok.mem_died (reportedCharged y reported)) inside equal

/-- Task 1 and its child 2, which has run for three units of time. -/
def family : Processes :=
  { tDarwinPpid := fun pid => if pid = 2 then 1 else 0
    listed := fun pid => pid == 1 || pid == 2
    killed := fun _ => none
    utime := fun pid => if pid = 2 then 3 else 0
    stime := fun _ => 0
    tCutime := fun _ => 0
    tCstime := fun _ => 0
    darwinZombies := [none, none]
    nextPid := 3
    died := []
    ended := []
    charged := []
    reported := [] }

theorem family_fresh : Fresh (n := 2) ⟨family, fun _ => .idle⟩ := by
  refine ⟨fun z => by simp [family], rfl, rfl, rfl, rfl, fun _ => rfl, fun pid there => ?_,
    fun _ => rfl⟩
  have known : pid = 1 ∨ pid = 2 := by simpa [family] using there
  rcases known with rfl | rfl
  · exact (by decide : 1 < 3)
  · exact (by decide : 2 < 3)

/-- A child is killed while its parent waits for it. -/
theorem child_reported_once_family : ∃ s : Threads 2 Processes CallState, (2, 9) ∈ s.shared.ended ∧
    s.shared.reported = [⟨2, 1, 3, 0, 9⟩] ∧ (s.shared.reported.filter (·.zPid = 2)).length ≤ 1 ∧
    s.shared.tCutime 1 = 0 + s.shared.given Zombie.zUtime 1 := by
  obtain ⟨s, run, ended, reported, parent, alive⟩ : ∃ s : Threads 2 Processes CallState,
      Runs next Once ⟨family, fun _ => .idle⟩ s ∧ (2, 9) ∈ s.shared.ended ∧
      s.shared.reported = [⟨2, 1, 3, 0, 9⟩] ∧
      s.shared.tDarwinPpid 2 = 1 ∧ ∀ d ∈ s.shared.died, d.zPid ≠ 1 :=
    Runs.exists_of_follow [(0, .call (.wait4 1 2)), (1, .call (.kill 2 9)), (0, .answer true),
      (1, .answer true),
      (1, .answer true), (1, .answer true), (0, .answer true), (1, .answer true), (0, .answer true),
      (1, .call (.retire 2)),
      (0, .answer true)] (by decide +kernel)
  have holds := child_reported_once (c := 2) family_fresh run (by decide) (parent ▸ one_ne_zero)
    (parent ▸ alive)
  exact ⟨s, ended, reported, holds.1, (holds.2.2.2.2 1).1⟩

/-- Two kills of a child that has not yet run its exit: the parent is told of two deaths, one of
them with a status that did not end the child, and is given the child's time twice. -/
theorem two_kills_two_reports :
    Fresh (n := 2) ⟨family, fun _ => .idle⟩ ∧ ∃ s : Threads 2 Processes CallState,
    Runs next (fun s e _ => roomy e.2 s.shared (s.pc e.1) = true) ⟨family, fun _ => .idle⟩ s ∧
    (∀ d ∈ s.shared.died, d.zPid ≠ 1) ∧ s.shared.reported = [⟨2, 1, 3, 0, 9⟩, ⟨2, 1, 3, 0, 15⟩] ∧
    s.shared.ended = [(2, 9)] ∧ s.shared.tCutime 1 = 6 :=
  ⟨family_fresh, Runs.exists_of_follow
    [(0, .call (.kill 2 15)), (1, .call (.kill 2 9)), (0, .answer true), (1, .answer true),
      (0, .answer true),
      (1, .answer true), (0, .answer true), (1, .answer true), (0, .answer true), (1, .answer true),
      (0, .call (.retire 2)),
      (0, .call (.wait4 1 2)), (0, .answer true), (0, .answer true), (0, .answer true),
      (0, .call (.wait4 1 2)),
      (0, .answer true), (0, .answer true), (0, .answer true)] (by decide +kernel)⟩

end Whole

end Style9.Kern.Wait
