import Mathlib.Data.List.ReduceOption
import Style9.Kern.Zombies

/-!
# Whose zombies the slots hold

A slot of the zombie table is freed by a wait of the parent it names, or when the death of that
parent is recorded. Nothing looks for the parent when a slot is filled, and a child whose death is
recorded after its parent's leaves a slot that nobody frees. But for such deaths every slot names a
task that can wait.
-/
namespace Style9.Kern.Wait

open Style9.Lib Function List Option

def darwinNzombie : Nat := 32

/-- A death is recorded before the parent's. -/
def outlived (w : Processes) : CallState → Bool
  | .recording pid _ _ _ _ =>
    w.tDarwinPpid pid == 0 || decide (∀ z ∈ w.died, z.zPid ≠ w.tDarwinPpid pid)
  | _ => true

/-- A task on the list whose death has not been recorded. -/
structure Processes.Live (w : Processes) (pid : Pid) : Prop where
  listed : w.listed pid = true
  unrecorded : ∀ z ∈ w.died, z.zPid ≠ pid

/-- Only a recorded death takes a task off the list. -/
def Processes.Known (w : Processes) (pid : Pid) : Prop :=
  (∀ z ∈ w.died, z.zPid ≠ pid) → w.listed pid = true

structure Tended (w : Processes) : Prop where
  length : w.darwinZombies.length = darwinNzombie
  slots : ∀ z, some z ∈ w.darwinZombies → w.Live z.zPpid
  parents : ∀ pid, w.tDarwinPpid pid ≠ 0 → w.tDarwinPpid pid ≠ pid ∧ w.Known (w.tDarwinPpid pid)

variable {n : Nat} {s₀ s : Threads n Processes CallState} {w w' : Processes} {work : CallState}
  {z : Zombie} {pid : Pid}
  {slots slots' : List (Option Zombie)}

theorem place_none (full : place z slots = none) : none ∉ slots := by
  induction slots with
  | nil => exact not_mem_nil
  | cons slot rest ih =>
    cases slot with
    | none => cases full
    | some y => simpa using ih (map_eq_none_iff.mp full)

theorem record_length (w : Processes) (pid status utime stime : Nat) :
    (darwinZombieRecord w pid status utime stime).darwinZombies.length =
      w.darwinZombies.length := by
  have swept : (sweep pid w.darwinZombies).length = w.darwinZombies.length := length_map _
  simp only [darwinZombieRecord]
  split
  · exact swept
  · cases placed : place (w.zombie pid status utime stime) (sweep pid w.darwinZombies) with
    | none => exact swept
    | some slots => exact (place_spec placed).1.trans swept

/-- A slot that is in use after a record is the new one, or was in use and is no child's of the task
that dies. -/
theorem record_slot {status utime stime : Nat}
    (there : some z ∈ (darwinZombieRecord w pid status utime stime).darwinZombies) :
    z = w.zombie pid status utime stime ∧ w.tDarwinPpid pid ≠ 0 ∨ z.zPpid ≠ pid ∧
      some z ∈ w.darwinZombies := by
  have counted := (record_count w pid status utime stime z).1
  have many := count_pos_iff.mpr there
  rw [sweep_count] at counted
  by_cases new : z = w.zombie pid status utime stime ∧ w.tDarwinPpid pid ≠ 0
  · exact .inl new
  rw [if_neg new] at counted
  have other : z.zPpid ≠ pid := by
    intro own
    rw [if_pos own] at counted
    omega
  rw [if_neg other] at counted
  exact .inr ⟨other, count_pos_iff.mp (by omega)⟩

theorem Later.live (later : Later work w w') (live : w.Live pid)
    (still : ∀ z ∈ w'.died, z.zPid ≠ pid) :
    w'.Live pid := by
  refine ⟨?_, still⟩
  rcases later.listed pid live.listed with there | ⟨status, z, inside, same, -⟩
  · exact there
  · exact absurd same (live.unrecorded z inside)

theorem Later.known (later : Later work w w') (known : w.Known pid) : w'.Known pid := by
  intro still
  have before : ∀ z ∈ w.died, z.zPid ≠ pid := fun z inside => still z (later.died inside)
  exact (later.live ⟨known before, before⟩ still).listed

theorem Tended.later (tended : Tended w) (later : Later work w w') (fine : outlived w work = true) :
    Tended w' := by
  have parents : ∀ p, w'.tDarwinPpid p ≠ 0 → w'.tDarwinPpid p ≠ p ∧
      w'.Known (w'.tDarwinPpid p) := by
    intro p child
    rcases later.parents p with same | ⟨other, alive⟩
    · rw [same] at child ⊢
      exact (tended.parents p child).imp_right later.known
    · exact ⟨other, later.known fun _ => alive⟩
  rcases later.table with ⟨died, length, fewer⟩ | ⟨pid, status, utime, stime, recorder, rfl, rfl⟩
  · refine ⟨length.trans tended.length, fun z there => ?_, parents⟩
    have live := tended.slots z (fewer z there)
    exact later.live live (died ▸ live.unrecorded)
  refine ⟨(record_length ..).trans tended.length, fun z there => ?_, parents⟩
  rcases record_slot there with ⟨rfl, child⟩ | ⟨other, earlier⟩
  · obtain ⟨other, alive⟩ := tended.parents pid child
    have unrecorded : ∀ d ∈ w.died, d.zPid ≠ w.tDarwinPpid pid := by
      simpa [outlived, child] using fine
    refine later.live ⟨alive unrecorded, unrecorded⟩ ?_
    rintro d (_ | ⟨_, earlier⟩)
    · exact other.symm
    · exact unrecorded d earlier
  have live := tended.slots z earlier
  refine later.live live ?_
  rintro d (_ | ⟨_, earlier⟩)
  · exact other.symm
  · exact live.unrecorded d earlier

/-- A table without a free slot has as many children as it has slots. -/
theorem DeathsOk.full {whole : Prop} {u v : Pid → Nat} {hand : Hand → Nat}
    (ok : DeathsOk whole u v w hand)
    (full : place z (sweep pid w.darwinZombies) = none) :
    w.darwinZombies.reduceOption.length = w.darwinZombies.length ∧
      (w.darwinZombies.reduceOption.map Zombie.zPid).Nodup := by
  have filled : ∀ slot ∈ w.darwinZombies, slot.isSome := by
    intro slot inside
    cases slot with
    | some => rfl
    | none => exact absurd (mem_map.mpr ⟨none, inside, rfl⟩) (place_none full)
  obtain ⟨l, perm, sub⟩ : w.darwinZombies.reduceOption.Subperm w.died := by
    refine subperm_ext_iff.mpr fun z _ => ?_
    have within := ok.within z
    have same : w.darwinZombies.reduceOption.count z = w.darwinZombies.count (some z) :=
      count_filterMap ..
    omega
  exact ⟨reduceOption_length_eq_iff.mpr filled,
    (perm.map _).nodup_iff.mp (ok.one.sublist (sub.map _))⟩

/-- Over every interleaving in which each death is recorded once and before the parent's, every used
slot names a task that is on the list, that nothing has ended, and whose wait for the child finds a
zombie; and a status is dropped only when each of the 32 slots has another such child. -/
theorem zombie_slots_tended (fresh : Fresh s₀)
    (size : s₀.shared.darwinZombies.length = darwinNzombie)
    (parents : ∀ pid, s₀.shared.tDarwinPpid pid ≠ 0 → s₀.shared.tDarwinPpid pid ≠ pid ∧
      s₀.shared.listed (s₀.shared.tDarwinPpid pid) = true)
    (run : Runs next (fun s e _ => single s.shared (s.pc e.1) = true ∧
      outlived s.shared (s.pc e.1) = true) s₀ s) :
    (∀ z, some z ∈ s.shared.darwinZombies → s.shared.Live z.zPpid ∧ s.shared.killed z.zPpid = none ∧
      (darwinZombieReap z.zPpid z.zPid s.shared.darwinZombies).isSome) ∧
    ∀ z pid, place z (sweep pid s.shared.darwinZombies) = none →
      ∃ children : List Zombie, children.length = 32 ∧ (children.map Zombie.zPid).Nodup ∧
        ∀ c ∈ children, some c ∈ s.shared.darwinZombies ∧ s.shared.Live c.zPpid := by
  have start : Account False s₀.shared.tCutime s₀.shared.tCstime s₀ ∧ Tended s₀.shared := by
    refine ⟨fresh.account, size, fun z there => absurd there (fresh.slots z), fun pid child => ?_⟩
    obtain ⟨other, alive⟩ := parents pid child
    exact ⟨other, fun _ => alive⟩
  obtain ⟨account, tended⟩ :=
    run.invariant (P := fun s => Account False _ _ s ∧ Tended s.shared) start
    fun s e s' both taken met => by
      obtain ⟨account, later⟩ := both.1.next taken False.elim met.1
      exact ⟨account, both.2.later later met.2⟩
  refine ⟨fun z there => ⟨tended.slots z there, ?_, reap_isSome there rfl (.inr rfl)⟩,
    fun z pid full => ?_⟩
  · by_contra asked
    obtain ⟨status, asked⟩ := ne_none_iff_exists'.mp asked
    obtain ⟨d, inside, same, -⟩ := account.world.killed _ status asked
    exact (tended.slots z there).unrecorded d inside same
  obtain ⟨length, distinct⟩ := account.world.full full
  refine ⟨_, length.trans tended.length, distinct, fun c inside => ?_⟩
  have there := reduceOption_mem_iff.mp inside
  exact ⟨there, tended.slots c there⟩

/-- Task 1 and its child, with the whole table. -/
def house : Processes := { family with darwinZombies := List.replicate darwinNzombie none }

theorem house_fresh : Fresh (n := 1) ⟨house, fun _ => .idle⟩ :=
  { family_fresh with slots := fun z => by simp [house, mem_replicate], idle := fun _ => rfl }

/-- A child exits and waits in its slot. -/
theorem zombie_slots_tended_house : ∃ s : Threads 1 Processes CallState,
    some ⟨2, 1, 3, 0, 0⟩ ∈ s.shared.darwinZombies ∧ s.shared.Live 1 := by
  obtain ⟨s, run, slot⟩ : ∃ s : Threads 1 Processes CallState, Runs next
      (fun s e _ => single s.shared (s.pc e.1) = true ∧ outlived s.shared (s.pc e.1) = true) ⟨house,
        fun _ => .idle⟩ s ∧
      some ⟨2, 1, 3, 0, 0⟩ ∈ s.shared.darwinZombies :=
    Runs.exists_of_follow [(0, .call (.exit 2 0)), (0, .answer true), (0, .answer true),
      (0, .answer true)]
      (by decide +kernel)
  have holds := zombie_slots_tended house_fresh rfl (fun pid child => by
      have known : pid = 2 := by
        by_contra other
        exact child (if_neg other)
      subst known
      decide) run
  exact ⟨s, slot, (holds.1 _ slot).1⟩

/-- A task exits and its child after it: nobody is in a call, and the child's slot names a task that
is no more. -/
theorem orphan_keeps_slot :
    Fresh (n := 1) ⟨house, fun _ => .idle⟩ ∧ ∃ s : Threads 1 Processes CallState,
    Runs next (fun s e _ => single s.shared (s.pc e.1) = true) ⟨house, fun _ => .idle⟩ s ∧
    s.pc 0 = .idle ∧
    some ⟨2, 1, 3, 0, 0⟩ ∈ s.shared.darwinZombies ∧ s.shared.listed 1 = false :=
  ⟨house_fresh, Runs.exists_of_follow
    [(0, .call (.exit 1 0)), (0, .answer true), (0, .answer true), (0, .answer true),
      (0, .call (.exit 2 0)), (0, .answer true), (0, .answer true),
      (0, .answer true)] (by decide +kernel)⟩

end Style9.Kern.Wait
