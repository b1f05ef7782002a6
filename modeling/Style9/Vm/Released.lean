import Style9.Lib.Threads
import Style9.Vm.Windows

/-!
# A range released while other threads use it

Any number of faults, releases and captures of one task, their steps in any order. As long as no
call acts on a page of a range that another is taking away, every leaf lies under an entry and
every owner is counted. Without that, a page filled after the unmapping has passed it outlives its
entry.
-/
namespace Style9.Vm

open Style9.Lib Act Option

variable {m m' : Memory} {t page va size : Nat} {write : Bool} {c d : VmWork}
  {held rest : Multiset Frame} {old pa : Frame}
  {prot : Prot} {e : VmMapEntry} {l : Leaf}

/-! ### Calls side by side -/

namespace VmWork

def Relies (t : Nat) (m : Memory) : VmWork → Prop
  | .fault page _ stage => page % vmPageSize = 0 ∧ stage.Own t page m
  | .release va size stage => stage.Own t va size m
  | .capture _ _ _ stage => stage.Own t m

structure Own (t : Nat) (s : VmShared) (c : VmWork) : Prop where
  inside : c.locked = true → s.lock = true
  relies : c.Relies t s.mem

/-- Two calls act on different addresses. -/
def Clear (c d : VmWork) : Prop := c.region.2 ≤ d.region.1 ∨ d.region.2 ≤ c.region.1

instance : Decidable (Clear c d) := inferInstanceAs (Decidable (_ ∨ _))

theorem Clear.symm (clear : Clear c d) : Clear d c := Or.symm clear

theorem Clear.elsewhere {a : Nat} (clear : Clear c d) (acts : d.Acts a) : ¬ c.Acts a := by
  unfold Clear Acts at *
  omega

theorem Relies.undisturbed (relies : d.Relies t m) (effect : Effect t c m m') (clear : Clear c d)
    (outside : d.locked = true → c.wants = false ∧ c.locked = false) : d.Relies t m' := by
  have entries : d.locked = true → m'.entries t = m.entries t := fun locked =>
    effect.entries (outside locked).1 (outside locked).2
  have leaf : ∀ a, d.Acts a → m'.leaf t a = m.leaf t a := fun a acts =>
    effect.leaf t a fun both => clear.elsewhere acts both.2
  -- the two facts a call inside the lock has about its page
  have maps : ∀ a f, d.Acts a → Maps t m a f → Maps t m' a f := by
    rintro a f acts ⟨l, present, rfl⟩
    exact ⟨l, (leaf a acts).trans present, rfl⟩
  have promised : ∀ a prot, d.locked = true → Promised t m a prot → Promised t m' a prot := by
    rintro a prot locked ⟨e, found, rest⟩
    exact ⟨e, by rw [entries locked]; exact found, rest⟩
  cases d with
  | fault page write stage =>
    obtain ⟨aligned, own⟩ := relies
    refine ⟨aligned, ?_⟩
    have here : page ≤ page ∧ page < page + 1 := ⟨le_rfl, Nat.lt_succ_self _⟩
    cases stage with
    | counting old prot => exact ⟨maps page old here own.1, promised page prot rfl own.2⟩
    | stealing old prot | replacing old pa prot =>
      exact ⟨maps page old here own.1, promised page prot rfl own.2⟩
    | installing pa prot => exact ⟨(leaf page here).trans own.1, promised page prot rfl own.2⟩
    | copying old | copied old pa =>
      intro e' found'
      obtain ⟨e, found, alike⟩ := effect.back page e' found'
      exact alike.anon.trans (own e found)
    | looking | filling obj off | filled pa | dropping f result | done result => trivial
  | release va size stage =>
    have kept : ∀ v, (∀ a, va ≤ a → a < va + size → m'.leaf t a = m.leaf t a) →
      Emptied t m va (va + size) v →
        Emptied t m' va (va + size) v := fun v same gone a l present low high =>
      gone a l (by rw [← same a low high]; exact present) low high
    cases stage with
    | unmapping v =>
      obtain ⟨shielded, low, aligned, gone⟩ := relies
      exact ⟨shielded.effect effect fun a l h => clear.elsewhere ⟨l, h⟩, low, aligned,
        kept v (fun a l h => leaf a ⟨l, h⟩) gone⟩
    | pulling v pa =>
      obtain ⟨⟨shielded, low, aligned, gone⟩, high, mapped⟩ := relies
      exact ⟨⟨shielded.effect effect fun a l h => clear.elsewhere ⟨l, h⟩, low, aligned,
        kept v (fun a l h => leaf a ⟨l, h⟩) gone⟩, high, maps v pa ⟨low, high⟩ mapped⟩
    | dropping v pa =>
      obtain ⟨shielded, low, aligned, gone⟩ := relies
      exact ⟨shielded.effect effect fun a l h => clear.elsewhere ⟨l, h⟩, low, aligned,
        kept _ (fun a l h => leaf a ⟨l, h⟩) gone⟩
    | checking => trivial
    | done ok =>
    cases ok with
    | false => trivial
    | true =>
    intro a low high
    by_contra there
    obtain ⟨e', found'⟩ := ne_none_iff_exists'.mp there
    obtain ⟨e, found, -⟩ := effect.back a e' found'
    rw [relies a low high] at found
    cases found
  | capture addr size maxPages stage =>
  cases stage with
  | sharing e pages taken | unsharing e pages taken pa => exact Sharable.congr relies (entries rfl)
  | referencing e page pages taken pa | protecting e page pages taken pa =>
    exact ⟨relies.1.congr (entries rfl), maps page pa ⟨le_rfl, Nat.lt_succ_self _⟩ relies.2⟩
  | claiming | copying taken rest | undoing frames | done frames => trivial

/-! ### One step -/

variable {c' : VmWork} {s s' : VmShared}

theorem act_yields (relies : c.Relies t m) (owned : Owned m (c.hand + rest)) :
    (c.act t).Yields (· = .pmmRefWrap) m fun c' m' => c'.Relies t m' ∧
      Stepped t rest c m c' m' := by
  cases c with
  | fault page write stage =>
    refine (FaultStage.act_yields relies.1 relies.2 owned).bind fun stage' m' kept => ?_
    exact .pure ⟨⟨relies.1, kept.1⟩, kept.2⟩
  | release va size stage =>
    exact (ReleaseStage.act_yields relies owned).bind fun stage' m' kept => .pure kept
  | capture addr size maxPages stage =>
    exact (CaptureStage.act_yields relies owned).bind fun stage' m' kept => .pure kept

theorem step_eq_some (taken : c.step t s = some (s', c')) : (c.wants = true → s.lock = false) ∧
    c.act t s.mem = (.ok c', s'.mem) ∧ s'.lock = if c.wants || c.locked then c'.locked
      else s.lock := by
  unfold step at taken
  split at taken
  · cases taken
  next free =>
  simp only [Bool.or_eq_true, Bool.and_eq_true, not_or, not_and, Bool.not_eq_true] at free
  split at taken
  next c₁ m₁ run =>
    cases taken
    exact ⟨free.2, run, rfl⟩
  · cases taken

/-! ### Runs -/

/-- Two calls act on different addresses, and are not both inside the lock. -/
structure Apart (c d : VmWork) : Prop where
  clear : Clear c d
  lock : c.locked = true → d.locked = false

theorem Apart.symm (apart : Apart c d) : Apart d c where
  clear := apart.clear.symm
  lock inside := by
    cases mine : c.locked with
    | false => rfl
    | true => rw [apart.lock mine] at inside; cases inside

def Begins : VmWork → Prop
  | .fault page _ .looking => page % vmPageSize = 0
  | .release _ _ .checking | .capture _ _ _ .claiming => True
  | _ => False

theorem Begins.start (begins : c.Begins) (m : Memory) :
    c.Relies t m ∧ c.locked = false ∧ c.region = (0, 0) ∧ c.hand = 0 := by
  unfold Begins at begins
  split at begins
  · exact ⟨⟨begins, trivial⟩, rfl, rfl, rfl⟩
  · exact ⟨trivial, rfl, rfl, rfl⟩
  · exact ⟨trivial, rfl, rfl, rfl⟩
  · cases begins

variable {n : Nat} {base : Multiset Frame} {w w' : Threads n VmShared VmWork} {i : Fin n}

/-- The accounts in order, with the shares that messages had and those the calls have in hand. -/
abbrev Sound (t : Nat) (base : Multiset Frame) (w : Threads n VmShared VmWork) : Prop :=
  Threads.Sound (fun s hands => Owned s.mem (base + hands)) hand (Own t) Apart w

/-- The call that moves acts on no address that another acts on. -/
def Keeps (w : Threads n VmShared VmWork) (i : Fin n) : Prop := ∀ j ≠ i, Clear (w.pc i) (w.pc j)

instance : Decidable (Keeps w i) := inferInstanceAs (Decidable (∀ _, _))

theorem Sound.step (sound : Sound t base w) (taken : Threads.next (step t) w i = some w')
    (keeps : Keeps w' i) :
    Sound t base w' := by
  obtain ⟨p, moved, pcs⟩ := Threads.next_eq_some_iff.mp taken
  have here : w'.pc i = p := by rw [pcs, Function.update_self]
  refine Threads.Sound.kept sound taken (fun s c stepped world own => ?_)
    fun s c j other stepped theirs apart _ => ?_
  · obtain ⟨-, run, lock⟩ := step_eq_some stepped
    have world : Owned w.shared.mem ((w.pc i).hand + (base + w.rest hand i)) := by
      rw [add_left_comm]
      exact world
    obtain ⟨relies, kept⟩ := (act_yields own.relies world).ok run
    refine ⟨by rw [add_left_comm]; exact kept.owned, fun locked => ?_, relies⟩
    rw [lock, if_pos (kept.inside locked), locked]
  obtain ⟨free, run, lock⟩ := step_eq_some stepped
  have world : Owned w.shared.mem ((w.pc i).hand + (base + w.rest hand i)) := by
    have whole := sound.world
    rw [Threads.total_eq hand w i, add_left_comm] at whole
    exact whole
  obtain ⟨-, kept⟩ := (act_yields (sound.own i).relies world).ok run
  -- inside the lock, the other call kept this one from taking it
  have outside : (w.pc j).locked = true → (w.pc i).wants = false ∧ (w.pc i).locked = false := by
    intro locked
    constructor
    · by_contra wants
      have no := free (by simpa using wants)
      rw [theirs.inside locked] at no
      cases no
    · exact apart.symm.lock locked
  have same : c = p := by
    rw [moved] at stepped
    exact (Prod.mk.inj (some.inj stepped)).2.symm
  have clear : Clear c (w.pc j) := by
    have there : w'.pc j = w.pc j := by rw [pcs, Function.update_of_ne other]
    rw [same, ← here, ← there]
    exact keeps j other
  have both : Apart c (w.pc j) := by
    refine ⟨clear, fun locked => ?_⟩
    by_contra inside
    obtain ⟨wants, unlocked⟩ := outside (by simpa using inside)
    have no := kept.inside locked
    rw [wants, unlocked] at no
    cases no
  refine ⟨⟨fun locked => ?_, theirs.relies.undisturbed kept.effect apart.clear outside⟩, both,
    both.symm⟩
  obtain ⟨wants, unlocked⟩ := outside locked
  rw [lock, wants, unlocked]
  exact theirs.inside locked

/-- Whatever the order of their steps, as long as no call acts on an address that another acts on:
every leaf is under an entry, so a range that was released holds nothing; every owner count is the
number of leaves, messages and calls that own the frame; and no frame is dropped that has no owner.
-/
theorem released_range_empty {base : Multiset Frame} (t : Nat) (m : Memory) (calls : Fin n → VmWork)
    (owned : Owned m base)
    (begins : ∀ i, (calls i).Begins) (w : Threads n VmShared VmWork)
    (run : Runs (Threads.next (step t)) (fun _ i w' => Keeps w' i) ⟨⟨m, false⟩, calls⟩ w) :
    (∀ a l, w.shared.mem.leaf t a = some l → ∃ e ∈ w.shared.mem.entries t, e.Covers a) ∧
    (∀ i va size, w.pc i = .release va size (.done true) → ∀ a, va ≤ a → a < va + size →
      w.shared.mem.leaf t a = none) ∧
    (∀ f, w.shared.mem.pmm.refs f ≠ 0 →
      w.shared.mem.pmm.refs f = (w.shared.mem.mapped + (base + w.total hand)).count f) ∧
    ∀ i h m', (w.pc i).act t w.shared.mem = (.error h, m') → h = .pmmRefWrap := by
  have start : Sound t base (⟨⟨m, false⟩, calls⟩ : Threads n VmShared VmWork) := by
    refine ⟨?_, fun i => ⟨fun locked => ?_, ((begins i).start m).1⟩,
      fun i j _ => ⟨?_, fun locked => ?_⟩⟩
    · have none : Threads.total hand (⟨⟨m, false⟩, calls⟩ : Threads n VmShared VmWork) = 0 :=
        Finset.sum_eq_zero fun i _ => ((begins i).start (t := t) m).2.2.2
      rw [none, add_zero]
      exact owned
    · rw [((begins i).start (t := t) m).2.1] at locked
      cases locked
    · unfold Clear
      rw [((begins i).start (t := t) m).2.2.1]
      exact .inl (Nat.zero_le _)
    · rw [((begins i).start (t := t) m).2.1] at locked
      cases locked
  have sound := run.invariant (P := Sound t base) start fun w i w' sound taken keeps =>
    sound.step taken keeps
  have covered : ∀ a l, w.shared.mem.leaf t a = some l →
      ∃ e, vmMapLookup (w.shared.mem.entries t) a = some e := by
    intro a l present
    obtain ⟨e, backed⟩ := sound.world.backed t a l present
    exact ⟨e, backed.found⟩
  refine ⟨fun a l present => ?_, fun i va size here a low high => ?_, sound.world.counted,
    fun i h m' stops => ?_⟩
  · obtain ⟨e, found⟩ := covered a l present
    exact ⟨e, (vmMapLookup_some_iff (sound.world.ranges t)).mp found⟩
  · by_contra there
    obtain ⟨l, present⟩ := ne_none_iff_exists'.mp there
    obtain ⟨e, found⟩ := covered a l present
    have relies := (sound.own i).relies
    rw [here] at relies
    have nothing := relies a low high
    rw [nothing] at found
    cases found
  · have whole := sound.world
    rw [Threads.total_eq hand w i, add_left_comm] at whole
    exact (act_yields (sound.own i).relies whole).error stops

/-! ### A page filled behind the release -/

/-- A task with two pages to be filled on demand, and two free frames. -/
def lazyEntry : VmMapEntry where
  vmeStart := 0x40000000
  vmeEnd := 0x40002000
  vmeOffset := 0
  vmeObject := none
  vmeProt := ⟨true, true, false, true⟩
  vmeFlags := { anon := true, cow := false, lazy := true }

def lazyMemory : Memory :=
  Memory.setTask { pmm := { managed := 2, used := fun _ => false, refs := fun _ => 0, hint := 0 }
                   ram := fun _ _ => 0
                   tasks := ∅
                   objects := fun _ _ => 0
                   refuse := [] } 1 ⟨{ (default : VmMap) with vmHead := [lazyEntry] }, ∅⟩

theorem lazyMemory_owned : Owned lazyMemory 0 := by
  have bare : ∀ t va, lazyMemory.leaf t va = none := by
    intro t va
    unfold lazyMemory Memory.leaf
    rw [Memory.task_setTask]
    split <;> rfl
  refine ⟨fun f owned => absurd rfl owned, fun f owned => absurd rfl owned,
    fun f held => absurd held (Multiset.notMem_zero f), fun t => ?_, ?_, ?_⟩
  · unfold lazyMemory Memory.entries
    rw [Memory.task_setTask]
    split
    · refine ⟨List.pairwise_singleton _ _, fun e member => ?_⟩
      obtain rfl := List.mem_singleton.mp member
      exact ⟨by decide, by decide, by decide, fun _ => rfl, fun _ => rfl⟩
    · exact Ranges.nil
  · intro t va l present
    rw [bare] at present
    cases present
  · intro t va l present
    rw [bare] at present
    cases present

/-- The range of a release that has succeeded. -/
def released : VmWork → Option (Nat × Nat)
  | .release va size (.done true) => some (va, size)
  | _ => none

theorem released_eq {c : VmWork} {va size : Nat} (done : c.released = some (va, size)) :
    c = .release va size (.done true) := by
  unfold released at done
  split at done
  · cases done
    rfl
  · cases done

/-- The second page is filled and then released, and a store to the first is served meanwhile. -/
def pagesAndRelease : Fin 3 → VmWork
  | 0 => .fault 0x40000000 true .looking
  | 1 => .fault 0x40001000 true .looking
  | 2 => .release 0x40001000 0x1000 .checking

theorem released_range_empty_two : ∃ w w' : Threads 3 VmShared VmWork,
    (w.shared.mem.leaf 1 0x40001000).isSome = true ∧
    Runs (Threads.next (step 1)) (fun _ i w' => Keeps w' i) w w' ∧
    (w'.shared.mem.leaf 1 0x40000000).isSome = true ∧
    ∀ a, 0x40001000 ≤ a → a < 0x40002000 → w'.shared.mem.leaf 1 a = none := by
  obtain ⟨w, run, filled, ends⟩ : ∃ w : Threads 3 VmShared VmWork,
      Runs (Threads.next (step 1)) (fun _ i w' => Keeps w' i)
        ⟨⟨lazyMemory, false⟩, pagesAndRelease⟩ w ∧
      (w.shared.mem.leaf 1 0x40001000).isSome = true ∧
      (follow (Threads.next (step 1)) (fun _ i w' => decide (Keeps w' i)) w
        [0, 2, 0, 0, 2, 0, 2, 2, 2]).any (fun w' => (w'.shared.mem.leaf 1 0x40000000).isSome ∧
          (w'.pc 2).released = some (0x40001000, 0x1000)) = true :=
    Runs.exists_of_follow [1, 1, 1, 1] (by decide +kernel)
  obtain ⟨w', followed, there⟩ := (Option.any_eq_true _ _).mp ends
  obtain ⟨served, gone⟩ := of_decide_eq_true there
  have begins : ∀ i, (pagesAndRelease i).Begins
    | 0 => show 0x40000000 % vmPageSize = 0 by decide
    | 1 => show 0x40001000 % vmPageSize = 0 by decide
    | 2 => trivial
  have holds := released_range_empty 1 lazyMemory pagesAndRelease lazyMemory_owned begins w'
    (.of_follow run (fun _ _ _ => of_decide_eq_true) followed)
  exact ⟨w, w', filled, .of_follow .start (fun _ _ _ => of_decide_eq_true) followed, served,
    holds.2.1 2 _ _ (released_eq gone)⟩

def pageReleased : Fin 2 → VmWork := fun i =>
  if i.val = 0 then .fault 0x40000000 true .looking else .release 0x40000000 0x1000 .checking

/-- The fault has its frame ready when the unmapping passes the page, finds the entry still there,
and maps it; then the entry goes. The release succeeds, and the page stays, with a frame that no
teardown will find. -/
theorem page_outlives_release : (∀ i, (pageReleased i).Begins) ∧ ∃ w : Threads 2 VmShared VmWork,
    Runs (Threads.next (step 1)) (fun _ _ _ => True) ⟨⟨lazyMemory, false⟩, pageReleased⟩ w ∧
    (w.pc 0).returned = true ∧ (w.pc 1).released = some (0x40000000, 0x1000) ∧
      (w.shared.mem.leaf 1 0x40000000).isSome = true ∧
    vmMapLookup (w.shared.mem.entries 1) 0x40000000 = none :=
  ⟨Fin.forall_fin_two.mpr ⟨show 0x40000000 % vmPageSize = 0 by decide, trivial⟩,
    Runs.exists_of_follow [0, 0, 1, 1, 0, 0, 1] (by decide +kernel)⟩

end VmWork

end Style9.Vm
