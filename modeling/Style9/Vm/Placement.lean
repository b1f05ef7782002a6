import Style9.Vm.Mapping

/-!
# Where a fresh range is placed

`vm_map_find_space` for every 64-bit size. Its sums are machine words, so the search is modelled
once as the code computes it, and compared with the search over unbounded numbers that the other
calls use: as long as no sum wraps they are the same, and the hole found is a hole, missed only
when there is none. Where a sum does wrap, an address inside an entry passes for a hole.
-/
namespace Style9.Vm

open Style9.Lib List Option

/-! ### The search in machine words -/

namespace Word

/-- `VM_ALIGN_UP` on a 64-bit word: the sum wraps before the mask. -/
def vmAlignUp (x : Nat) : Nat := vmAlignDown ((x + (vmPageSize - 1)) % 2 ^ 64)

/-- The loop of `vm_hole_locked`. -/
def vmHoleFrom (size : Nat) : Nat → List VmMapEntry → Nat
  | cur, [] => cur
  | cur, e :: rest =>
    if e.vmeEnd ≤ cur then vmHoleFrom size cur rest
    else if (cur + size) % 2 ^ 64 ≤ e.vmeStart then cur
    else vmHoleFrom size e.vmeEnd rest

/-- `vm_hole_locked`: zero is no hole. -/
def vmHoleLocked (m : VmMap) (size start : Nat) : Nat :=
  let cur := vmHoleFrom size (if start < m.vmLo then m.vmLo else start) m.vmHead
  if m.vmHi < (cur + size) % 2 ^ 64 then 0 else cur

/-- The two searches of `vm_map_find_space`, for a size already rounded. -/
def vmSpace (m : VmMap) (size : Nat) : Option Nat :=
  let first := vmHoleLocked m size m.vmHint
  let va := if first = 0 ∧ m.vmLo < m.vmHint then vmHoleLocked m size m.vmLo else first
  if va = 0 then none else some va

def vmMapFindSpace (t size : Nat) : Op (Option Nat) := do
  if size = 0 then pure none
  else do
    let m ← Act.read fun s => (s.task t).tMap
    match vmSpace m (vmAlignUp size) with
    | none => pure none
    | some va => do
      Act.modify fun s => s.setMap t { m with vmHint := (va + vmAlignUp size) % 2 ^ 64 }
      pure (some va)

end Word

/-! ### Holes -/

/-- A map as `vm.h` describes it: the entries in order and apart, on page boundaries and inside
the window. -/
structure VmMap.WellFormed (m : VmMap) : Prop where
  ordered : m.vmHead.Pairwise fun a b => a.vmeEnd ≤ b.vmeStart
  nonempty : ∀ e ∈ m.vmHead, e.vmeStart < e.vmeEnd
  pages : ∀ e ∈ m.vmHead, e.vmeStart % vmPageSize = 0 ∧ e.vmeEnd % vmPageSize = 0
  inside : ∀ e ∈ m.vmHead, m.vmLo ≤ e.vmeStart ∧ e.vmeEnd ≤ m.vmHi
  window : m.vmLo % vmPageSize = 0 ∧ m.vmHi % vmPageSize = 0

/-- The bytes from an address on touch no entry. -/
def Untouched (size va : Nat) (es : List VmMapEntry) : Prop :=
  ∀ e ∈ es, e.vmeEnd ≤ va ∨ va + size ≤ e.vmeStart

/-- A range of the window that touches no entry. -/
structure VmMap.Free (m : VmMap) (size va : Nat) : Prop where
  low : m.vmLo ≤ va
  high : va + size ≤ m.vmHi
  apart : Untouched size va m.vmHead

/-- A range that may be given out. -/
structure VmMap.Hole (m : VmMap) (size va : Nat) : Prop extends m.Free size va where
  page : va % vmPageSize = 0

variable {m : VmMap} {e : VmMapEntry} {es : List VmMapEntry} {size cur va start : Nat}

/-- The loop of the search, whatever the end of a range is taken to be. -/
def slide (stop : Nat → Nat) : Nat → List VmMapEntry → Nat
  | cur, [] => cur
  | cur, e :: rest =>
    if e.vmeEnd ≤ cur then slide stop cur rest
    else if stop cur ≤ e.vmeStart then cur
    else slide stop e.vmeEnd rest

theorem vmHoleFrom_eq_slide (size cur : Nat) (es : List VmMapEntry) :
    vmHoleFrom size cur es = slide (· + size) cur es := by
  induction es generalizing cur with
  | nil => rfl
  | cons e rest ih => simp only [vmHoleFrom, slide, ih]

theorem Word.vmHoleFrom_eq_slide (size cur : Nat) (es : List VmMapEntry) :
    Word.vmHoleFrom size cur es = slide (fun cur => (cur + size) % 2 ^ 64) cur es := by
  induction es generalizing cur with
  | nil => rfl
  | cons e rest ih => simp only [Word.vmHoleFrom, slide, ih]

section Slide

variable {stop : Nat → Nat}

theorem le_slide (stop : Nat → Nat) (cur : Nat) (es : List VmMapEntry) :
    cur ≤ slide stop cur es := by
  induction es generalizing cur with
  | nil => simp [slide]
  | cons e rest ih =>
  have same := ih cur
  have later := ih e.vmeEnd
  simp only [slide]
  split
  · exact same
  · split <;> omega

theorem slide_mem (stop : Nat → Nat) (cur : Nat) (es : List VmMapEntry) :
    slide stop cur es = cur ∨ ∃ e ∈ es, slide stop cur es = e.vmeEnd := by
  induction es generalizing cur with
  | nil => simp [slide]
  | cons e rest ih =>
  simp only [slide]
  split
  · rcases ih cur with same | ⟨x, member, here⟩
    · exact .inl same
    · exact .inr ⟨x, mem_cons_of_mem _ member, here⟩
  split
  · exact .inl rfl
  · rcases ih e.vmeEnd with same | ⟨x, member, here⟩
    · exact .inr ⟨e, mem_cons_self, same⟩
    · exact .inr ⟨x, mem_cons_of_mem _ member, here⟩

/-- What the search stops at ends, as it reckons, before the next entry begins. -/
theorem slide_passes (sorted : es.Pairwise fun a b => a.vmeEnd ≤ b.vmeStart)
    (nonempty : ∀ e ∈ es, e.vmeStart < e.vmeEnd) :
    ∀ e ∈ es, e.vmeEnd ≤ slide stop cur es ∨ stop (slide stop cur es) ≤ e.vmeStart := by
  induction es generalizing cur with
  | nil => simp
  | cons e rest ih =>
  obtain ⟨after, sorted⟩ := pairwise_cons.mp sorted
  have nonempty' : ∀ e ∈ rest, e.vmeStart < e.vmeEnd := fun x member =>
    nonempty x (mem_cons_of_mem _ member)
  have same := le_slide stop cur rest
  have later := le_slide stop e.vmeEnd rest
  intro x member
  simp only [slide]
  rcases mem_cons.mp member with rfl | member
  · split
    · -- an entry left behind stays behind
      left
      omega
    split
    · right
      assumption
    · left
      exact later
  split
  · exact ih sorted nonempty' x member
  split
  · -- what fits before the first obstacle fits before the later ones
    have order := after x member
    have first := nonempty e mem_cons_self
    right
    omega
  · exact ih sorted nonempty' x member

/-- It stops at the first place it looks at that passes. -/
theorem slide_least (sorted : es.Pairwise fun a b => a.vmeEnd ≤ b.vmeStart)
    (nonempty : ∀ e ∈ es, e.vmeStart < e.vmeEnd) (looks : va = cur ∨ ∃ e ∈ es, va = e.vmeEnd)
    (below : cur ≤ va)
    (passes : ∀ e ∈ es, e.vmeEnd ≤ va ∨ stop va ≤ e.vmeStart) : slide stop cur es ≤ va := by
  induction es generalizing cur with
  | nil => exact below
  | cons e rest ih =>
  obtain ⟨after, sorted⟩ := pairwise_cons.mp sorted
  obtain ⟨here, nonempty⟩ := forall_mem_cons.mp nonempty
  obtain ⟨first, passes⟩ := forall_mem_cons.mp passes
  simp only [slide]
  split
  · refine ih sorted nonempty ?_ below passes
    rcases looks with rfl | ⟨x, member, rfl⟩
    · exact .inl rfl
    rcases mem_cons.mp member with rfl | member
    · left
      omega
    · exact .inr ⟨x, member, rfl⟩
  split
  · exact below
  -- the entry is in the way, so the place is behind it
  have behind : e.vmeEnd ≤ va := by
    rcases looks with rfl | ⟨x, member, rfl⟩
    · omega
    rcases mem_cons.mp member with rfl | member
    · rfl
    · have order := after x member
      have wide := nonempty x member
      omega
  refine ih sorted nonempty ?_ behind passes
  rcases looks with rfl | ⟨x, member, rfl⟩
  · left
    omega
  rcases mem_cons.mp member with rfl | member
  · exact .inl rfl
  · exact .inr ⟨x, member, rfl⟩

theorem slide_le (reckons : ∀ cur ≤ va, stop cur ≤ va + size)
    (apart : Untouched size va es) (below : cur ≤ va) : slide stop cur es ≤ va := by
  induction es generalizing cur with
  | nil => exact below
  | cons e rest ih =>
  have apart' : Untouched size va rest := fun x member => apart x (mem_cons_of_mem _ member)
  have reckoned := reckons cur below
  simp only [slide]
  split
  · exact ih apart' below
  split
  · exact below
  -- the obstacle reaches into the bytes at `cur`, so the hole is above it
  rcases apart e mem_cons_self with above | under
  · exact ih apart' above
  · omega

end Slide

theorem le_vmHoleFrom (size cur : Nat) (es : List VmMapEntry) : cur ≤ vmHoleFrom size cur es :=
  vmHoleFrom_eq_slide size cur es ▸ le_slide ..

theorem apart_vmHoleFrom (sorted : es.Pairwise fun a b => a.vmeEnd ≤ b.vmeStart)
    (nonempty : ∀ e ∈ es, e.vmeStart < e.vmeEnd) : Untouched size (vmHoleFrom size cur es) es :=
  vmHoleFrom_eq_slide size cur es ▸ slide_passes sorted nonempty

theorem vmHoleFrom_le (apart : Untouched size va es) (below : cur ≤ va) :
    vmHoleFrom size cur es ≤ va :=
  vmHoleFrom_eq_slide size cur es ▸ slide_le (fun _ below => Nat.add_le_add_right below size)
    apart below

theorem vmHoleFrom_mem (size cur : Nat) (es : List VmMapEntry) :
    vmHoleFrom size cur es = cur ∨ ∃ e ∈ es, vmHoleFrom size cur es = e.vmeEnd :=
  vmHoleFrom_eq_slide size cur es ▸ slide_mem ..

/-- Where `vm_hole_locked` looks first. -/
def VmMap.seed (m : VmMap) (start : Nat) : Nat := if start < m.vmLo then m.vmLo else start

theorem VmMap.le_seed (m : VmMap) (start : Nat) : m.vmLo ≤ m.seed start := by
  unfold VmMap.seed
  split <;> omega

/-- The window does not begin at zero, so zero is free to stand for "no hole". -/
theorem VmMap.seed_pos (m : VmMap) (size start : Nat) :
    0 < vmHoleFrom size (m.seed start) m.vmHead := by
  have floor := m.floor
  have low := m.le_seed start
  have up := le_vmHoleFrom size (m.seed start) m.vmHead
  omega

theorem vmHole_eq (m : VmMap) (size start : Nat) : vmHole m size start =
    if vmHoleFrom size (m.seed start) m.vmHead + size ≤ m.vmHi then
      some (vmHoleFrom size (m.seed start) m.vmHead) else none := by
  have pos := m.seed_pos size start
  change (if m.vmHi < vmHoleFrom size (m.seed start) m.vmHead + size ∨
    vmHoleFrom size (m.seed start) m.vmHead = 0 then none
    else some (vmHoleFrom size (m.seed start) m.vmHead)) = _
  split
  next full => rw [if_neg (by omega)]
  next fits => rw [if_pos (by omega)]

/-! ### Words that do not wrap -/

/-- Rounding a size up wraps to nothing or not at all. -/
theorem Word.vmAlignUp_cases (word : size < 2 ^ 64) :
    Word.vmAlignUp size = Vm.vmAlignUp size ∧ Vm.vmAlignUp size < 2 ^ 64 ∨
    Word.vmAlignUp size = 0 ∧ Vm.vmAlignUp size = 2 ^ 64 := by
  unfold Word.vmAlignUp Vm.vmAlignUp vmAlignDown vmPageSize
  omega

/-- A size that has been rounded stays as it is. -/
theorem Word.vmAlignUp_idem (small : Vm.vmAlignUp size < 2 ^ 64) :
    Word.vmAlignUp size = Vm.vmAlignUp size ∧
      Word.vmAlignUp (Vm.vmAlignUp size) = Vm.vmAlignUp size := by
  unfold Word.vmAlignUp Vm.vmAlignUp vmAlignDown vmPageSize at *
  omega

theorem Word.vmHoleFrom_eq (here : cur + size < 2 ^ 64)
    (later : ∀ e ∈ es, e.vmeEnd + size < 2 ^ 64) :
    Word.vmHoleFrom size cur es = Vm.vmHoleFrom size cur es := by
  induction es generalizing cur with
  | nil => rfl
  | cons e rest ih =>
  have later' : ∀ e ∈ rest, e.vmeEnd + size < 2 ^ 64 := fun x member =>
    later x (mem_cons_of_mem _ member)
  simp only [Word.vmHoleFrom, Vm.vmHoleFrom, Nat.mod_eq_of_lt here, ih here later',
    ih (later e mem_cons_self) later']

/-- Every sum the search makes stays below 2⁶⁴. -/
structure VmMap.Roomy (m : VmMap) (size : Nat) : Prop where
  hint : m.vmHint + size < 2 ^ 64
  window : max m.vmLo m.vmHi + size < 2 ^ 64

theorem Word.vmHoleLocked_eq (wf : m.WellFormed) (roomy : m.Roomy size)
    (small : start + size < 2 ^ 64) :
    Word.vmHoleLocked m size start = (Vm.vmHole m size start).getD 0 := by
  have window := roomy.window
  have begins : m.seed start + size < 2 ^ 64 := by
    unfold VmMap.seed
    split <;> omega
  have ends : ∀ e ∈ m.vmHead, e.vmeEnd + size < 2 ^ 64 := fun e member => by
    have below := (wf.inside e member).2
    omega
  have stops : Vm.vmHoleFrom size (m.seed start) m.vmHead + size < 2 ^ 64 := by
    rcases vmHoleFrom_mem size (m.seed start) m.vmHead with same | ⟨e, member, here⟩
    · rwa [same]
    · rw [here]
      exact ends e member
  rw [vmHole_eq]
  change (if m.vmHi < (Word.vmHoleFrom size (m.seed start) m.vmHead + size) % 2 ^ 64 then 0
    else Word.vmHoleFrom size (m.seed start) m.vmHead) = _
  rw [Word.vmHoleFrom_eq begins ends, Nat.mod_eq_of_lt stops]
  split
  next full => rw [if_neg (by omega), getD_none]
  next fits => rw [if_pos (by omega), getD_some]

theorem Word.vmSpace_eq (wf : m.WellFormed) (roomy : m.Roomy size) :
    Word.vmSpace m size = Vm.vmSpace m size := by
  have window := roomy.window
  have nonzero : ∀ start va, Vm.vmHole m size start = some va → va ≠ 0 := by
    intro start va found
    have pos := m.seed_pos size start
    rw [vmHole_eq] at found
    split at found
    · cases found
      omega
    · cases found
  have atFloor : Word.vmHoleLocked m size m.vmLo = _ := Word.vmHoleLocked_eq wf roomy (by omega)
  simp only [Word.vmSpace, Vm.vmSpace, Word.vmHoleLocked_eq wf roomy roomy.hint, atFloor]
  cases found : Vm.vmHole m size m.vmHint with
  | some va => simp [nonzero _ _ found]
  | none =>
  simp only [getD_none, true_and]
  split
  · cases again : Vm.vmHole m size m.vmLo with
    | some va => simp [nonzero _ _ again]
    | none => simp
  · simp

/-! ### Placement -/

theorem VmMap.WellFormed.hole_of_found (wf : m.WellFormed) (page : start % vmPageSize = 0)
    (found : Vm.vmHole m size start = some va) : m.Hole size va := by
  rw [vmHole_eq] at found
  split at found
  next fits =>
    cases found
    have aligned : m.seed start % vmPageSize = 0 := by
      unfold VmMap.seed
      split
      · exact wf.window.1
      · exact page
    refine ⟨⟨(m.le_seed start).trans (le_vmHoleFrom ..), fits,
      apart_vmHoleFrom wf.ordered wf.nonempty⟩, ?_⟩
    rcases vmHoleFrom_mem size (m.seed start) m.vmHead with same | ⟨e, member, here⟩
    · rw [same, aligned]
    · rw [here, (wf.pages e member).2]
  · cases found

theorem VmMap.not_hole_of_missed (low : start ≤ m.vmLo) (missed : Vm.vmHole m size start = none) :
    ¬ m.Hole size va := by
  intro hole
  have begins : m.seed start ≤ va := by
    have floor := hole.low
    unfold VmMap.seed
    split <;> omega
  have least := vmHoleFrom_le hole.apart begins
  have high := hole.high
  rw [vmHole_eq, if_pos (by omega)] at missed
  cases missed

theorem VmMap.WellFormed.vmSpace_spec (wf : m.WellFormed) (page : m.vmHint % vmPageSize = 0) :
    (∀ va, Vm.vmSpace m size = some va → m.Hole size va) ∧
      (Vm.vmSpace m size = none → ∀ va, ¬ m.Hole size va) := by
  unfold Vm.vmSpace
  cases found : Vm.vmHole m size m.vmHint with
  | some first => simpa using wf.hole_of_found page found
  | none =>
  by_cases above : m.vmLo < m.vmHint
  · simp only [if_pos above]
    exact ⟨fun va again => wf.hole_of_found wf.window.1 again,
      fun again va => VmMap.not_hole_of_missed le_rfl again⟩
  · -- a hint at or below the floor has searched from the floor already
    simp only [if_neg above]
    exact ⟨nofun, fun _ va => VmMap.not_hole_of_missed (by omega) found⟩

theorem Word.vmSpace_hole (wf : m.WellFormed) (page : m.vmHint % vmPageSize = 0)
    (roomy : m.Roomy size)
    (space : Word.vmSpace m size = some va) : m.Hole size va :=
  (wf.vmSpace_spec page).1 va (Word.vmSpace_eq wf roomy ▸ space)

/-! ### Words that wrap -/

/-- Where a search looks: at its start, and behind the entries above it. -/
def VmMap.Looks (m : VmMap) (start cur : Nat) : Prop :=
  m.seed start ≤ cur ∧ (cur = m.seed start ∨ ∃ e ∈ m.vmHead, cur = e.vmeEnd)

/-- At one of these places the end of the range wraps to an address in the window or below it, and
not above the start of the next entry, so that the place passes for a hole. -/
def VmMap.Wraps (m : VmMap) (size start : Nat) : Prop :=
  ∃ cur stop, m.Looks start cur ∧ cur + size = 2 ^ 64 + stop ∧ stop ≤ m.vmHi ∧
    ∀ e ∈ m.vmHead, e.vmeEnd ≤ cur ∨ stop ≤ e.vmeStart

/-- The addresses of the map are machine words. -/
structure VmMap.Words (m : VmMap) : Prop where
  low : m.vmLo < 2 ^ 64
  high : m.vmHi < 2 ^ 64
  hint : m.vmHint < 2 ^ 64

/-- The search is not misled: it does not begin inside a page, and where there is no hole for it to
find, no place it looks at passes for one. -/
structure VmMap.Unmisled (m : VmMap) (size : Nat) : Prop where
  page : m.vmHint % vmPageSize = 0 ∨ ¬ m.Free size m.vmHint
  above : (∃ va, m.vmHint ≤ va ∧ m.Hole size va) ∨ ¬ m.Wraps size m.vmHint
  anywhere : m.vmLo < m.vmHint → (∃ va, m.Hole size va) ∨ ¬ m.Wraps size m.vmLo

theorem VmMap.Roomy.unmisled (roomy : m.Roomy size) (wf : m.WellFormed)
    (page : m.vmHint % vmPageSize = 0) :
    m.Unmisled size := by
  have hint := roomy.hint
  have window := roomy.window
  have still (start : Nat) (small : start + size < 2 ^ 64) : ¬ m.Wraps size start := by
    rintro ⟨cur, stop, ⟨-, rfl | ⟨e, member, rfl⟩⟩, past, -, -⟩
    · unfold VmMap.seed at past
      split at past <;> omega
    · have inside := (wf.inside e member).2
      omega
  exact ⟨.inl page, .inr (still _ hint), fun _ => .inr (still _ (by omega))⟩

/-- The place the search from `start` stops at. -/
def Word.place (m : VmMap) (size start : Nat) : Nat :=
  slide (fun cur => (cur + size) % 2 ^ 64) (m.seed start) m.vmHead

theorem Word.vmHoleLocked_eq_place (m : VmMap) (size start : Nat) : Word.vmHoleLocked m size start =
    if m.vmHi < (Word.place m size start + size) % 2 ^ 64 then 0 else Word.place m size start := by
  rw [Word.place, ← Word.vmHoleFrom_eq_slide]
  rfl

theorem Word.vmSpace_rounded (m : VmMap) (word : size < 2 ^ 64) :
    Word.vmSpace m (Word.vmAlignUp size) = Word.vmSpace m (Vm.vmAlignUp size) := by
  rcases Word.vmAlignUp_cases word with ⟨same, -⟩ | ⟨none, whole⟩
  · rw [same]
  have same (start : Nat) : Word.vmHoleLocked m 0 start = Word.vmHoleLocked m (2 ^ 64) start := by
    have place : Word.place m 0 start = Word.place m (2 ^ 64) start := by
      simp only [Word.place, Nat.add_zero, Nat.add_mod_right]
    rw [Word.vmHoleLocked_eq_place, Word.vmHoleLocked_eq_place, place, Nat.add_mod_right,
      Nat.add_zero]
  rw [none, whole, Word.vmSpace, Word.vmSpace, same, same]

theorem Word.place_looks (m : VmMap) (size start : Nat) : m.Looks start (Word.place m size start) :=
  ⟨le_slide .., slide_mem ..⟩

theorem Word.place_passes (wf : m.WellFormed) (size start : Nat) :
    ∀ e ∈ m.vmHead, e.vmeEnd ≤ Word.place m size start ∨
    (Word.place m size start + size) % 2 ^ 64 ≤ e.vmeStart :=
  slide_passes wf.ordered wf.nonempty

theorem Word.place_le (words : m.Words) (free : m.Free size va) (above : start ≤ va) :
    Word.place m size start ≤ va := by
  have high := free.high
  have low := free.low
  have small := words.high
  refine slide_le (fun cur below => ?_) free.apart ?_
  · rw [Nat.mod_eq_of_lt (by omega)]
    omega
  · unfold VmMap.seed
    split <;> omega

theorem VmMap.le_seed_start (m : VmMap) (start : Nat) : start ≤ m.seed start := by
  unfold VmMap.seed
  split <;> omega

/-- Where a range is free from the start on, the search finds a hole, unless it begins inside a
page. -/
theorem Word.vmHoleLocked_free (wf : m.WellFormed) (words : m.Words)
    (page : start % vmPageSize = 0 ∨ ¬ m.Free size start)
    (free : ∃ va, start ≤ va ∧ m.Free size va) :
    start ≤ Word.vmHoleLocked m size start ∧ m.Hole size (Word.vmHoleLocked m size start) := by
  obtain ⟨va, above, free⟩ := free
  have least := Word.place_le words free above
  have high := free.high
  have small := words.high
  have exact : (Word.place m size start + size) % 2 ^ 64 = Word.place m size start + size :=
    Nat.mod_eq_of_lt (by omega)
  have looks := Word.place_looks m size start
  have found : m.Free size (Word.place m size start) := by
    refine ⟨(m.le_seed start).trans looks.1, by omega, fun e member => ?_⟩
    rw [← exact]
    exact Word.place_passes wf size start e member
  rw [Word.vmHoleLocked_eq_place, exact, if_neg (by omega)]
  refine ⟨(m.le_seed_start start).trans looks.1, found, ?_⟩
  rcases looks.2 with same | ⟨e, member, here⟩
  · rw [same] at found ⊢
    unfold VmMap.seed at found ⊢
    split
    · exact wf.window.1
    next inside =>
      rw [if_neg inside] at found
      exact page.resolve_right (not_not.mpr found)
  · rw [here]
    exact (wf.pages e member).2

theorem VmMap.Looks.lt (looks : m.Looks start cur) (wf : m.WellFormed) (words : m.Words)
    (small : start < 2 ^ 64) :
    cur < 2 ^ 64 := by
  have low := words.low
  have high := words.high
  rcases looks.2 with rfl | ⟨e, member, rfl⟩
  · unfold VmMap.seed
    split <;> omega
  · have inside := (wf.inside e member).2
    omega

/-- Where nothing is free from the start on, the search answers with a place exactly when one wraps.
-/
theorem Word.vmHoleLocked_wraps (wf : m.WellFormed) (words : m.Words) (small : start < 2 ^ 64)
    (size64 : size ≤ 2 ^ 64)
    (none : ∀ va, start ≤ va → ¬ m.Free size va) :
    Word.vmHoleLocked m size start ≠ 0 ↔ m.Wraps size start := by
  have passes := Word.place_passes wf size start
  have looks := Word.place_looks m size start
  have first := looks.1
  have floor := m.floor
  have low := m.le_seed start
  have begins := m.le_seed_start start
  have bound := looks.lt wf words small
  rw [Word.vmHoleLocked_eq_place]
  by_cases wraps : Word.place m size start + size < 2 ^ 64
  · -- without a wrap the place does not fit the window, and no place behind it is looked at
    rw [Nat.mod_eq_of_lt wraps] at passes ⊢
    have full : m.vmHi < Word.place m size start + size := by
      by_contra fits
      exact none _ (begins.trans first) ⟨low.trans first, by omega, passes⟩
    rw [if_pos full]
    refine iff_of_false (· rfl) ?_
    rintro ⟨cur, stop, there, past, -, -⟩
    rcases there.2 with rfl | ⟨e, member, rfl⟩
    · omega
    · have inside := wf.inside e member
      have wide := wf.nonempty e member
      rcases passes e member with before | after <;> omega
  · have stop : (Word.place m size start + size) % 2 ^ 64 =
        Word.place m size start + size - 2 ^ 64 := by
      rw [Nat.mod_eq_sub_mod (by omega), Nat.mod_eq_of_lt (by omega)]
    rw [stop] at passes ⊢
    split
    next full =>
      refine iff_of_false (· rfl) ?_
      rintro ⟨cur, stop', there, past, high, fits⟩
      have least : Word.place m size start ≤ cur := by
        refine slide_least wf.ordered wf.nonempty there.2 there.1 fun e member => ?_
        have reckoned : (cur + size) % 2 ^ 64 = stop' := by
          rw [past, Nat.add_mod_left, Nat.mod_eq_of_lt (by have := words.high; omega)]
        rw [reckoned]
        exact fits e member
      omega
    next fits => exact iff_of_true (by omega) ⟨_, _, looks,
      (Nat.add_sub_of_le (by omega)).symm, by omega, passes⟩

theorem Word.vmHoleLocked_start (words : m.Words) (free : m.Free size start) :
    Word.vmHoleLocked m size start = start := by
  have least := Word.place_le words free le_rfl
  have most := (m.le_seed_start start).trans (Word.place_looks m size start).1
  have high := free.high
  have small := words.high
  rw [Word.vmHoleLocked_eq_place, Nat.le_antisymm least most, Nat.mod_eq_of_lt (by omega),
    if_neg (by omega)]

/-- The answers of the search are right exactly when it is not misled. -/
theorem Word.vmSpace_right_iff (wf : m.WellFormed) (words : m.Words) (size64 : size ≤ 2 ^ 64) :
    ((∀ va, Word.vmSpace m size = some va → m.Hole size va) ∧
      (Word.vmSpace m size = none → ∀ va, ¬ m.Hole size va)) ↔ m.Unmisled size := by
  have floor := m.floor
  have zero : ¬ m.Hole size 0 := fun hole => absurd hole.low (by omega)
  have atHint : (∀ va, m.vmHint ≤ va → ¬ m.Free size va) →
      (Word.vmHoleLocked m size m.vmHint ≠ 0 ↔ m.Wraps size m.vmHint) :=
    Word.vmHoleLocked_wraps wf words words.hint size64
  have atFloor : (∀ va, ¬ m.Free size va) →
      (Word.vmHoleLocked m size m.vmLo ≠ 0 ↔ m.Wraps size m.vmLo) :=
    fun none => Word.vmHoleLocked_wraps wf words words.low size64 fun va _ => none va
  have fromFloor : ∀ va, m.Free size va → m.Hole size (Word.vmHoleLocked m size m.vmLo) :=
    fun va free =>
    (Word.vmHoleLocked_free wf words (.inl wf.window.1) ⟨va, free.low, free⟩).2
  unfold Word.vmSpace
  constructor
  · rintro ⟨found, missed⟩
    have first : Word.vmHoleLocked m size m.vmHint ≠ 0 →
        m.Hole size (Word.vmHoleLocked m size m.vmHint) :=
      fun nonzero => found _ (by simp [nonzero])
    have page : m.vmHint % vmPageSize = 0 ∨ ¬ m.Free size m.vmHint := by
      by_contra bad
      obtain ⟨unaligned, free⟩ := not_or.mp bad
      have start := Word.vmHoleLocked_start words (not_not.mp free)
      have low := (not_not.mp free).low
      rw [start] at first
      exact unaligned (first (by omega)).page
    refine ⟨page, ?_, fun above => ?_⟩
    · by_contra misled
      obtain ⟨none, wraps⟩ := not_or.mp misled
      have bare : ∀ va, m.vmHint ≤ va → ¬ m.Free size va := fun va above free =>
        none ⟨_, Word.vmHoleLocked_free wf words page ⟨va, above, free⟩⟩
      have wrong := first ((atHint bare).mpr (not_not.mp wraps))
      refine bare _ ?_ wrong.toFree
      have low := wrong.low
      rw [Word.vmHoleLocked_eq_place] at low ⊢
      split at low
      · omega
      next fits =>
        rw [if_neg fits]
        exact (m.le_seed_start _).trans (Word.place_looks m size _).1
    · by_contra misled
      obtain ⟨none, wraps⟩ := not_or.mp misled
      have second := (atFloor fun va free => none ⟨_, fromFloor va free⟩).mpr (not_not.mp wraps)
      by_cases nonzero : Word.vmHoleLocked m size m.vmHint = 0
      · exact none ⟨_, found (Word.vmHoleLocked m size m.vmLo) (by simp [nonzero, above, second])⟩
      · exact none ⟨_, first nonzero⟩
  · intro clear
    by_cases free : ∃ va, m.vmHint ≤ va ∧ m.Free size va
    · have hole := (Word.vmHoleLocked_free wf words clear.page free).2
      have nonzero : Word.vmHoleLocked m size m.vmHint ≠ 0 := fun none => zero (none ▸ hole)
      simpa [nonzero] using hole
    push Not at free
    have first : Word.vmHoleLocked m size m.vmHint = 0 := by
      by_contra nonzero
      rcases clear.above with ⟨va, above, hole⟩ | still
      · exact free va above hole.toFree
      · exact still ((atHint free).mp nonzero)
    by_cases above : m.vmLo < m.vmHint
    · by_cases free : ∃ va, m.Free size va
      · obtain ⟨va, free⟩ := free
        have hole := fromFloor va free
        have nonzero : Word.vmHoleLocked m size m.vmLo ≠ 0 := fun none => zero (none ▸ hole)
        simpa [first, above, nonzero] using hole
      · push Not at free
        have second : Word.vmHoleLocked m size m.vmLo = 0 := by
          by_contra nonzero
          rcases clear.anywhere above with ⟨va, hole⟩ | still
          · exact free va hole.toFree
          · exact still ((atFloor free).mp nonzero)
        simpa [first, above, second] using fun va hole => free va (VmMap.Hole.toFree hole)
    · simp only [first, above, and_false, if_false, if_true]
      exact ⟨nofun, fun _ va hole => free va (by have := hole.low; omega) hole.toFree⟩

end Style9.Vm
