import Mathlib.Order.Interval.Finset.Nat
import Style9.Vm.Tidy

/-!
# A call for memory, step by step

`syscall_vm_allocate` finds its hole under the lock of the map, fills it page by page without, and
records it under the lock again. A step is what happens under one lock. Here: everything a step can
do, what a call has in hand on the way (its range, the pages it has mapped, a frame), and what it
relies on about them.
-/
namespace Style9.Vm

open Style9.Lib Act Nat

/-! ### A call, step by step -/

/-- Where a call of `syscall_vm_allocate` is: the range, the pages mapped, the page being undone,
and a frame in hand. -/
inductive Stage where
  | finding
  | filling (va i : Nat)
  | placing (va i : Nat) (pa : Frame)
  | refused (va i : Nat) (pa : Frame)
  | undoing (va i j : Nat)
  | removing (va i j : Nat) (pa : Option Frame)
  | freeing (va i j : Nat) (pa : Option Frame)
  | done (result : Except SysE Nat)

structure AllocCall where
  size : Nat
  prot : Prot
  stage : Stage

namespace AllocCall

def bytes (c : AllocCall) : Nat := Word.vmAlignUp c.size

def pages (c : AllocCall) : Nat := c.bytes / vmPageSize

def flags (c : AllocCall) : Prot := { c.prot with user := true }

/-- What the call does next. A fresh frame is nobody else's, so it is cleared in the step that
takes it. -/
def act (t : Nat) (c : AllocCall) : Op Stage :=
  match c.stage with
  | .finding =>
    if c.size = 0 then pure (.done (.error .inval))
    else if c.bytes = 0 then pure (.done (.error .nomem))
    else do
      match ← Word.vmMapFindSpace t c.bytes with
      | none => pure (.done (.error .nomem))
      | some va => pure (.filling va 0)
  | .filling va i =>
    if i < c.pages then do
      match ← pmmAllocPage with
      | none => pure (.undoing va i 0)
      | some pa => do
        Act.modify fun s => s.fill pa fun _ => 0
        pure (.placing va i pa)
    else do
      if ← vmMapEnterBacked t va c.bytes c.flags { anon := true, cow := false, lazy := false } none
        0 then
        pure (.done (.ok va))
      else pure (.undoing va i 0)
  | .placing va i pa => do
    if ← pmapEnter t (pageAt va i) ⟨pa, c.flags⟩ then pure (.filling va (i + 1))
      else pure (.refused va i pa)
  | .refused va i pa => do
    pmmFreePage pa
    pure (.undoing va i 0)
  | .undoing va i j =>
    if j < i then do
      let l ← Act.read fun s => s.leaf t (pageAt va j)
      pure (.removing va i j (l.map Leaf.pa))
    else pure (.done (.error .nomem))
  | .removing va i j pa => do
    pmapRemove t (pageAt va j)
    pure (.freeing va i j pa)
  | .freeing va i j (some pa) => do
    pmmFreePage pa
    pure (.undoing va i (j + 1))
  | .freeing va i j none => pure (.undoing va i (j + 1))
  | .done result => pure (.done result)

/-- A step of a call that has not returned. A failed assertion has no next state. -/
def step (t : Nat) (m : Memory) (c : AllocCall) : Option (Memory × AllocCall) :=
  match c.stage with
  | .done _ => none
  | _ =>
    match c.act t m with
    | (.ok stage, m') => some (m', { c with stage := stage })
    | (.error _, _) => none

/-- Everything a step can do. -/
inductive Moves (t : Nat) (m : Memory) (c : AllocCall) : Memory → Stage → Prop
  | fails {e : SysE} (stage : c.stage = .finding) : Moves t m c m (.done (.error e))
  | finds {va : Nat} (stage : c.stage = .finding)
      (space : Word.vmSpace (m.task t).tMap (Word.vmAlignUp c.bytes) = some va) :
      Moves t m c (m.setHint t ((va + Word.vmAlignUp c.bytes) % 2 ^ 64)) (.filling va 0)
  | starved {va i : Nat} (stage : c.stage = .filling va i) : Moves t m c m (.undoing va i 0)
  | takes {va i : Nat} {pa : Frame} (stage : c.stage = .filling va i) (more : i < c.pages)
      (free : m.pmm.used pa = false) :
      Moves t m c ((m.setPmm (m.pmm.alloc pa)).fill pa fun _ => 0) (.placing va i pa)
  | enters {va i : Nat} {r : List Bool} (stage : c.stage = .filling va i) (all : c.pages ≤ i)
      (run : vmMapEnterBacked t va c.bytes c.flags { anon := true, cow := false, lazy := false }
        none 0 m =
        (.ok true, (m.setRefuse r).setEntries t
          (vmEntryInsert (allocatedEntry va c.bytes c.flags) (m.entries t)))) :
      Moves t m c ((m.setRefuse r).setEntries t
        (vmEntryInsert (allocatedEntry va c.bytes c.flags) (m.entries t))) (.done (.ok va))
  | barred {va i : Nat} {r : List Bool} (stage : c.stage = .filling va i) :
      Moves t m c (m.setRefuse r) (.undoing va i 0)
  | places {va i : Nat} {pa : Frame} {r : List Bool} (stage : c.stage = .placing va i pa) :
      Moves t m c ((m.setRefuse r).setLeaf t (pageAt va i) ⟨pa, c.flags⟩) (.filling va (i + 1))
  | balks {va i : Nat} {pa : Frame} {r : List Bool} (stage : c.stage = .placing va i pa) :
      Moves t m c (m.setRefuse r) (.refused va i pa)
  | returns {va i : Nat} {pa : Frame} (stage : c.stage = .refused va i pa) :
      Moves t m c (m.setPmm (m.pmm.free pa)) (.undoing va i 0)
  | looks {va i j : Nat} (stage : c.stage = .undoing va i j) (more : j < i) :
      Moves t m c m (.removing va i j ((m.leaf t (pageAt va j)).map Leaf.pa))
  | gives {va i j : Nat} (stage : c.stage = .undoing va i j) (all : i ≤ j) :
      Moves t m c m (.done (.error .nomem))
  | removes {va i j : Nat} {pa : Option Frame} (stage : c.stage = .removing va i j pa) :
      Moves t m c (m.eraseLeaf t (pageAt va j)) (.freeing va i j pa)
  | frees {va i j : Nat} {pa : Frame} (stage : c.stage = .freeing va i j (some pa)) :
      Moves t m c (m.setPmm (m.pmm.free pa)) (.undoing va i (j + 1))
  | skips {va i j : Nat} (stage : c.stage = .freeing va i j none) :
      Moves t m c m (.undoing va i (j + 1))

variable {t : Nat} {m m' : Memory} {c c' d : AllocCall}

theorem Moves.freeing {pa : Frame} {stage : Stage}
    (moves : Moves t m c (m.setPmm (m.pmm.free pa)) stage) :
    (pmmFreePage pa >>= fun _ => pure stage).Yields (fun _ => True) m fun stage m' =>
      Moves t m c m' stage := by
  refine .intro (fun stage m' run => ?_) fun _ _ _ => trivial
  obtain ⟨⟨⟩, m₁, freed, run⟩ := bind_ok run
  obtain ⟨-, rfl⟩ := pmmFreePage_run freed
  cases run
  exact moves

theorem act_moves (running : ∀ result, c.stage ≠ .done result) :
    (c.act t).Yields (fun _ => True) m fun stage m' => Moves t m c m' stage := by
  obtain ⟨size, prot, stage⟩ := c
  rw [act]
  cases stage with
  | finding =>
    -- the first checks and the search
    dsimp only
    split
    · exact .pure (.fails rfl)
    split
    · exact .pure (.fails rfl)
    rcases Word.vmMapFindSpace_result m t _ with none | ⟨va, space, found⟩
    · exact .after none (.pure (.fails rfl))
    · exact .after found (.pure (.finds rfl space))
  | filling va i =>
    dsimp only
    split
    next more =>
      rcases pmmAllocPage_run m with none | ⟨pa, free, given⟩
      · exact .after none (.pure (.starved rfl))
      · exact .after given (.after rfl (.pure (.takes rfl more free)))
    next all =>
    obtain ⟨b, refuse, run, -⟩ := vmMapEnterBacked_result t va _ _ _ none 0 m
    cases b with
    | true => exact .after run (.pure (.enters rfl (Nat.le_of_not_lt all) run))
    | false => exact .after run (.pure (.barred rfl))
  | placing va i pa =>
    obtain ⟨r, granted | ⟨-, refused⟩⟩ := pmapEnter_run m t (pageAt va i) ⟨pa, _⟩
    · exact .after granted (.pure (.places rfl))
    · exact .after refused (.pure (.balks rfl))
  | refused va i pa => exact Moves.freeing (.returns rfl)
  | undoing va i j =>
    dsimp only
    split
    next more => exact .after rfl (.pure (.looks rfl more))
    next all => exact .pure (.gives rfl (Nat.le_of_not_lt all))
  | removing va i j pa => exact .after rfl (.pure (.removes rfl))
  | freeing va i j pa =>
    cases pa with
    | some pa => exact Moves.freeing (.frees rfl)
    | none => exact .pure (.skips rfl)
  | done result => exact absurd rfl (running result)

theorem moves_of_step (taken : c.step t m = some (m', c')) :
    ∃ stage, Moves t m c m' stage ∧ c' = { c with stage := stage } := by
  unfold step at taken
  split at taken
  · cases taken
  next running =>
  split at taken
  next stage m₁ run =>
    cases taken
    exact ⟨stage, (act_moves running).ok run, rfl⟩
  · cases taken

end AllocCall

/-! ### What a call has in hand -/

variable {t : Nat} {m m' : Memory} {c d : AllocCall}

/-- The range a call works on or has returned. -/
def Stage.va : Stage → Option Nat
  | .filling va _ | .placing va _ _ | .refused va _ _ => some va
  | .undoing va _ _ | .removing va _ _ _ | .freeing va _ _ _ => some va
  | .done (.ok va) => some va
  | .finding | .done (.error _) => none

def Stage.searching : Stage → Bool
  | .finding => true
  | _ => false

def Stage.returned : Stage → Bool
  | .done _ => true
  | _ => false

def Stage.frame : Stage → Option Frame
  | .placing _ _ pa | .refused _ _ pa => some pa
  | .freeing _ _ _ pa => pa
  | _ => none

def Stage.first : Stage → Nat
  | .undoing _ _ j | .removing _ _ j _ => j
  | .freeing _ _ j _ => j + 1
  | _ => 0

/-- The page after the last that is mapped, of so many in all. -/
def Stage.last (pages : Nat) : Stage → Nat
  | .filling _ i | .placing _ i _ | .refused _ i _ => i
  | .undoing _ i _ | .removing _ i _ _ | .freeing _ i _ _ => i
  | .done _ => pages
  | .finding => 0

structure Stage.Alike (pages : Nat) (a b : Stage) : Prop where
  va : a.va = b.va
  first : a.first = b.first
  last : a.last pages = b.last pages
  returned : a.returned = b.returned

namespace AllocCall

def first (c : AllocCall) : Nat := c.stage.first

def last (c : AllocCall) : Nat := c.stage.last c.pages

def Maps (c : AllocCall) (k : Nat) : Prop := c.first ≤ k ∧ k < c.last

def mapped (c : AllocCall) : Multiset Nat :=
  match c.stage.va with
  | none => 0
  | some va => (Finset.Ico c.first c.last).val.map fun k => va + k * vmPageSize

theorem mem_mapped {a : Nat} :
    a ∈ c.mapped ↔ ∃ va k, c.stage.va = some va ∧ c.Maps k ∧ a = va + k * vmPageSize := by
  unfold mapped
  cases c.stage.va with
  | none => simp
  | some va =>
  simp only [Multiset.mem_map, Finset.mem_val, Finset.mem_Ico, Option.some.injEq, Maps]
  constructor
  · rintro ⟨k, inside, rfl⟩
    exact ⟨va, k, rfl, inside, rfl⟩
  · rintro ⟨_, k, rfl, inside, rfl⟩
    exact ⟨k, inside, rfl⟩

end AllocCall

/-- A cleared page with a frame of its own. -/
structure Solo (m : Memory) (t a : Nat) (l : Leaf) : Prop where
  leaf : m.leaf t a = some l
  used : m.pmm.used l.pa = true
  refs : m.pmm.refs l.pa = 1
  zero : m.ram l.pa = fun _ => 0
  only : ∀ x b l', m.leaf x b = some l' → l'.pa = l.pa → x = t ∧ b = a

/-- A cleared frame that no page table has. -/
structure Loose (m : Memory) (f : Frame) : Prop where
  used : m.pmm.used f = true
  refs : m.pmm.refs f = 1
  zero : m.ram f = fun _ => 0
  unmapped : ∀ x b l, m.leaf x b = some l → l.pa ≠ f

namespace AllocCall

/-- What a call relies on for its range: the pages it has mapped are its own and the others are
bare, and the range is behind the hint, or recorded once the call has returned. -/
structure Ranged (t : Nat) (m : Memory) (c : AllocCall) (va : Nat) : Prop where
  page : va % vmPageSize = 0
  low : (m.task t).tMap.vmLo ≤ va
  high : va + c.bytes ≤ (m.task t).tMap.vmHi
  upper : c.last ≤ c.pages
  mapped : ∀ k, c.Maps k → ∃ pa, Solo m t (va + k * vmPageSize) ⟨pa, c.flags⟩
  bare : ∀ k < c.pages, ¬ c.Maps k → m.leaf t (va + k * vmPageSize) = none
  ahead : c.stage.returned = false → va + c.bytes ≤ (m.task t).tMap.vmHint ∧
    Untouched c.bytes va (m.entries t)
  entered : c.stage.returned = true → ∃ e ∈ m.entries t, e.vmeStart = va ∧ e.vmeEnd = va + c.bytes

structure Own (t : Nat) (m : Memory) (c : AllocCall) : Prop where
  range : ∀ va, c.stage.va = some va → c.Ranged t m va
  loose : ∀ f, c.stage.frame = some f → Loose m f
  short : ∀ va i pa, c.stage = .placing va i pa → i < c.pages
  fetched : ∀ va i j pa, c.stage = .removing va i j pa →
    j < i ∧ ∃ l, m.leaf t (va + j * vmPageSize) = some l ∧ pa = some l.pa

/-- Two calls exclude each other. -/
structure Clear (c d : AllocCall) : Prop where
  ranges : ∀ a b, c.stage.va = some a → d.stage.va = some b → a + c.bytes ≤ b ∨ b + d.bytes ≤ a
  frames : ∀ f, c.stage.frame = some f → d.stage.frame ≠ some f

theorem Clear.symm (clear : Clear c d) : Clear d c where
  ranges a b mine theirs := (clear.ranges b a theirs mine).symm
  frames f mine theirs := clear.frames f theirs mine

/-- The map of the task in order, and its leaves under entries or in some call's range. -/
structure MapOk (t : Nat) (m : Memory) (pages : Multiset Nat) : Prop where
  tidy : (m.task t).tMap.Tidy
  ranges : Ranges (m.entries t)
  used : ∀ x a l, m.leaf x a = some l → m.pmm.used l.pa = true
  under : ∀ a l, m.leaf t a = some l → (∃ e ∈ m.entries t, e.Covers a) ∨ a ∈ pages

def Has (t : Nat) (m : Memory) (c : AllocCall) (f : Frame) : Prop :=
  c.stage.frame = some f ∨
    ∃ va k l, c.stage.va = some va ∧ c.Maps k ∧ m.leaf t (va + k * vmPageSize) = some l ∧ l.pa = f

theorem bytes_mod (c : AllocCall) : c.bytes % vmPageSize = 0 := mul_mod_left ..

theorem pages_mul (c : AllocCall) : c.pages * vmPageSize = c.bytes :=
  Nat.div_mul_cancel (Nat.dvd_of_mod_eq_zero c.bytes_mod)

theorem within {k : Nat} (c : AllocCall) (va : Nat) (inside : k < c.pages) :
    va + k * vmPageSize + vmPageSize ≤ va + c.bytes := by
  have whole := c.pages_mul
  unfold vmPageSize at *
  omega

theorem Ranged.pageAt {va k : Nat} (ranged : c.Ranged t m va) (inside : k < c.pages) :
    pageAt va k = va + k * vmPageSize := by
  have high := ranged.high
  have ceiling := (m.task t).tMap.ceiling
  have fits := c.within va inside
  refine mod_eq_of_lt ?_
  unfold vmPageSize at *
  omega

theorem Own.has (own : c.Own t m) {f : Frame} (has : c.Has t m f) : m.pmm.used f = true := by
  rcases has with loose | ⟨va, k, l, range, maps, leaf, rfl⟩
  · exact (own.loose f loose).used
  obtain ⟨pa, solo⟩ := (own.range va range).mapped k maps
  rw [solo.leaf] at leaf
  cases leaf
  exact solo.used

theorem Own.congr (own : c.Own t m)
    (window : (m'.task t).tMap.vmLo = (m.task t).tMap.vmLo ∧
      (m'.task t).tMap.vmHi = (m.task t).tMap.vmHi)
    (entries : ∀ e ∈ m.entries t, e ∈ m'.entries t)
    (ahead : ∀ va, c.stage.va = some va → c.stage.returned = false →
      va + c.bytes ≤ (m.task t).tMap.vmHint → Untouched c.bytes va (m.entries t) →
      va + c.bytes ≤ (m'.task t).tMap.vmHint ∧ Untouched c.bytes va (m'.entries t))
    (leaf : ∀ va k, c.stage.va = some va → k < c.pages →
      m'.leaf t (va + k * vmPageSize) = m.leaf t (va + k * vmPageSize))
    (frames : ∀ f, c.Has t m f →
      (m'.pmm.used f = m.pmm.used f ∧ m'.pmm.refs f = m.pmm.refs f ∧ m'.ram f = m.ram f) ∧
      ∀ x b l, m'.leaf x b = some l → l.pa = f → m.leaf x b = some l) : c.Own t m' := by
  refine ⟨fun va range => ?_, fun f loose => ?_, own.short, fun va i j pa stage => ?_⟩
  · have ranged := own.range va range
    refine ⟨ranged.page, window.1.trans_le ranged.low, window.2 ▸ ranged.high, ranged.upper,
      fun k maps => ?_, fun k inside not => ?_, fun flying => ?_,
      fun ended => ?_⟩
    · obtain ⟨pa, solo⟩ := ranged.mapped k maps
      have inside := lt_of_lt_of_le maps.2 ranged.upper
      obtain ⟨⟨used, refs, ram⟩, back⟩ := frames pa (.inr ⟨va, k, _, range, maps, solo.leaf, rfl⟩)
      exact ⟨pa, (leaf va k range inside).trans solo.leaf, used.trans solo.used,
        refs.trans solo.refs,
        ram.trans solo.zero, fun x b l present same =>
        solo.only x b l (back x b l present same) same⟩
    · rw [leaf va k range inside]
      exact ranged.bare k inside not
    · obtain ⟨behind, apart⟩ := ranged.ahead flying
      exact ahead va range flying behind apart
    · obtain ⟨e, member, ends⟩ := ranged.entered ended
      exact ⟨e, entries e member, ends⟩
  · obtain ⟨⟨used, refs, ram⟩, back⟩ := frames f (.inl loose)
    have before := own.loose f loose
    exact ⟨used.trans before.used, refs.trans before.refs, ram.trans before.zero,
      fun x b l present same => before.unmapped x b l (back x b l present same) same⟩
  obtain ⟨more, l, present, same⟩ := own.fetched va i j pa stage
  have range : c.stage.va = some va := by rw [stage]; rfl
  have upper := (own.range va range).upper
  have inside := lt_of_lt_of_le more (by simpa [last, stage, Stage.last] using upper)
  exact ⟨more, l, (leaf va j range inside).trans present, same⟩

theorem Own.disjoint (own : c.Own t m) (other : d.Own t m) (clear : Clear c d) {f : Frame}
    (mine : c.Has t m f) :
    ¬ d.Has t m f := by
  intro theirs
  rcases mine with loose | ⟨va, k, l, range, maps, leaf, rfl⟩
  · rcases theirs with also | ⟨vb, k, l, range, maps, leaf, same⟩
    · exact clear.frames f loose also
    · exact (own.loose f loose).unmapped _ _ l leaf same
  rcases theirs with loose | ⟨vb, k', l', range', maps', leaf', same⟩
  · exact (other.loose _ loose).unmapped _ _ l leaf rfl
  -- a frame of both would be at a page of both ranges
  obtain ⟨pa, solo⟩ := (own.range va range).mapped k maps
  rw [solo.leaf] at leaf
  cases leaf
  have page := (solo.only _ _ l' leaf' same).2
  have first := c.within va (lt_of_lt_of_le maps.2 (own.range va range).upper)
  have second := d.within vb (lt_of_lt_of_le maps'.2 (other.range vb range').upper)
  have apart := clear.ranges va vb range range'
  unfold vmPageSize at *
  omega

end AllocCall

end Style9.Vm
