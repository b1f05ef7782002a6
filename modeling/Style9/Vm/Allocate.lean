import Style9.Vm.Placement
import Style9.Vm.Isolation

/-!
# Memory on request

`syscall_vm_allocate` maps fresh pages first and records the range after, so in the middle of the
call there are leaves that no entry covers. The accounts of the frames are kept against the map as
it will be: with the new entry in place they are in order all along, and when the call gives up,
its own leaves go before the entry would.
-/
namespace Style9.Vm

open Style9.Lib Memory Act List Nat Function

variable {s s' : Memory} {t va size k : Nat} {held : Multiset Frame} {es : List VmMapEntry}
  {e : VmMapEntry}
  {prot : Prot} {result : Except SysE Nat}

/-! ### One fresh page -/

/-- How mapping a fresh page ended. -/
inductive Placed where
  | ok
  | noFrame
  | refused
  deriving DecidableEq

/-- What the loops of `syscall_vm_allocate` and `vm_map_image` do for a page: take a frame, fill it
from memory as it is, map it, and give the frame back if it cannot be mapped. -/
def placePage (t va : Nat) (prot : Prot)
    (contents : (Frame → Nat → Byte) → Nat → Byte) : Op Placed := do
  match ← pmmAllocPage with
  | none => pure .noFrame
  | some pa => do
    Act.modify fun s => s.fill pa (contents s.ram)
    if ← pmapEnter t va ⟨pa, prot⟩ then pure .ok
    else do
      pmmFreePage pa
      pure .refused

/-- Only one page of one task may have changed, and it is there exactly on success. -/
structure Placing (t va : Nat) (prot : Prot) (page : Nat → Byte) (result : Placed) (s s' : Memory) :
    Prop where
  entries : ∀ x, s'.entries x = s.entries x
  others : ∀ x a, ¬ (x = t ∧ a = va) → s'.leaf x a = s.leaf x a
  failed : result ≠ .ok → s'.leaf t va = none
  placed : result = .ok → ∃ pa, s.pmm.used pa = false ∧ s'.leaf t va = some ⟨pa, prot⟩ ∧
    s'.ram pa = page
  ram : ∀ f, s.pmm.used f = true → s'.ram f = s.ram f
  frames : ∀ f, s.pmm.used f = true → s'.pmm.used f = true ∧ s'.pmm.refs f = s.pmm.refs f

theorem Memory.setEntries_setLeaf (s : Memory) (t va : Nat) (l : Leaf) (es : List VmMapEntry) :
    (s.setLeaf t va l).setEntries t es = (s.setEntries t es).setLeaf t va l := by
  simp only [Memory.setEntries, Memory.setMap, Memory.setLeaf, task_setTask, if_true]
  simp only [Memory.setTask, AList.insert_insert]

theorem Memory.setEntries_eraseLeaf (s : Memory) (t va : Nat) (es : List VmMapEntry) :
    (s.eraseLeaf t va).setEntries t es = (s.setEntries t es).eraseLeaf t va := by
  simp only [Memory.setEntries, Memory.setMap, Memory.eraseLeaf, task_setTask, if_true]
  simp only [Memory.setTask, AList.insert_insert]

theorem VmOk.setEntries_self_iff (same : es = s.entries t) :
    VmOk (s.setEntries t es) held ↔ VmOk s held := by
  have entries : ∀ x, (s.setEntries t es).entries x = s.entries x := fun x => by
    rw [entries_setEntries]
    split
    next here => rw [here, same]
    · rfl
  constructor
  · intro ok
    exact ok.congr rfl (mapped_setEntries ..).symm (fun x a => (leaf_setEntries ..).symm)
      fun x => (entries x).symm
  · intro ok
    exact ok.congr rfl (mapped_setEntries ..) (fun x a => leaf_setEntries ..) entries

theorem placePage_result (s : Memory) (t va : Nat) (prot : Prot)
    (contents : (Frame → Nat → Byte) → Nat → Byte) :
    placePage t va prot contents s = (.ok .noFrame, s) ∨ ∃ pa refuse, s.pmm.used pa = false ∧
      (placePage t va prot contents s = (.ok .ok,
          (((s.setPmm (s.pmm.alloc pa)).fill pa (contents s.ram)).setRefuse refuse).setLeaf t va
            ⟨pa, prot⟩) ∨
        placePage t va prot contents s = (.ok .refused,
          (((s.setPmm (s.pmm.alloc pa)).fill pa (contents s.ram)).setRefuse refuse).setPmm
            ((s.pmm.alloc pa).free pa))) := by
  unfold placePage
  rcases pmmAllocPage_run s with none | ⟨pa, free, given⟩
  · exact .inl (bind_of_ok none)
  rw [bind_of_ok given]
  obtain ⟨refuse, granted | ⟨-, refused⟩⟩ :=
    pmapEnter_run ((s.setPmm (s.pmm.alloc pa)).fill pa (contents s.ram)) t va ⟨pa, prot⟩
  · exact .inr ⟨pa, refuse, free, .inl (bind_of_ok granted)⟩
  refine .inr ⟨pa, refuse, free,
    .inr ((bind_of_ok refused).trans (bind_of_ok (pmmFreePage_of_live ?_ ?_)))⟩
  · exact update_self ..
  · rw [show Pmm.refs _ pa = 1 from update_self ..]
    decide

theorem placePage_spec {contents : (Frame → Nat → Byte) → Nat → Byte} {result : Placed}
    (ok : VmOk (s.setEntries t es) held) (found : vmMapLookup es va = some e)
    (owned : e.vmeFlags.anon = true)
    (write : prot.write = true → e.vmeProt.write = true) (aligned : va % vmPageSize = 0)
    (absent : s.leaf t va = none) (run : placePage t va prot contents s = (.ok result, s')) :
    VmOk (s'.setEntries t es) held ∧ Placing t va prot (contents s.ram) result s s' := by
  rcases placePage_result s t va prot contents with none | ⟨pa, refuse, free, outcome⟩
  · -- no frame: nothing has happened
    cases none.symm.trans run
    exact ⟨ok, fun _ => rfl, fun _ _ _ => rfl, fun _ => absent, nofun, fun _ _ => rfl,
      fun _ used => ⟨used, rfl⟩⟩
  -- the frame is the call's until a leaf maps it
  obtain ⟨ok₁, -⟩ := ok.filled free (contents s.ram)
  have ok₂ := ok₁.setRefuse refuse
  have one : (s.pmm.alloc pa).refs pa = 1 := by rw [Pmm.refs_alloc, if_pos rfl]
  have other : ∀ f, s.pmm.used f = true → f ≠ pa := by
    rintro f used rfl
    rw [free] at used
    cases used
  have kept : ∀ f, s.pmm.used f = true →
      (((s.setPmm (s.pmm.alloc pa)).fill pa (contents s.ram)).ram f) = s.ram f := by
    intro f used
    rw [ram_fill, if_neg (other f used)]
    rfl
  rcases outcome with placed | refused
  · cases placed.symm.trans run
    have here : ((s.setEntries t es).entries t) = es := by rw [entries_setEntries, if_pos rfl]
    have backed : Backed
      ((((s.setEntries t es).setPmm (s.pmm.alloc pa)).fill pa (contents s.ram)).setRefuse refuse)
        t va ⟨pa, prot⟩ e := by
      refine .of_owned ?_ owned ?_ write
      · change vmMapLookup ((s.setEntries t es).entries t) va = some e
        rw [here]
        exact found
      · change (s.pmm.alloc pa).refs pa ≠ 0
        omega
    have absent₂ : (s.setEntries t es).leaf t va = none := by rw [leaf_setEntries]; exact absent
    refine ⟨?_, fun x => entries_setLeaf .., fun x a other => ?_, fun failed => absurd rfl failed,
      fun _ => ⟨pa, free, ?_, ?_⟩, kept, fun f used => ?_⟩
    · rw [setEntries_setLeaf]
      exact ⟨ok₂.place absent₂ aligned backed, ok₂.exclusive.setLeaf fun _ => one⟩
    · rw [leaf_setLeaf, if_neg other]
      rfl
    · rw [leaf_setLeaf, if_pos ⟨rfl, rfl⟩]
    · exact (ram_fill ..).trans (if_pos rfl)
    · exact ⟨(update_of_ne (other f used) ..).trans used, update_of_ne (other f used) ..⟩
  cases refused.symm.trans run
  refine ⟨ok₂.free, fun _ => rfl, fun _ _ _ => rfl, fun _ => absent, nofun, kept, fun f used => ?_⟩
  refine ⟨(Pmm.used_free_of_ne _ (other f used)).trans
    ((update_of_ne (other f used) ..).trans used), ?_⟩
  change ((s.pmm.alloc pa).free pa).refs f = _
  rw [Pmm.refs_free, if_neg (other f used)]
  exact update_of_ne (other f used) ..

/-! ### The call -/

/-- `SYS_E_*`, as far as these calls return them. -/
inductive SysE where
  | inval
  | nomem
  deriving DecidableEq

/-- The page `i` of a range, in 64 bits. -/
def pageAt (va i : Nat) : Nat := (va + i * vmPageSize) % 2 ^ 64

/-- The loop of `syscall_vm_allocate` from page `i` on, with `n` pages to go: how many are mapped
when it ends. -/
def allocatePages (t va : Nat) (prot : Prot) : Nat → Nat → Op Nat
  | i, 0 => pure i
  | i, n + 1 => do
    if (← placePage t (pageAt va i) prot fun _ _ => 0) = .ok then allocatePages t va prot (i + 1) n
      else pure i

/-- The label `unwind` of `syscall_vm_allocate`. -/
def unwindPages (t va mapped : Nat) : Op (Except SysE Nat) := do
  dropPages t ((range mapped).map (pageAt va))
  pure (.error .nomem)

def syscallVmAllocate (t size : Nat) (prot : Prot) : Op (Except SysE Nat) := do
  if size = 0 then pure (.error .inval)
  else if Word.vmAlignUp size = 0 then pure (.error .nomem)
  else
    match ← Word.vmMapFindSpace t (Word.vmAlignUp size) with
    | none => pure (.error .nomem)
    | some va => do
      let mapped ← allocatePages t va { prot with user := true } 0
        (Word.vmAlignUp size / vmPageSize)
      if mapped ≠ Word.vmAlignUp size / vmPageSize then unwindPages t va mapped
      else if ← vmMapEnterBacked t va (Word.vmAlignUp size) { prot with user := true }
          { anon := true, cow := false, lazy := false } none 0 then pure (.ok va)
      else unwindPages t va mapped

/-- Some pages of a range, from one on: only they may have changed, and they are there. -/
structure Allocated (t va : Nat) (i k : Nat) (s s' : Memory) : Prop where
  upward : i ≤ k
  entries : ∀ x, s'.entries x = s.entries x
  others : ∀ x a, ¬ (x = t ∧ ∃ j, i ≤ j ∧ j < k ∧ a = va + j * vmPageSize) →
    s'.leaf x a = s.leaf x a

theorem allocatePages_spec {i n : Nat} (ok : VmOk (s.setEntries t es) held)
    (aligned : va % vmPageSize = 0)
    (small : va + (i + n) * vmPageSize ≤ 2 ^ 64)
    (covered : ∀ j, i ≤ j → j < i + n → ∃ e, vmMapLookup es (va + j * vmPageSize) = some e ∧
      e.vmeFlags.anon = true ∧ e.vmeProt = prot)
    (bare : ∀ j, i ≤ j → j < i + n → s.leaf t (va + j * vmPageSize) = none)
    (run : allocatePages t va prot i n s = (.ok k, s')) :
    VmOk (s'.setEntries t es) held ∧ Allocated t va i k s s' ∧ k ≤ i + n := by
  induction n generalizing i s with
  | zero =>
    cases run
    exact ⟨ok, ⟨le_rfl, fun _ => rfl, fun _ _ _ => rfl⟩, le_rfl⟩
  | succ n ih =>
  obtain ⟨result, s₁, first, run⟩ := bind_ok run
  obtain ⟨e, found, owned, rfl⟩ := covered i le_rfl (by omega)
  have here : pageAt va i = va + i * vmPageSize := mod_eq_of_lt (by
    unfold vmPageSize at small ⊢
    omega)
  rw [here] at first
  have page : (va + i * vmPageSize) % vmPageSize = 0 := by rw [add_mul_mod_self_right, aligned]
  obtain ⟨ok₁, placing⟩ := placePage_spec ok found owned id page (bare i le_rfl (by omega)) first
  -- a page before the next one is another page
  have apart : ∀ j, i + 1 ≤ j → va + j * vmPageSize ≠ va + i * vmPageSize := by
    intro j later
    unfold vmPageSize
    omega
  split at run
  · obtain ⟨ok₂, rest, bound⟩ := ih ok₁ (by rw [add_assoc, add_comm 1]; exact small)
      (fun j low high => covered j (by omega) (by omega))
      (fun j low high => by
        rw [placing.others _ _ fun both => apart j low both.2]
        exact bare j (by omega) (by omega)) run
    refine ⟨ok₂, ⟨by have := rest.upward; omega,
      fun x => (rest.entries x).trans (placing.entries x), fun x a out => ?_⟩,
      by omega⟩
    have up := rest.upward
    rw [rest.others x a, placing.others x a]
    · rintro ⟨rfl, rfl⟩
      exact out ⟨rfl, i, le_rfl, by omega, rfl⟩
    · rintro ⟨rfl, j, low, high, rfl⟩
      exact out ⟨rfl, j, by omega, high, rfl⟩
  next failed =>
  cases run
  refine ⟨ok₁, ⟨le_rfl, placing.entries, fun x a _ => ?_⟩, by omega⟩
  by_cases same : x = t ∧ a = va + k * vmPageSize
  · obtain ⟨rfl, rfl⟩ := same
    rw [placing.failed failed, bare k le_rfl (by omega)]
  · exact placing.others x a same

/-! ### The hint -/

def Memory.setHint (s : Memory) (t hint : Nat) : Memory :=
  s.setMap t { (s.task t).tMap with vmHint := hint }

theorem Memory.entries_setHint (s : Memory) (t hint x : Nat) :
    (s.setHint t hint).entries x = s.entries x := by
  unfold Memory.setHint
  rw [entries_setMap]
  split
  next same => rw [same]; rfl
  · rfl

theorem VmOk.setHint (ok : VmOk s held) (t hint : Nat) : VmOk (s.setHint t hint) held :=
  ok.congr rfl (mapped_setMap ..) (fun _ _ => leaf_setMap ..) (s.entries_setHint t hint)

theorem Word.vmMapFindSpace_result (s : Memory) (t size : Nat) :
    Word.vmMapFindSpace t size s = (.ok none, s) ∨
    ∃ va, Word.vmSpace (s.task t).tMap (Word.vmAlignUp size) = some va ∧
      Word.vmMapFindSpace t size s =
        (.ok (some va), s.setHint t ((va + Word.vmAlignUp size) % 2 ^ 64)) := by
  unfold Word.vmMapFindSpace
  split
  · exact .inl rfl
  rw [read_bind]
  cases hole : Word.vmSpace (s.task t).tMap (Word.vmAlignUp size) with
  | none => exact .inl rfl
  | some va => exact .inr ⟨va, rfl, rfl⟩

/-! ### Rounding -/

theorem vmAlignUp_mod (x : Nat) : vmAlignUp x % vmPageSize = 0 := mul_mod_left ..

theorem VmMap.Roomy.rounds {m : VmMap} (roomy : m.Roomy (vmAlignUp size)) :
    Word.vmAlignUp size = vmAlignUp size ∧ Word.vmAlignUp (vmAlignUp size) = vmAlignUp size :=
  Word.vmAlignUp_idem (by have := roomy.window; omega)

/-! ### What the call does -/

theorem dropPages_setEntries (pages : List Nat) (s : Memory) :
    dropPages t pages (s.setEntries t es) =
      ((dropPages t pages s).1, (dropPages t pages s).2.setEntries t es) := by
  induction pages generalizing s with
  | nil => rfl
  | cons va rest ih =>
  have first : dropPage t va (s.setEntries t es) =
      ((dropPage t va s).1, (dropPage t va s).2.setEntries t es) := by
    simp only [dropPage, read_bind, leaf_setEntries]
    cases s.leaf t va with
    | none => rfl
    | some l =>
    simp only [pmapRemove, modify_bind, pmmFreePage, ← setEntries_eraseLeaf]
    change (if !(s.eraseLeaf t va).pmm.used l.pa then _ else if (s.eraseLeaf t va).pmm.refs l.pa = 0
      then _
      else _) = _
    split
    · rfl
    · split <;> rfl
  simp only [dropPages]
  rcases run : dropPage t va s with ⟨err | ⟨⟩, s₁⟩
  · rw [run] at first
    rw [bind_of_error run, bind_of_error first]
  · rw [run] at first
    rw [bind_of_ok run, bind_of_ok first]
    exact ih s₁

def allocatedEntry (va size : Nat) (prot : Prot) : VmMapEntry :=
  newEntry va size prot { anon := true, cow := false, lazy := false } none 0

theorem unwindPages_spec {s₁ : Memory} (entry : (allocatedEntry va size prot).Ok)
    (ranges : Ranges (s.entries t))
    (entered : Entered t (allocatedEntry va size prot) s
      (s.setEntries t (vmEntryInsert (allocatedEntry va size prot) (s.entries t))))
    (ok₁ : VmOk (s₁.setEntries t (vmEntryInsert (allocatedEntry va size prot) (s.entries t))) held)
    (allocated : Allocated t va 0 k s s₁) (fits : k * vmPageSize ≤ size)
    (small : va + size ≤ 2 ^ 64)
    (run : unwindPages t va k s₁ = (.ok result, s')) :
    VmOk s' held ∧ (∀ va, result ≠ .ok va) ∧ ∀ x a, s'.leaf x a = s.leaf x a := by
  obtain ⟨_, s₂, dropping, run⟩ := bind_ok run
  cases run
  set es := vmEntryInsert (allocatedEntry va size prot) (s.entries t) with inserted
  have shadow : dropPages t ((range k).map (pageAt va)) (s₁.setEntries t es) =
      (.ok (), s'.setEntries t es) := by rw [dropPages_setEntries, dropping]
  obtain ⟨ok₂, dropped⟩ := dropPages_spec ok₁ shadow
  have pages : ∀ a, a ∈ (range k).map (pageAt va) ↔
      ∃ j, 0 ≤ j ∧ j < k ∧ a = va + j * vmPageSize := by
    intro a
    simp only [mem_map, mem_range, zero_le, true_and]
    refine exists_congr fun j => and_congr_right fun inside => ?_
    have below : va + j * vmPageSize < 2 ^ 64 := by
      unfold vmPageSize at *
      omega
    rw [pageAt, mod_eq_of_lt below, eq_comm]
  -- the pages of the range were bare before, and are again
  have leaf : ∀ x a, s'.leaf x a = s.leaf x a := by
    intro x a
    have after := dropped.leaf x a
    rw [leaf_setEntries, leaf_setEntries] at after
    rw [after]
    split
    next mine =>
      obtain ⟨rfl, member⟩ := mine
      obtain ⟨j, -, high, rfl⟩ := (pages a).mp member
      have covers : (allocatedEntry va size prot).Covers (va + j * vmPageSize) := by
        refine ⟨le_add_right _ _, ?_⟩
        change va + j * vmPageSize < va + size
        unfold vmPageSize at *
        omega
      have aligned : (va + j * vmPageSize) % vmPageSize = 0 := by
        rw [add_mul_mod_self_right]
        exact entry.first
      have bare := entered.bare _ covers
      rw [vmAlignDown_of_mod aligned] at bare
      exact bare.symm
    next other => exact allocated.others x a fun mine => other ⟨mine.1, (pages a).mpr mine.2⟩
  have entries : ∀ x, s'.entries x = s.entries x := fun x =>
    (dropPages_keeps (P := fun m => m.entries x = s.entries x) (fun _ _ =>
      (entries_eraseLeaf ..).trans) (fun _ _ => id)
      _).ok (allocated.entries x) dropping
  -- taking the entry out again uncovers no leaf
  have restored : VmOk ((s'.setEntries t es).setEntries t (s.entries t)) held := by
    refine ⟨ok₂.toOwned.setEntries ranges fun a l present => ?_, ok₂.exclusive.setEntries⟩
    rw [leaf_setEntries, leaf] at present
    have apart : ¬ (allocatedEntry va size prot).Covers a := fun covers => by
      have bare := entered.bare a covers
      have page := ok₂.aligned t a l (by rw [leaf_setEntries, leaf]; exact present)
      rw [vmAlignDown_of_mod page, present] at bare
      cases bare
    have lookup := entered.lookup a
    rw [entries_setEntries, if_pos rfl, if_neg apart] at lookup
    rw [entries_setEntries, if_pos rfl, lookup]
    exact AlikeAll.refl _ a
  refine ⟨restored.congr rfl ?_ (fun x a => ?_) fun x => ?_, nofun, leaf⟩
  · rw [mapped_setEntries, mapped_setEntries]
  · rw [leaf_setEntries, leaf_setEntries]
  rw [entries_setEntries, entries_setEntries, entries]
  split
  next same => rw [same]
  · rfl

theorem syscallVmAllocate_spec (ok : VmOk s held) (word : size < 2 ^ 64)
    (right : ∀ va, Word.vmSpace (s.task t).tMap (vmAlignUp size) = some va →
      (s.task t).tMap.Hole (vmAlignUp size) va)
    (run : syscallVmAllocate t size prot s = (.ok result, s')) :
    VmOk s' held ∧ ∀ x a, s'.leaf x a ≠ s.leaf x a →
      x = t ∧ ∃ va, result = .ok va ∧ va ≤ a ∧ a < va + vmAlignUp size := by
  have still : ∀ s₁, s₁ = s → ∀ x a, s₁.leaf x a ≠ s.leaf x a →
      x = t ∧ ∃ va, result = .ok va ∧ va ≤ a ∧ a < va + vmAlignUp size := by
    rintro s₁ rfl x a changed
    exact absurd rfl changed
  unfold syscallVmAllocate at run
  split at run
  · cases run
    exact ⟨ok, still _ rfl⟩
  split at run
  · cases run
    exact ⟨ok, still _ rfl⟩
  next nonzero =>
  obtain ⟨rounded, again⟩ : Word.vmAlignUp size = vmAlignUp size ∧
    Word.vmAlignUp (vmAlignUp size) = vmAlignUp size := by
    refine Word.vmAlignUp_idem ?_
    rcases Word.vmAlignUp_cases word with ⟨-, small⟩ | ⟨none, -⟩
    · exact small
    · exact absurd none nonzero
  rw [rounded] at run nonzero
  have positive := Nat.pos_of_ne_zero nonzero
  rcases Word.vmMapFindSpace_result s t (vmAlignUp size) with none | ⟨va, space, found⟩
  · cases (bind_of_ok none).symm.trans run
    exact ⟨ok, still _ rfl⟩
  rw [bind_of_ok found, again] at run
  rw [again] at space
  have hole := right va space
  have small : va + vmAlignUp size ≤ 2 ^ 64 := hole.high.trans (s.task t).tMap.ceiling
  -- from here on the accounts are kept as if the entry were there
  set s₁ := s.setHint t ((va + vmAlignUp size) % 2 ^ 64) with moved
  have ok₁ : VmOk s₁ held := ok.setHint t _
  have entries₁ : ∀ x, s₁.entries x = s.entries x := s.entries_setHint t _
  have leaf₁ : ∀ x a, s₁.leaf x a = s.leaf x a := fun x a => leaf_setMap ..
  set flags : Prot := { prot with user := true } with usable
  have aligned := vmAlignUp_mod size
  have entry : (allocatedEntry va (vmAlignUp size) flags).Ok := by
    refine ⟨?_, hole.page, ?_, fun _ => rfl, nofun⟩
    · change va < va + vmAlignUp size
      omega
    change (va + vmAlignUp size) % vmPageSize = 0
    have page := hole.page
    unfold vmPageSize at *
    omega
  have free : ∀ e ∈ s₁.entries t, e.vmeEnd ≤ (allocatedEntry va (vmAlignUp size) flags).vmeStart ∨
      (allocatedEntry va (vmAlignUp size) flags).vmeEnd ≤ e.vmeStart := by
    rw [entries₁]
    exact hole.apart
  obtain ⟨shadow, entered⟩ := ok₁.insertEntry entry free
  have whole := Nat.div_mul_cancel (Nat.dvd_of_mod_eq_zero aligned)
  have covers : ∀ j < vmAlignUp size / vmPageSize,
      (allocatedEntry va (vmAlignUp size) flags).Covers (va + j * vmPageSize) := by
    intro j inside
    refine ⟨le_add_right _ _, ?_⟩
    change va + j * vmPageSize < va + vmAlignUp size
    unfold vmPageSize at *
    omega
  obtain ⟨k, s₂, allocating, run⟩ := bind_ok run
  obtain ⟨ok₂, allocated, bound⟩ := allocatePages_spec (i := 0) shadow hole.page
    (by rw [zero_add, whole]; exact small)
    (fun j _ inside => ⟨_, by
      have found := entered.lookup (va + j * vmPageSize)
      rwa [entries_setEntries, if_pos rfl, if_pos (covers j (by omega))] at found, rfl, rfl⟩)
    (fun j _ inside => by
      have bare := entered.bare _ (covers j (by omega))
      rwa [vmAlignDown_of_mod (by rw [add_mul_mod_self_right]; exact hole.page)] at bare) allocating
  rw [zero_add] at bound
  have fits := whole ▸ mul_le_mul_right _ bound
  -- a call that gives up leaves every page as it was
  have undone : ∀ refuse, unwindPages t va k (s₂.setRefuse refuse) = (.ok result, s') →
      VmOk s' held ∧ ∀ x a, s'.leaf x a ≠ s.leaf x a →
        x = t ∧ ∃ va, result = .ok va ∧ va ≤ a ∧ a < va + vmAlignUp size := by
    intro refuse unwinding
    have allocated₂ : Allocated t va 0 k s₁ (s₂.setRefuse refuse) :=
      { allocated with }
    have shadow₂ : VmOk ((s₂.setRefuse refuse).setEntries t
        (vmEntryInsert (allocatedEntry va (vmAlignUp size) flags) (s₁.entries t))) held :=
          ok₂.setRefuse refuse
    obtain ⟨ok₃, -, leaf₃⟩ :=
      unwindPages_spec entry (ok₁.ranges t) entered shadow₂ allocated₂ fits small unwinding
    exact ⟨ok₃, fun x a changed => absurd ((leaf₃ x a).trans (leaf₁ x a)) changed⟩
  split at run
  · exact undone s₂.refuse run
  obtain ⟨b, s₃, recording, run⟩ := bind_ok run
  obtain ⟨refuse, rfl, -⟩ := vmMapEnterBacked_run recording
  cases b with
  | false => exact undone refuse run
  | true =>
  cases run
  rw [if_pos rfl, allocated.entries t]
  refine ⟨ok₂.setRefuse refuse, fun x a changed => ?_⟩
  rw [leaf_setEntries] at changed
  -- a page that has changed is one of those the loop mapped
  by_cases mine : x = t ∧ ∃ j, 0 ≤ j ∧ j < k ∧ a = va + j * vmPageSize
  · obtain ⟨rfl, j, -, inside, rfl⟩ := mine
    refine ⟨rfl, va, rfl, le_add_right _ _, ?_⟩
    unfold vmPageSize at *
    omega
  · exact absurd ((allocated.others x a mine).trans (leaf₁ x a)) changed

/-- `vm_map_find_space` always answers, and its answer is that of the search for the rounded size.
-/
theorem findSpace_answers (positive : 0 < size) (word : size < 2 ^ 64) :
    ∃ s', Word.vmMapFindSpace t size s =
    (.ok (Word.vmSpace (s.task t).tMap (vmAlignUp size)), s') := by
  rw [← Word.vmSpace_rounded _ word, Word.vmMapFindSpace, if_neg (by omega), read_bind]
  cases Word.vmSpace (s.task t).tMap (Word.vmAlignUp size) with
  | none => exact ⟨s, rfl⟩
  | some va => exact ⟨_, rfl⟩

/-- Placement is sound exactly when the search is not misled by a sum that wraps: then the answer is
a hole, none is missed, and the call that maps it changes no page of any task outside the range it
returns. -/
theorem placement_sound (s : Memory) (t size : Nat) (prot : Prot) (held : Multiset Frame)
    (positive : 0 < size)
    (word : size < 2 ^ 64) (wf : (s.task t).tMap.WellFormed) (words : (s.task t).tMap.Words)
    (ok : VmOk s held) :
    ((∃ got s', Word.vmMapFindSpace t size s = (.ok got, s') ∧
      match got with
      | some va => (s.task t).tMap.Hole (vmAlignUp size) va
      | none => ∀ va, ¬ (s.task t).tMap.Hole (vmAlignUp size) va) ∧
    ∀ result s', syscallVmAllocate t size prot s = (.ok result, s') →
      ∀ x a, s'.leaf x a ≠ s.leaf x a → x = t ∧ ∃ va, result = .ok va ∧ va ≤ a ∧
        a < va + vmAlignUp size) ↔
    (s.task t).tMap.Unmisled (vmAlignUp size) := by
  have whole : vmAlignUp size ≤ 2 ^ 64 := by
    unfold vmAlignUp vmPageSize
    omega
  rw [← Word.vmSpace_right_iff wf words whole]
  obtain ⟨s₁, answers⟩ := findSpace_answers positive word
  constructor
  · rintro ⟨⟨got, s', found, right⟩, -⟩
    obtain rfl : Word.vmSpace (s.task t).tMap (vmAlignUp size) = got := by
      rw [answers] at found
      cases found
      rfl
    constructor
    · intro va some
      rwa [some] at right
    · intro none
      rwa [none] at right
  · rintro ⟨found, missed⟩
    refine ⟨⟨_, _, answers, ?_⟩, fun _ _ run => (syscallVmAllocate_spec ok word found run).2⟩
    cases answer : Word.vmSpace (s.task t).tMap (vmAlignUp size) with
    | none => exact missed answer
    | some va => exact found va answer

theorem smallTask_wellFormed : smallTask.tMap.WellFormed where
  ordered := pairwise_singleton _ _
  nonempty := by decide
  pages := by decide
  inside := by decide
  window := by decide

theorem placement_sound_small : smallWorld.Ok ∧
    ((∃ got s', Word.vmMapFindSpace 1 5000 smallWorld.mem = (.ok got, s') ∧
      match got with
      | some va => (smallWorld.mem.task 1).tMap.Hole (vmAlignUp 5000) va
      | none => ∀ va, ¬ (smallWorld.mem.task 1).tMap.Hole (vmAlignUp 5000) va) ∧
    ∀ result s', syscallVmAllocate 1 5000 ⟨true, true, false, true⟩ smallWorld.mem =
      (.ok result, s') →
      ∀ x a, s'.leaf x a ≠ smallWorld.mem.leaf x a →
        x = 1 ∧ ∃ va, result = .ok va ∧ va ≤ a ∧ a < va + vmAlignUp 5000) :=
  ⟨smallWorld_ok,
    (placement_sound smallWorld.mem 1 5000 _ _ (by decide) (by decide) smallTask_wellFormed
    ⟨by decide, by decide, by decide⟩ smallWorld_ok).mpr
    (VmMap.Roomy.unmisled ⟨by decide, by decide⟩ smallTask_wellFormed (by decide))⟩

/-- A task with one page, loaded at the floor of its window, and one more frame in the machine. -/
def loadedMemory : Memory where
  pmm := { managed := 2, used := fun f => f == 0, refs := fun f => (f == 0).toNat, hint := 1 }
  ram := fun _ _ => 0
  tasks := (∅ : Table Nat Task).insert 1
    { tMap :=
        { (default : VmMap) with
          vmHead := [
            { vmeStart := 0x40000000, vmeEnd := 0x40001000, vmeOffset := 0, vmeObject := none
              vmeProt := { read := true, write := true, exec := false, user := true }
              vmeFlags := { anon := true, cow := false, lazy := false } }] }
      tPmap :=
        (∅ : Table Nat Leaf).insert 0x40000000 ⟨0,
          { read := true, write := true, exec := false, user := true }⟩ }
  objects := fun _ _ => 0
  refuse := []

/-- A size one page short of the whole address space: the sum wraps below the first entry, the
page already there passes for free, and the call that then runs out of memory takes it away. -/
theorem placement_wraps : (loadedMemory.task 1).tMap.WellFormed ∧
    (Word.vmMapFindSpace 1 0xFFFFFFFFFFFFF000 loadedMemory).1 = .ok (some 0x40000000) ∧
    ¬ (loadedMemory.task 1).tMap.Hole (vmAlignUp 0xFFFFFFFFFFFFF000) 0x40000000 ∧
    (syscallVmAllocate 1 0xFFFFFFFFFFFFF000 ⟨true, true, false, false⟩ loadedMemory).1 =
      .ok (.error .nomem) ∧
    loadedMemory.leaf 1 0x40000000 = some ⟨0, ⟨true, true, false, true⟩⟩ ∧
    (syscallVmAllocate 1 0xFFFFFFFFFFFFF000 ⟨true, true, false, false⟩ loadedMemory).2.leaf 1
      0x40000000 = none := by
  refine ⟨⟨pairwise_singleton _ _, by decide, by decide, by decide, by decide⟩, by decide +kernel,
    fun hole => absurd hole.high
    (by decide), by decide +kernel, by decide +kernel, by decide +kernel⟩

end Style9.Vm
