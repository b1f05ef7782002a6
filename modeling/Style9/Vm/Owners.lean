import Style9.Vm.Ranges

/-!
# Who owns a frame

The owners of an allocated frame are the leaves that map it and the messages that carry it, and
its count is how many there are. A leaf may have the write bit only as the sole owner. The
routines below pass ownership around: each lemma says which frames the caller holds before and
after.
-/
namespace Style9.Vm

open Style9.Lib Function Memory Multiset

variable {s s' : Memory} {t t' va va' : Nat} {f g : Frame} {l l' : Leaf}
  {held held' : Multiset Frame} {x : Task}
  {e : VmMapEntry}

/-! ### Reading a changed state -/

@[simp] theorem Memory.task_setTask (s : Memory) (t t' : Nat) (x : Task) :
    (s.setTask t x).task t' = if t' = t then x else s.task t' := by
  unfold Memory.task Memory.setTask
  split
  next same => rw [same, AList.lookup_insert]; rfl
  next other => rw [AList.lookup_insert_ne other]

@[simp] theorem Memory.leaf_setLeaf (s : Memory) (t va t' va' : Nat) (l : Leaf) :
    (s.setLeaf t va l).leaf t' va' = if t' = t ∧ va' = va then some l else s.leaf t' va' := by
  unfold Memory.leaf Memory.setLeaf
  rw [task_setTask]
  by_cases task : t' = t
  · subst task
    rw [if_pos rfl]
    by_cases page : va' = va
    · rw [page, AList.lookup_insert, if_pos ⟨rfl, rfl⟩]
    · rw [AList.lookup_insert_ne page, if_neg fun both => page both.2]
  · rw [if_neg task, if_neg fun both => task both.1]

@[simp] theorem Memory.leaf_eraseLeaf (s : Memory) (t va t' va' : Nat) :
    (s.eraseLeaf t va).leaf t' va' = if t' = t ∧ va' = va then none else s.leaf t' va' := by
  unfold Memory.leaf Memory.eraseLeaf
  rw [task_setTask]
  by_cases task : t' = t
  · subst task
    rw [if_pos rfl]
    by_cases page : va' = va
    · rw [page, AList.lookup_erase, if_pos ⟨rfl, rfl⟩]
    · rw [AList.lookup_erase_ne page, if_neg fun both => page both.2]
  · rw [if_neg task, if_neg fun both => task both.1]

@[simp] theorem Memory.leaf_setMap (s : Memory) (t t' va : Nat) (m : VmMap) :
    (s.setMap t m).leaf t' va = s.leaf t' va := by
  unfold Memory.leaf Memory.setMap
  rw [task_setTask]
  split
  next same => rw [same]
  · rfl

@[simp] theorem Memory.entries_setMap (s : Memory) (t t' : Nat) (m : VmMap) :
    (s.setMap t m).entries t' = if t' = t then m.vmHead else s.entries t' := by
  unfold Memory.entries Memory.setMap
  rw [task_setTask]
  split <;> rfl

@[simp] theorem Memory.leaf_setEntries (s : Memory) (t t' va : Nat) (es : List VmMapEntry) :
    (s.setEntries t es).leaf t' va = s.leaf t' va := leaf_setMap s t t' va _

@[simp] theorem Memory.entries_setEntries (s : Memory) (t t' : Nat) (es : List VmMapEntry) :
    (s.setEntries t es).entries t' = if t' = t then es else s.entries t' :=
  entries_setMap s t t' _

@[simp] theorem Memory.entries_setLeaf (s : Memory) (t va t' : Nat) (l : Leaf) :
    (s.setLeaf t va l).entries t' = s.entries t' := by
  unfold Memory.entries Memory.setLeaf
  rw [task_setTask]
  split
  next same => rw [same]
  · rfl

@[simp] theorem Memory.entries_eraseLeaf (s : Memory) (t va t' : Nat) :
    (s.eraseLeaf t va).entries t' = s.entries t' := by
  unfold Memory.entries Memory.eraseLeaf
  rw [task_setTask]
  split
  next same => rw [same]
  · rfl

@[simp] theorem Memory.leaf_fill (s : Memory) (f : Frame) (page : Nat → Byte) :
    (s.fill f page).leaf t va = s.leaf t va := rfl

@[simp] theorem Memory.entries_fill (s : Memory) (f : Frame) (page : Nat → Byte) :
    (s.fill f page).entries t = s.entries t := rfl

@[simp] theorem Memory.ram_fill (s : Memory) (f : Frame) (page : Nat → Byte) (g : Frame) :
    (s.fill f page).ram g = if g = f then page else s.ram g := update_apply _ _ _ _

@[simp] theorem Memory.leaf_setPmm (s : Memory) (p : Pmm) :
    (s.setPmm p).leaf t va = s.leaf t va := rfl

/-! ### The leaves in all -/

def Task.frames (task : Task) : Multiset Frame :=
  task.tPmap.total fun _ l => ({l.pa} : Multiset Frame)

def Memory.mapped (s : Memory) : Multiset Frame := s.tasks.total fun _ task => task.frames

theorem Memory.mapped_setTask (s : Memory) (t : Nat) (x : Task) :
    (s.setTask t x).mapped + (s.task t).frames = x.frames + s.mapped := by
  unfold Memory.mapped Memory.setTask Memory.task
  cases present : s.tasks.lookup t with
  | none =>
    rw [Table.total_insert_of_none present]
    exact add_zero _
  | some old => exact Table.total_insert_add present

theorem Memory.mapped_of_frames (same : x.frames = (s.task t).frames) :
    (s.setTask t x).mapped = s.mapped := by
  have moved := s.mapped_setTask t x
  rw [same, add_comm] at moved
  exact add_left_cancel moved

@[simp] theorem Memory.mapped_setMap (s : Memory) (t : Nat) (m : VmMap) :
    (s.setMap t m).mapped = s.mapped := mapped_of_frames rfl

@[simp] theorem Memory.mapped_setEntries (s : Memory) (t : Nat) (es : List VmMapEntry) :
    (s.setEntries t es).mapped = s.mapped := mapped_setMap s t _

theorem Memory.mapped_move {less more : Multiset Frame}
    (moved : x.frames + less = (s.task t).frames + more) :
    (s.setTask t x).mapped + less = s.mapped + more := by
  have whole := s.mapped_setTask t x
  ext f
  have here := congrArg (Multiset.count f) moved
  have there := congrArg (Multiset.count f) whole
  simp only [count_add] at here there ⊢
  omega

theorem Memory.mapped_setLeaf_new (absent : s.leaf t va = none) :
    (s.setLeaf t va l).mapped = s.mapped + {l.pa} := by
  have grown : Task.frames { s.task t with tPmap := (s.task t).tPmap.insert va l } + 0 =
      (s.task t).frames + {l.pa} := by
    rw [add_zero, add_comm]
    exact Table.total_insert_of_none absent
  exact (add_zero _).symm.trans (mapped_move grown)

theorem Memory.mapped_setLeaf_old (present : s.leaf t va = some l') :
    (s.setLeaf t va l).mapped + {l'.pa} = s.mapped + {l.pa} := by
  refine mapped_move ?_
  rw [add_comm (s.task t).frames]
  exact Table.total_insert_add present

theorem Memory.mapped_eraseLeaf (present : s.leaf t va = some l) :
    (s.eraseLeaf t va).mapped + {l.pa} = s.mapped := by
  refine (mapped_move ?_).trans (add_zero _)
  rw [add_zero]
  exact Table.total_erase_add present

theorem Memory.mem_mapped (present : s.leaf t va = some l) : l.pa ∈ s.mapped := by
  rw [← mapped_eraseLeaf present]
  simp

theorem Memory.exists_of_mem_mapped (member : f ∈ s.mapped) :
    ∃ t va l, s.leaf t va = some l ∧ l.pa = f := by
  obtain ⟨t, task, present, member⟩ := Table.exists_of_mem_total member
  obtain ⟨va, l, found, same⟩ := Table.exists_of_mem_total member
  refine ⟨t, va, l, ?_, (mem_singleton.mp same).symm⟩
  unfold Memory.leaf Memory.task
  rw [present]
  exact found

theorem Memory.two_le_count (present : s.leaf t va = some l) (present' : s.leaf t' va' = some l')
    (apart : ¬ (t' = t ∧ va' = va)) (same : l'.pa = l.pa) : 2 ≤ s.mapped.count l.pa := by
  have still : (s.eraseLeaf t va).leaf t' va' = some l' := by
    rw [leaf_eraseLeaf, if_neg apart, present']
  have once := one_le_count_iff_mem.mpr (Memory.mem_mapped still)
  rw [same] at once
  rw [← mapped_eraseLeaf present, count_add, count_singleton_self]
  omega

/-! ### Ownership -/

/-- A leaf lies under an entry: owned frames under owned ranges, frames reserved at boot under
borrowed ones, and the write bit only where the range permits it. -/
structure Backed (s : Memory) (t va : Nat) (l : Leaf) (e : VmMapEntry) : Prop where
  found : vmMapLookup (s.entries t) va = some e
  owned : e.vmeFlags.anon = true → s.pmm.refs l.pa ≠ 0
  borrowed : e.vmeFlags.anon = false → s.pmm.refs l.pa = 0 ∧ s.pmm.used l.pa = true
  write : l.prot.write = true → e.vmeProt.write = true

theorem Backed.of_owned (found : vmMapLookup (s.entries t) va = some e)
    (anon : e.vmeFlags.anon = true) (live : s.pmm.refs l.pa ≠ 0)
    (write : l.prot.write = true → e.vmeProt.write = true) : Backed s t va l e :=
  ⟨found, fun _ => live, fun kernel => (Bool.false_ne_true (kernel.symm.trans anon)).elim, write⟩

/-- Every owner count is the number of owners, where `held` are the frames carried by messages
or by the running call. -/
structure Owned (s : Memory) (held : Multiset Frame) : Prop where
  counted : ∀ f, s.pmm.refs f ≠ 0 → s.pmm.refs f = (s.mapped + held).count f
  busy : ∀ f, s.pmm.refs f ≠ 0 → s.pmm.used f = true
  carried : ∀ f ∈ held, s.pmm.refs f ≠ 0
  ranges : ∀ t, Ranges (s.entries t)
  aligned : ∀ t va l, s.leaf t va = some l → va % vmPageSize = 0
  backed : ∀ t va l, s.leaf t va = some l → ∃ e, Backed s t va l e

/-- The write bit goes to a sole owner. -/
def Exclusive (s : Memory) : Prop :=
  ∀ t va l, s.leaf t va = some l → l.prot.write = true → s.pmm.refs l.pa = 1

structure VmOk (s : Memory) (held : Multiset Frame) : Prop extends Owned s held where
  exclusive : Exclusive s

theorem Owned.congr (owned : Owned s held) (pmm : s'.pmm = s.pmm) (mapped : s'.mapped = s.mapped)
    (leaf : ∀ t va, s'.leaf t va = s.leaf t va) (entries : ∀ t, s'.entries t = s.entries t) :
    Owned s' held := by
  refine ⟨?_, ?_, ?_, ?_, ?_, ?_⟩
  · rw [pmm, mapped]
    exact owned.counted
  · rw [pmm]
    exact owned.busy
  · rw [pmm]
    exact owned.carried
  · exact fun t => entries t ▸ owned.ranges t
  · exact fun t va l present => owned.aligned t va l (leaf t va ▸ present)
  · intro t va l present
    obtain ⟨e, backed⟩ := owned.backed t va l (leaf t va ▸ present)
    exact ⟨e, entries t ▸ backed.found, pmm ▸ backed.owned, pmm ▸ backed.borrowed, backed.write⟩

theorem VmOk.congr (ok : VmOk s held) (pmm : s'.pmm = s.pmm) (mapped : s'.mapped = s.mapped)
    (leaf : ∀ t va, s'.leaf t va = s.leaf t va) (entries : ∀ t, s'.entries t = s.entries t) :
    VmOk s' held :=
  ⟨ok.toOwned.congr pmm mapped leaf entries,
    fun t va l present write => pmm ▸ ok.exclusive t va l (leaf t va ▸ present) write⟩

theorem Owned.used_of_leaf (owned : Owned s held) (present : s.leaf t va = some l) :
    s.pmm.used l.pa = true := by
  obtain ⟨e, backed⟩ := owned.backed t va l present
  cases anon : e.vmeFlags.anon with
  | false => exact (backed.borrowed anon).2
  | true => exact owned.busy _ (backed.owned anon)

theorem Owned.free_unowned (owned : Owned s held) (free : s.pmm.used f = false) :
    f ∉ held ∧ ∀ t va l, s.leaf t va = some l → l.pa ≠ f := by
  refine ⟨fun member => ?_, ?_⟩
  · rw [owned.busy f (owned.carried f member)] at free
    cases free
  · rintro t va l present rfl
    rw [owned.used_of_leaf present] at free
    cases free

theorem Owned.sole (owned : Owned s (f ::ₘ held)) (one : s.pmm.refs f = 1) :
    f ∉ held ∧ ∀ t va l, s.leaf t va = some l → l.pa ≠ f := by
  have count := owned.counted f (by omega)
  rw [one, count_add, count_cons_self] at count
  refine ⟨fun member => ?_, ?_⟩
  · have := one_le_count_iff_mem.mpr member
    omega
  · rintro t va l present rfl
    have := one_le_count_iff_mem.mpr (Memory.mem_mapped present)
    omega

theorem VmOk.alone (ok : VmOk s held) (present : s.leaf t va = some l)
    (write : l.prot.write = true) :
    l.pa ∉ held ∧ ∀ t' va' l', s.leaf t' va' = some l' → l'.pa = l.pa → t' = t ∧ va' = va := by
  have one := ok.exclusive t va l present write
  have count := ok.counted l.pa (by omega)
  rw [one, count_add] at count
  have here := one_le_count_iff_mem.mpr (Memory.mem_mapped present)
  refine ⟨fun member => ?_, fun t' va' l' present' same => ?_⟩
  · have := one_le_count_iff_mem.mpr member
    omega
  · by_contra apart
    have := two_le_count present present' apart same
    omega

/-! ### Passing ownership on -/

variable (p : Pmm)

@[simp] theorem Pmm.refs_alloc (f g : Frame) :
    (p.alloc f).refs g = if g = f then 1 else p.refs g := update_apply _ _ _ _

@[simp] theorem Pmm.used_alloc (f g : Frame) :
    (p.alloc f).used g = if g = f then true else p.used g := update_apply _ _ _ _

@[simp] theorem Pmm.refs_ref (f g : Frame) :
    (p.ref f).refs g = if g = f then p.refs f + 1 else p.refs g := update_apply _ _ _ _

@[simp] theorem Pmm.refs_free (f g : Frame) :
    (p.free f).refs g = if g = f then p.refs f - 1 else p.refs g := by
  unfold Pmm.free
  split
  next last =>
    rw [last]
    exact update_apply _ _ _ _
  · exact update_apply _ _ _ _

theorem Pmm.used_free_of_ne (other : g ≠ f) : (p.free f).used g = p.used g := by
  unfold Pmm.free
  split
  · exact update_of_ne other _ _
  · rfl

theorem Pmm.used_free_of_shared (shared : p.refs f - 1 ≠ 0) : (p.free f).used g = p.used g := by
  unfold Pmm.free
  rw [if_neg shared]

theorem Owned.recount {p : Pmm} (owned : Owned s held)
    (refs : ∀ g ≠ f, p.refs g = s.pmm.refs g) (used : ∀ g ≠ f, p.used g = s.pmm.used g)
    (others : ∀ g ≠ f, held'.count g = held.count g) (mine : f ∈ s.mapped → s.pmm.refs f ≠ 0)
    (count : p.refs f = (s.mapped + held').count f) (busy : p.refs f ≠ 0 → p.used f = true) :
    Owned (s.setPmm p) held' := by
  have counts : ∀ g, g ∈ s.mapped ∨ g ∈ held' → g = f → p.refs g ≠ 0 := by
    rintro g member rfl
    have : g ∈ s.mapped + held' := mem_add.mpr member
    have := one_le_count_iff_mem.mpr this
    omega
  refine ⟨?_, ?_, ?_, owned.ranges, owned.aligned, ?_⟩
  · intro g live
    change p.refs g = (s.mapped + held').count g
    by_cases same : g = f
    · rw [same, count]
    · have live : p.refs g ≠ 0 := live
      rw [refs g same] at live ⊢
      rw [owned.counted g live, count_add, count_add, others g same]
  · intro g live
    change p.used g = true
    have live : p.refs g ≠ 0 := live
    by_cases same : g = f
    · rw [same] at live ⊢
      exact busy live
    · rw [refs g same] at live
      rw [used g same]
      exact owned.busy g live
  · intro g member
    change p.refs g ≠ 0
    by_cases same : g = f
    · exact counts g (.inr member) same
    rw [refs g same]
    refine owned.carried g (one_le_count_iff_mem.mp ?_)
    rw [← others g same]
    exact one_le_count_iff_mem.mpr member
  intro t va l present
  have present := present
  obtain ⟨e, backed⟩ := owned.backed t va l present
  have member := Memory.mem_mapped present
  refine ⟨e, backed.found, fun anon => ?_, fun kernel => ?_, backed.write⟩
  · change p.refs l.pa ≠ 0
    by_cases same : l.pa = f
    · exact counts l.pa (.inl member) same
    · rw [refs _ same]
      exact backed.owned anon
  change p.refs l.pa = 0 ∧ p.used l.pa = true
  obtain ⟨none, reserved⟩ := backed.borrowed kernel
  have other : l.pa ≠ f := fun same => mine (same ▸ member) (same ▸ none)
  rw [refs _ other, used _ other]
  exact ⟨none, reserved⟩

theorem Owned.alloc (owned : Owned s held) (free : s.pmm.used f = false) :
    Owned (s.setPmm (s.pmm.alloc f)) (f ::ₘ held) := by
  obtain ⟨unheld, unmapped⟩ := owned.free_unowned free
  have fresh : f ∉ s.mapped := fun member => by
    obtain ⟨t, va, l, present, same⟩ := exists_of_mem_mapped member
    exact unmapped t va l present same
  refine owned.recount (f := f) ?_ ?_ ?_ (fun member => absurd member fresh) ?_ ?_
  · exact fun g other => by rw [Pmm.refs_alloc, if_neg other]
  · exact fun g other => by rw [Pmm.used_alloc, if_neg other]
  · exact fun g other => count_cons_of_ne other _
  · rw [Pmm.refs_alloc, if_pos rfl, count_add, count_cons_self, count_eq_zero.mpr fresh,
      count_eq_zero.mpr unheld]
  · exact fun _ => by rw [Pmm.used_alloc, if_pos rfl]

theorem VmOk.alloc (ok : VmOk s held) (free : s.pmm.used f = false) :
    VmOk (s.setPmm (s.pmm.alloc f)) (f ::ₘ held) := by
  refine ⟨ok.toOwned.alloc free, fun t va l present write => ?_⟩
  change (s.pmm.alloc f).refs l.pa = 1
  rw [Pmm.refs_alloc, if_neg ((ok.free_unowned free).2 t va l present)]
  exact ok.exclusive t va l present write

theorem Owned.ref (owned : Owned s held) (live : s.pmm.refs f ≠ 0) :
    Owned (s.setPmm (s.pmm.ref f)) (f ::ₘ held) := by
  refine owned.recount (f := f) ?_ ?_ ?_ (fun _ => live) ?_ (fun _ => owned.busy f live)
  · exact fun g other => by rw [Pmm.refs_ref, if_neg other]
  · exact fun g other => rfl
  · exact fun g other => count_cons_of_ne other _
  · rw [Pmm.refs_ref, if_pos rfl, owned.counted f live, count_add, count_add, count_cons_self]
    omega

theorem Owned.free (owned : Owned s (f ::ₘ held)) : Owned (s.setPmm (s.pmm.free f)) held := by
  have live := owned.carried f (mem_cons_self f held)
  refine owned.recount (f := f) ?_ ?_ ?_ (fun _ => live) ?_ ?_
  · exact fun g other => by rw [Pmm.refs_free, if_neg other]
  · exact fun g other => s.pmm.used_free_of_ne other
  · exact fun g other => (count_cons_of_ne other _).symm
  · rw [Pmm.refs_free, if_pos rfl, owned.counted f live, count_add, count_add, count_cons_self]
    omega
  intro shared
  rw [Pmm.refs_free, if_pos rfl] at shared
  rw [s.pmm.used_free_of_shared shared]
  exact owned.busy f live

theorem VmOk.free (ok : VmOk s (f ::ₘ held)) : VmOk (s.setPmm (s.pmm.free f)) held := by
  refine ⟨ok.toOwned.free, fun t va l present write => ?_⟩
  have present := present
  -- a leaf with the write bit is the sole owner, so the frame dropped is another one
  have other : l.pa ≠ f := fun same =>
    (ok.alone present write).1 (same ▸ mem_cons_self f held)
  change (s.pmm.free f).refs l.pa = 1
  rw [Pmm.refs_free, if_neg other]
  exact ok.exclusive t va l present write

/-! ### Leaves -/

theorem Owned.writeLeaf (owned : Owned s held)
    (aligned : va % vmPageSize = 0) (backed : Backed s t va l e) (count : ∀ f, s.pmm.refs f ≠ 0 →
      ((s.setLeaf t va l).mapped + held').count f = (s.mapped + held).count f)
    (carried : ∀ f ∈ held', s.pmm.refs f ≠ 0) : Owned (s.setLeaf t va l) held' := by
  refine ⟨?_, owned.busy, carried, ?_, ?_, ?_⟩
  · exact fun f live => (owned.counted f live).trans (count f live).symm
  · intro x
    rw [entries_setLeaf]
    exact owned.ranges x
  · intro x page l' present
    rw [leaf_setLeaf] at present
    split at present
    next here => rw [here.2]; exact aligned
    · exact owned.aligned x page l' present
  intro x page l' present
  rw [leaf_setLeaf] at present
  split at present
  next here =>
    cases present
    rw [here.1, here.2]
    exact ⟨e, by rw [entries_setLeaf]; exact backed.found, backed.owned, backed.borrowed,
      backed.write⟩
  · obtain ⟨e', old⟩ := owned.backed x page l' present
    exact ⟨e', by rw [entries_setLeaf]; exact old.found, old.owned, old.borrowed, old.write⟩

theorem Owned.place (owned : Owned s (l.pa ::ₘ held))
    (absent : s.leaf t va = none) (aligned : va % vmPageSize = 0) (backed : Backed s t va l e) :
    Owned (s.setLeaf t va l) held := by
  refine owned.writeLeaf aligned backed (fun f _ => ?_) fun f member =>
    owned.carried f (mem_cons_of_mem member)
  rw [mapped_setLeaf_new absent, ← singleton_add, add_assoc]

theorem Owned.replace (owned : Owned s (l.pa ::ₘ held))
    (present : s.leaf t va = some l') (live : s.pmm.refs l'.pa ≠ 0) (backed : Backed s t va l e) :
    Owned (s.setLeaf t va l) (l'.pa ::ₘ held) := by
  refine owned.writeLeaf (owned.aligned t va l' present) backed (fun f _ => ?_) fun f member => ?_
  · have moved := mapped_setLeaf_old (l := l) present
    rw [← singleton_add, ← singleton_add, ← add_assoc, ← add_assoc, moved]
  · rcases mem_cons.mp member with rfl | member
    · exact live
    · exact owned.carried f (mem_cons_of_mem member)

theorem Owned.protect (owned : Owned s held) (present : s.leaf t va = some l')
    (same : l.pa = l'.pa) (backed : Backed s t va l e) : Owned (s.setLeaf t va l) held := by
  refine owned.writeLeaf (owned.aligned t va l' present) backed (fun f _ => ?_) owned.carried
  have moved := mapped_setLeaf_old (l := l) present
  rw [same] at moved
  rw [add_right_cancel moved]

theorem Owned.borrow (owned : Owned s held) (absent : s.leaf t va = none)
    (aligned : va % vmPageSize = 0) (backed : Backed s t va l e) (kernel : s.pmm.refs l.pa = 0) :
    Owned (s.setLeaf t va l) held := by
  refine owned.writeLeaf aligned backed (fun f live => ?_) owned.carried
  have other : f ≠ l.pa := fun same => live (same ▸ kernel)
  rw [mapped_setLeaf_new absent, count_add, count_add, count_add, count_singleton, if_neg other,
    add_zero]

theorem Owned.lift (owned : Owned s held) (present : s.leaf t va = some l)
    (live : s.pmm.refs l.pa ≠ 0) : Owned (s.eraseLeaf t va) (l.pa ::ₘ held) := by
  refine ⟨?_, owned.busy, ?_, ?_, ?_, ?_⟩
  · intro f live
    have here := owned.counted f live
    rw [← mapped_eraseLeaf present] at here
    rw [← singleton_add, ← add_assoc]
    exact here
  · intro f member
    rcases mem_cons.mp member with rfl | member
    · exact live
    · exact owned.carried f member
  · intro x
    rw [entries_eraseLeaf]
    exact owned.ranges x
  · intro x page l' found
    rw [leaf_eraseLeaf] at found
    split at found
    · cases found
    · exact owned.aligned x page l' found
  intro x page l' found
  rw [leaf_eraseLeaf] at found
  split at found
  · cases found
  · obtain ⟨e, old⟩ := owned.backed x page l' found
    exact ⟨e, by rw [entries_eraseLeaf]; exact old.found, old.owned, old.borrowed, old.write⟩

theorem Owned.setEntries {es : List VmMapEntry} (owned : Owned s held) (ranges : Ranges es)
    (still : ∀ va l, s.leaf t va = some l →
      Option.Rel (Alike va) (vmMapLookup (s.entries t) va) (vmMapLookup es va)) :
    Owned (s.setEntries t es) held := by
  refine ⟨?_, owned.busy, owned.carried, ?_, ?_, ?_⟩
  · intro f live
    rw [mapped_setEntries]
    exact owned.counted f live
  · intro x
    rw [entries_setEntries]
    split
    · exact ranges
    · exact owned.ranges x
  · intro x page l present
    rw [leaf_setEntries] at present
    exact owned.aligned x page l present
  intro x page l present
  rw [leaf_setEntries] at present
  obtain ⟨e, old⟩ := owned.backed x page l present
  by_cases here : x = t
  · subst here
    have like := still page l present
    rw [old.found] at like
    generalize found : vmMapLookup es page = new at like
    cases like with
    | some alike =>
    refine ⟨_, by rw [entries_setEntries, if_pos rfl]; exact found, ?_, ?_, ?_⟩
    · rw [alike.anon]
      exact old.owned
    · rw [alike.anon]
      exact old.borrowed
    · rw [alike.prot]
      exact old.write
  · exact ⟨e, by rw [entries_setEntries, if_neg here]; exact old.found, old.owned,
      old.borrowed, old.write⟩

end Style9.Vm
