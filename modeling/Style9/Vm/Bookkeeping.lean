import Style9.Lib.Runs
import Style9.Vm.Mapping

/-!
# The map of a task as an interval map

The routines on the entries of one map, with the two counters they keep beside the list: `vm_count`,
and the references that entries hold on the objects behind them.

What the list stands for is a function from pages to what backs them. Entering, releasing and
resetting act on that function directly, however the entries are cut; a removal takes the entries
wholly inside its range. In every run the list answers as the function does.
-/
namespace Style9.Vm

open Style9.Lib Function Memory List Act Option Intervals Nat Prod

/-- The memory, the count of one task's map, and the references on each object. -/
structure Space where
  mem : Memory
  vmCount : Nat
  voRefs : Nat → Nat

namespace Space

abbrev SpaceOp : Type → Type := Act Space Halt

variable {α β : Type} {s s' : Space} {t va stop size : Nat} {e : VmMapEntry}

/-- A call that does not touch the counters. -/
def onMemory (x : Op α) : SpaceOp α := fun s => ((x s.mem).1, { s with mem := (x s.mem).2 })

/-! ### The routines -/

variable (obj : Option Nat)

def vmObjectRef (s : Space) : Space :=
  match obj with
  | none => s
  | some o => { s with voRefs := update s.voRefs o (s.voRefs o + 1) }

def vmObjectDeref (s : Space) : Space :=
  match obj with
  | none => s
  | some o => { s with voRefs := update s.voRefs o (s.voRefs o - 1) }

def entryFree (s : Space) (e : VmMapEntry) : Space := vmObjectDeref e.vmeObject s

/-- `vm_map_enter_backed`: the entry takes over the caller's reference. -/
def vmMapEnterBacked (t va size : Nat) (prot : Prot) (flags : VmeFlags) (obj : Option Nat)
    (offset : Nat) : SpaceOp Bool := do
  if ← onMemory (Vm.vmMapEnterBacked t va size prot flags obj offset) then do
    modify fun s => { s with vmCount := s.vmCount + 1 }
    pure true
  else pure false

/-- An entry made two: both name the object, so both hold a reference. -/
def splitAt (t point : Nat) (e : VmMapEntry) (s : Space) : Space :=
  vmObjectRef e.vmeObject
    { s with mem := s.mem.setEntries t (vmClip point (s.mem.entries t)), vmCount := s.vmCount + 1 }

/-- `vm_entry_split_locked`, for the entry that holds the cut strictly inside. -/
def vmEntrySplit (t point : Nat) (e : VmMapEntry) : SpaceOp Bool := do
  if ← onMemory granted then do
    modify (splitAt t point e)
    pure true
  else pure false

/-- `vm_map_clip_locked`. -/
def vmMapClip (t point : Nat) : SpaceOp Bool := do
  match vmMapLookup (← read fun s => s.mem.entries t) point with
  | none => pure true
  | some e => if e.vmeStart = point then pure true else vmEntrySplit t point e

/-- The body of `vm_map_remove`: the entries wholly inside are unlinked and counted out, and freed
after that, the last one first. -/
def takeOut (t va stop : Nat) : SpaceOp Nat := do
  let gone ← read fun s =>
    Intervals.inside VmMapEntry.vmeStart VmMapEntry.vmeEnd va stop (s.mem.entries t)
  modify fun s => { s with
    mem := s.mem.setEntries t (vmMapRemove va stop (s.mem.entries t))
    vmCount := s.vmCount - gone.length }
  modify fun s => gone.reverse.foldl entryFree s
  pure gone.length

def vmMapRemove (t va size : Nat) : SpaceOp Nat :=
  if size = 0 then pure 0 else takeOut t va ((va + size) % 2 ^ 64)

def vmMapReset (t : Nat) : SpaceOp Unit := do
  modify fun s => (s.mem.entries t).foldl entryFree s
  modify fun s => { s with
    mem := s.mem.setMap t { (s.mem.task t).tMap with
      vmHead := [], vmHint := (s.mem.task t).tMap.vmLo }
    vmCount := 0 }

def vmMapRelease (t va size : Nat) : SpaceOp Bool := do
  let m ← read fun s => (s.mem.task t).tMap
  if size = 0 ∨ va % vmPageSize ≠ 0 ∨ size % vmPageSize ≠ 0 ∨ va < m.vmLo ∨ m.vmHi < va + size
    then pure false
  else if vmCovered (va + size) va m.vmHead < va + size then pure false
  else if !(← vmMapClip t va) then pure false
  else if !(← vmMapClip t (va + size)) then pure false
  else do
    onMemory (dropPages t (vmPages va (va + size)))
    let _ ← takeOut t va (va + size)
    pure true

/-! ### The counters -/

@[simp] theorem mem_vmObjectRef (s : Space) : (vmObjectRef obj s).mem = s.mem := by
  cases obj <;> rfl

theorem foldl_entryFree (l : List VmMapEntry) (s : Space) :
    (l.foldl entryFree s).mem = s.mem ∧ (l.foldl entryFree s).vmCount = s.vmCount := by
  induction l generalizing s with
  | nil => exact ⟨rfl, rfl⟩
  | cons e l ih =>
  obtain ⟨mem, count⟩ := ih (entryFree s e)
  rw [foldl_cons, mem, count]
  unfold entryFree
  cases e.vmeObject <;> exact ⟨rfl, rfl⟩

theorem count_vmObjectRef (s : Space) : (vmObjectRef obj s).vmCount = s.vmCount := by
  cases obj <;> rfl

theorem voRefs_vmObjectRef (s : Space) (o : Nat) :
    (vmObjectRef obj s).voRefs o = s.voRefs o + if obj = some o then 1 else 0 := by
  cases obj with
  | none => rfl
  | some o' =>
  change update s.voRefs o' (s.voRefs o' + 1) o = _
  by_cases same : o = o'
  · rw [same, update_self, if_pos rfl]
  · rw [update_of_ne same, if_neg fun mine => same (some.inj mine).symm]
    rfl

theorem voRefs_entryFree (s : Space) (e : VmMapEntry) (o : Nat) :
    (entryFree s e).voRefs o = s.voRefs o - if e.vmeObject = some o then 1 else 0 := by
  unfold entryFree
  cases e.vmeObject with
  | none => rfl
  | some o' =>
  change update s.voRefs o' (s.voRefs o' - 1) o = _
  by_cases same : o = o'
  · rw [same, update_self, if_pos rfl]
  · rw [update_of_ne same, if_neg fun mine => same (some.inj mine).symm]
    rfl

end Space

/-! ### The lists -/

structure PageAttr where
  prot : Prot
  flags : VmeFlags
  object : Option Nat
  offset : Nat
  deriving DecidableEq

def VmMapEntry.page (e : VmMapEntry) (p : Nat) : PageAttr :=
  ⟨e.vmeProt, e.vmeFlags, e.vmeObject, e.vmeOffset + (p - e.vmeStart)⟩

/-- Entries in order and apart, on page boundaries and inside the window. -/
structure Listed (lo hi : Nat) (es : List VmMapEntry) : Prop where
  ordered : Intervals.Ordered VmMapEntry.vmeStart VmMapEntry.vmeEnd es
  aligned : ∀ e ∈ es, e.vmeStart % vmPageSize = 0 ∧ e.vmeEnd % vmPageSize = 0
  window : ∀ e ∈ es, lo ≤ e.vmeStart ∧ e.vmeEnd ≤ hi

def naming (es : List VmMapEntry) (o : Nat) : Nat := es.countP fun e => e.vmeObject = some o

def pageOf (es : List VmMapEntry) (p : Nat) : Option PageAttr :=
  (vmMapLookup es p).map fun e => e.page p

variable {e : VmMapEntry}

section Lists

variable {lo hi : Nat} {es : List VmMapEntry} {ne : VmMapEntry} {p point va stop : Nat}

theorem Listed.insert (listed : Listed lo hi es) (ne : VmMapEntry) (p : Nat)
    (wide : ne.vmeStart < ne.vmeEnd)
    (aligned : ne.vmeStart % vmPageSize = 0 ∧ ne.vmeEnd % vmPageSize = 0)
    (window : lo ≤ ne.vmeStart ∧ ne.vmeEnd ≤ hi)
    (free : vmRangeFree ne.vmeStart ne.vmeEnd es = true) : Listed lo hi (vmEntryInsert ne es) ∧
      pageOf (vmEntryInsert ne es) p = if ne.Covers p then some (ne.page p) else pageOf es p := by
  rw [vmRangeFree_eq, clear_iff listed.ordered] at free
  rw [vmEntryInsert_eq]
  refine ⟨⟨listed.ordered.insert wide free, fun e member => ?_, fun e member => ?_⟩, ?_⟩
  · rcases mem_insert.mp member with rfl | old
    · exact aligned
    · exact listed.aligned e old
  · rcases mem_insert.mp member with rfl | old
    · exact window
    · exact listed.window e old
  · unfold pageOf VmMapEntry.Covers
    rw [vmMapLookup_eq, find_insert listed.ordered wide free, vmMapLookup_eq]
    exact apply_ite (Option.map fun e => VmMapEntry.page e p) _ _ _

theorem naming_insert (ne : VmMapEntry) (es : List VmMapEntry) (o : Nat) :
    naming (vmEntryInsert ne es) o = naming es o + if ne.vmeObject = some o then 1 else 0 := by
  unfold naming
  rw [vmEntryInsert_eq, perm_insert.countP_eq, countP_cons]
  simp only [decide_eq_true_eq]

theorem length_insert (ne : VmMapEntry) (es : List VmMapEntry) :
    (vmEntryInsert ne es).length = es.length + 1 := by
  rw [vmEntryInsert_eq, perm_insert.length_eq, length_cons]

theorem page_half (crossed : e.vmeStart < point ∧ point < e.vmeEnd) (low : e.vmeStart ≤ p) :
    (if p < point then e.below point else e.above point).page p = e.page p := by
  split
  · rfl
  next right =>
    unfold VmMapEntry.page VmMapEntry.above
    have offset : e.vmeOffset + (point - e.vmeStart) + (p - point) =
        e.vmeOffset + (p - e.vmeStart) := by omega
    simp only [offset]

theorem Listed.clip (listed : Listed lo hi es) (p : Nat) (aligned : point % vmPageSize = 0) :
    Listed lo hi (vmClip point es) ∧ pageOf (vmClip point es) p = pageOf es p := by
  rw [vmClip_eq]
  refine ⟨⟨listed.ordered.cut halves, fun e member => ?_, fun e member => ?_⟩, ?_⟩
  · rcases (mem_cut listed.ordered).mp member with ⟨old, -⟩ | ⟨d, old, -, rfl | rfl⟩
    · exact listed.aligned e old
    · exact ⟨(listed.aligned d old).1, aligned⟩
    · exact ⟨aligned, (listed.aligned d old).2⟩
  · obtain ⟨d, old, lower, upper⟩ := cut_within listed.ordered halves member
    have window := listed.window d old
    omega
  unfold pageOf
  rw [vmMapLookup_eq, find_cut listed.ordered halves, vmMapLookup_eq]
  cases found : Intervals.find VmMapEntry.vmeStart VmMapEntry.vmeEnd es p with
  | none => rfl
  | some e =>
  obtain ⟨-, low, -⟩ := (find_some_iff listed.ordered).mp found
  simp only [map_some, some.injEq]
  split
  next crossed => exact page_half crossed low
  · rfl

theorem vmClip_counts (found : vmMapLookup es point = some e) (strict : e.vmeStart ≠ point) :
    (vmClip point es).length = es.length + 1 ∧
      ∀ o, naming (vmClip point es) o = naming es o + if e.vmeObject = some o then 1 else 0 := by
  rw [vmMapLookup_eq] at found
  obtain ⟨l, r, whole, parts⟩ := cut_split VmMapEntry.below VmMapEntry.above found strict
  rw [vmClip_eq, parts, whole]
  refine ⟨by simp only [length_append, length_cons]; omega, fun o => ?_⟩
  have lower : (e.below point).vmeObject = e.vmeObject := rfl
  have upper : (e.above point).vmeObject = e.vmeObject := rfl
  unfold naming
  simp only [countP_append, countP_cons, lower, upper, decide_eq_true_eq]
  omega

theorem Listed.remove (listed : Listed lo hi es) (va stop p : Nat) :
    Listed lo hi (vmMapRemove va stop es) ∧
      pageOf (vmMapRemove va stop es) p =
        if (vmMapLookup es p).any (fun e => va ≤ e.vmeStart ∧ e.vmeEnd ≤ stop) then none
          else pageOf es p := by
  have sub := vmMapRemove_sublist va stop es
  refine ⟨⟨listed.ordered.sublist sub, fun e member => listed.aligned e (sub.subset member),
    fun e member => listed.window e (sub.subset member)⟩, ?_⟩
  unfold pageOf
  rw [vmMapLookup_eq, vmMapRemove_eq, find_remove listed.ordered, vmMapLookup_eq]
  cases Intervals.find VmMapEntry.vmeStart VmMapEntry.vmeEnd es p with
  | none => rfl
  | some e =>
    by_cases inside : va ≤ e.vmeStart ∧ e.vmeEnd ≤ stop
    · simp [inside]
    · rw [filter_some, if_pos (decide_eq_true inside), any_some,
        if_neg (by simpa only [decide_eq_true_eq] using inside)]

theorem remove_counts (va stop : Nat) (es : List VmMapEntry) :
    es.length = (Intervals.inside VmMapEntry.vmeStart VmMapEntry.vmeEnd va stop es).length +
      (vmMapRemove va stop es).length ∧
      ∀ o, naming es o = naming (Intervals.inside VmMapEntry.vmeStart VmMapEntry.vmeEnd va stop es)
        o +
        naming (vmMapRemove va stop es) o := by
  have perm := inside_append_remove VmMapEntry.vmeStart VmMapEntry.vmeEnd va stop es
  rw [← vmMapRemove_eq] at perm
  refine ⟨?_, fun o => ?_⟩
  · rw [← length_append, perm.length_eq]
  · unfold naming
    rw [← countP_append, perm.countP_eq]

end Lists

/-! ### The function from pages -/

/-- What backs each page of an address space. -/
abbrev PageMap : Type := Nat → Option PageAttr

namespace PageMap

def enter (m : PageMap) (va size : Nat) (prot : Prot) (flags : VmeFlags) (obj : Option Nat)
    (offset : Nat) : PageMap :=
  fun p => if va ≤ p ∧ p < va + size then some ⟨prot, flags, obj, offset + (p - va)⟩ else m p

def release (m : PageMap) (va size : Nat) : PageMap :=
  fun p => if va ≤ p ∧ p < va + size then none else m p

/-- The pages of the entries wholly inside a range. -/
def remove (m : PageMap) (es : List VmMapEntry) (va stop : Nat) : PageMap :=
  fun p => if (vmMapLookup es p).any (fun e => va ≤ e.vmeStart ∧ e.vmeEnd ≤ stop) then none else m p

end PageMap

/-- No entry holds an address strictly inside. -/
def Uncrossed (x : Nat) (es : List VmMapEntry) : Prop := ∀ e ∈ es, ¬ (e.vmeStart < x ∧ x < e.vmeEnd)

namespace Space

variable {s s' : Space} {t va stop size point : Nat} {m : PageMap} {held : Nat → Nat} {b : Bool}

/-- The counters are right, and the list answers as the function does. -/
structure Booked (t : Nat) (m : PageMap) (held : Nat → Nat) (s : Space) : Prop where
  listed : Listed (s.mem.task t).tMap.vmLo (s.mem.task t).tMap.vmHi (s.mem.entries t)
  count : s.vmCount = (s.mem.entries t).length
  refs : ∀ o, s.voRefs o = naming (s.mem.entries t) o + held o
  answers : ∀ p, p % vmPageSize = 0 → pageOf (s.mem.entries t) p = m p

theorem Booked.congr (booked : Booked t m held s) (map : (s'.mem.task t).tMap = (s.mem.task t).tMap)
    (count : s'.vmCount = s.vmCount) (refs : s'.voRefs = s.voRefs) : Booked t m held s' := by
  have entries : s'.mem.entries t = s.mem.entries t := congrArg VmMap.vmHead map
  constructor
  · rw [map, entries]
    exact booked.listed
  · rw [count, entries]
    exact booked.count
  · rw [refs, entries]
    exact booked.refs
  · rw [entries]
    exact booked.answers

theorem window_setEntries (mem : Memory) (t : Nat) (es : List VmMapEntry) :
    ((mem.setEntries t es).task t).tMap = { (mem.task t).tMap with vmHead := es } := by
  unfold Memory.setEntries Memory.setMap
  rw [task_setTask, if_pos rfl]

/-- The reference of the caller is the entry's now. -/
def handOver (obj : Option Nat) (held : Nat → Nat) : Nat → Nat :=
  fun o => held o - if obj = some o then 1 else 0

theorem onMemory_ok {α : Type} {x : Op α} {a : α} (run : onMemory x s = (.ok a, s')) :
    ∃ mem, x s.mem = (.ok a, mem) ∧ s' = { s with mem := mem } := by
  have value := congrArg fst run
  exact ⟨_, run_eq value, (congrArg snd run).symm⟩

theorem enterBacked_booked {prot : Prot} {flags : VmeFlags} {obj : Option Nat} {offset : Nat}
    (booked : Booked t m held s) (owed : ∀ o, obj = some o → 0 < held o)
    (run : vmMapEnterBacked t va size prot flags obj offset s = (.ok b, s')) :
    Booked t (if b then m.enter va size prot flags obj offset else m) (if b then handOver obj held
      else held) s' := by
  obtain ⟨b', s₁, entering, run⟩ := bind_ok run
  obtain ⟨mem₁, memory, rfl⟩ := onMemory_ok entering
  obtain ⟨refuse, mem', legal⟩ := vmMapEnterBacked_run memory
  cases b' with
  | false =>
    cases run
    subst mem'
    exact booked.congr rfl rfl rfl
  | true =>
  obtain ⟨rfl, rfl⟩ : b = true ∧ s' = _ := by
    exact pure_ok_iff.mp run
  have legal := legal rfl
  subst mem'
  rw [if_pos rfl, if_pos rfl, if_pos rfl]
  have inserted := fun p => booked.listed.insert (newEntry va size prot flags obj offset) p
    (Nat.lt_add_of_pos_right legal.positive) ⟨legal.first, legal.last⟩ ⟨legal.low,
      legal.high⟩ legal.free
  constructor
  · rw [entries_setEntries, if_pos rfl, window_setEntries]
    exact (inserted 0).1
  · rw [entries_setEntries, if_pos rfl, length_insert]
    exact congrArg (· + 1) booked.count
  · intro o
    rw [entries_setEntries, if_pos rfl, naming_insert, booked.refs o]
    unfold handOver
    change _ = _ + (if obj = some o then 1 else 0) + _
    split
    next mine =>
      have held := owed o mine
      omega
    · rfl
  · intro p page
    rw [entries_setEntries, if_pos rfl, (inserted p).2, booked.answers p page]
    rfl

theorem entries_splitAt (t point : Nat) (e : VmMapEntry) (s : Space) :
    (splitAt t point e s).mem.entries t = vmClip point (s.mem.entries t) := by
  unfold splitAt
  rw [mem_vmObjectRef, entries_setEntries, if_pos rfl]

theorem Booked.splitAt (booked : Booked t m held s) (aligned : point % vmPageSize = 0)
    (found : vmMapLookup (s.mem.entries t) point = some e) (strict : e.vmeStart ≠ point) :
    Booked t m held (splitAt t point e s) := by
  obtain ⟨longer, names⟩ := vmClip_counts found strict
  have clipped := fun p => booked.listed.clip p aligned
  constructor
  · rw [entries_splitAt]
    unfold Space.splitAt
    rw [mem_vmObjectRef, window_setEntries]
    exact (clipped 0).1
  · rw [entries_splitAt, longer]
    unfold Space.splitAt
    rw [count_vmObjectRef]
    exact congrArg (· + 1) booked.count
  · intro o
    rw [entries_splitAt, names, add_right_comm, ← booked.refs o]
    unfold Space.splitAt
    rw [voRefs_vmObjectRef]
  · intro p page
    rw [entries_splitAt, (clipped p).2]
    exact booked.answers p page

theorem vmMapClip_booked (booked : Booked t m held s) (aligned : point % vmPageSize = 0)
    (run : vmMapClip t point s = (.ok b, s')) : Booked t m held s' ∧
      (b = true → Uncrossed point (s'.mem.entries t)) ∧ ∀ x, Uncrossed x (s.mem.entries t) →
        Uncrossed x (s'.mem.entries t) := by
  have ordered := booked.listed.ordered
  unfold vmMapClip at run
  rw [read_bind] at run
  cases found : vmMapLookup (s.mem.entries t) point with
  | none =>
    rw [found] at run
    cases run
    refine ⟨booked, fun _ e member crossed => ?_, fun x same => same⟩
    rw [vmMapLookup_eq, find_none_iff ordered] at found
    exact found e member ⟨le_of_lt crossed.1, crossed.2⟩
  | some e =>
  rw [found] at run
  dsimp only at run
  split at run
  next edge =>
    obtain ⟨rfl, rfl⟩ := pure_ok_iff.mp run
    refine ⟨booked, fun _ d member crossed => ?_, fun x same => same⟩
    have here : vmMapLookup (s'.mem.entries t) point = some d := by
      rw [vmMapLookup_eq, find_some_iff ordered]
      exact ⟨member, le_of_lt crossed.1, crossed.2⟩
    rw [found] at here
    cases here
    omega
  next strict =>
  obtain ⟨g, s₁, grant, run⟩ := bind_ok run
  obtain ⟨mem₁, given, rfl⟩ := onMemory_ok grant
  obtain ⟨g', refuse, asked⟩ := granted_run s.mem
  rw [asked] at given
  cases given
  have waited : Booked t m held { s with mem := s.mem.setRefuse refuse } := booked.congr rfl rfl rfl
  cases g with
  | false =>
    cases run
    exact ⟨waited, nofun, fun x same => same⟩
  | true =>
  obtain ⟨rfl, rfl⟩ : b = true ∧
    s' = splitAt t point e { s with mem := s.mem.setRefuse refuse } := by
    exact pure_ok_iff.mp run
  refine ⟨waited.splitAt aligned found strict, fun _ d member => ?_, fun x same d member => ?_⟩
  · rw [entries_splitAt, vmClip_eq] at member
    rcases (mem_cut ordered).mp member with ⟨-, whole⟩ | ⟨x, -, -, rfl | rfl⟩
    · exact whole
    · exact fun crossed => absurd crossed.2 (lt_irrefl point)
    · exact fun crossed => absurd crossed.1 (lt_irrefl point)
  rw [entries_splitAt, vmClip_eq] at member
  obtain ⟨y, old, lower, upper⟩ := cut_within ordered halves member
  have whole := same y old
  omega

theorem voRefs_foldl_entryFree (l : List VmMapEntry) (s : Space) (o : Nat) :
    (l.foldl entryFree s).voRefs o = s.voRefs o - naming l o := by
  induction l generalizing s with
  | nil => rfl
  | cons e l ih =>
  rw [foldl_cons, ih, voRefs_entryFree]
  unfold naming
  rw [countP_cons]
  simp only [decide_eq_true_eq]
  omega

theorem takeOut_booked {n : Nat} (booked : Booked t m held s)
    (run : takeOut t va stop s = (.ok n, s')) :
    Booked t (m.remove (s.mem.entries t) va stop) held s' := by
  obtain ⟨whole, names⟩ := remove_counts va stop (s.mem.entries t)
  have removed := fun p => booked.listed.remove va stop p
  generalize gone : Intervals.inside VmMapEntry.vmeStart VmMapEntry.vmeEnd va stop
    (s.mem.entries t) = out at whole names
  obtain rfl : s' = out.reverse.foldl entryFree { s with
      mem := s.mem.setEntries t (Vm.vmMapRemove va stop (s.mem.entries t))
      vmCount := s.vmCount - out.length } := by
    subst gone
    exact (congrArg snd run).symm
  have entries : (out.reverse.foldl entryFree { s with
      mem := s.mem.setEntries t (Vm.vmMapRemove va stop (s.mem.entries t))
      vmCount :=
        s.vmCount - out.length }).mem.entries t = Vm.vmMapRemove va stop (s.mem.entries t) := by
    rw [(foldl_entryFree _ _).1, entries_setEntries, if_pos rfl]
  constructor
  · rw [entries, (foldl_entryFree _ _).1, window_setEntries]
    exact (removed 0).1
  · rw [entries, (foldl_entryFree _ _).2]
    change s.vmCount - out.length = _
    rw [booked.count]
    omega
  · intro o
    have same : naming out.reverse o = naming out o := countP_reverse
    rw [entries, voRefs_foldl_entryFree, same]
    rw [booked.refs o, names o]
    omega
  · intro p page
    rw [entries, (removed p).2, booked.answers p page]
    rfl

theorem PageMap.remove_eq_release {es : List VmMapEntry}
    (ordered : Intervals.Ordered VmMapEntry.vmeStart VmMapEntry.vmeEnd es)
    (lower : Uncrossed va es) (upper : Uncrossed (va + size) es)
    (answers : ∀ p, p % vmPageSize = 0 → pageOf es p = m p)
    {p : Nat} (page : p % vmPageSize = 0) : m.remove es va (va + size) p = m.release va size p := by
  unfold PageMap.remove PageMap.release
  cases found : vmMapLookup es p with
  | none =>
    have bare := answers p page
    unfold pageOf at bare
    rw [found] at bare
    rw [← bare]
    exact (ite_self _).symm
  | some e =>
  rw [vmMapLookup_eq, find_some_iff ordered] at found
  obtain ⟨member, low, high⟩ := found
  have left := lower e member
  have right := upper e member
  have wide := ordered.nonempty e member
  by_cases inside : va ≤ e.vmeStart ∧ e.vmeEnd ≤ va + size
  · rw [any_some, if_pos (decide_eq_true inside), if_pos (by omega)]
  · rw [any_some, if_neg (by simpa only [decide_eq_true_eq] using inside), if_neg (by omega)]

theorem vmMapRelease_booked (booked : Booked t m held s)
    (run : vmMapRelease t va size s = (.ok b, s')) :
    Booked t (if b then m.release va size else m) held s' := by
  unfold vmMapRelease at run
  rw [read_bind] at run
  split at run
  · cases run
    exact booked
  next legal =>
  simp only [not_or, not_not, ne_eq, not_lt] at legal
  obtain ⟨-, first, pages, -, -⟩ := legal
  have last : (va + size) % vmPageSize = 0 := by
    unfold vmPageSize at *
    omega
  split at run
  · cases run
    exact booked
  next =>
  obtain ⟨b₁, s₁, lower, run⟩ := bind_ok run
  obtain ⟨booked₁, cut₁, -⟩ := vmMapClip_booked booked first lower
  cases b₁ with
  | false =>
    cases run
    exact booked₁
  | true =>
  obtain ⟨b₂, s₂, upper, run⟩ := bind_ok run
  obtain ⟨booked₂, cut₂, kept⟩ := vmMapClip_booked booked₁ last upper
  cases b₂ with
  | false =>
    -- the first cut stays, and changes no answer
    cases run
    exact booked₂
  | true =>
  obtain ⟨⟨⟩, s₃, dropped, run⟩ := bind_ok run
  obtain ⟨mem₃, dropping, rfl⟩ := onMemory_ok dropped
  have map := (dropPages_keeps (P := fun x => (x.task t).tMap = (s₂.mem.task t).tMap)
    (fun _ _ => (tMap_eraseLeaf ..).trans) (fun _ _ => id) _).ok rfl dropping
  have booked₃ : Booked t m held { s₂ with mem := mem₃ } := booked₂.congr map rfl rfl
  have entries : mem₃.entries t = s₂.mem.entries t := congrArg VmMap.vmHead map
  obtain ⟨n, s₄, taken, run⟩ := bind_ok run
  cases run
  have removed := takeOut_booked booked₃ taken
  refine ⟨removed.listed, removed.count, removed.refs, fun p page => ?_⟩
  rw [removed.answers p page]
  exact PageMap.remove_eq_release booked₃.listed.ordered (entries ▸ kept va (cut₁ rfl))
    (entries ▸ cut₂ rfl)
    booked₃.answers page

theorem vmMapReset_booked (booked : Booked t m held s) (run : vmMapReset t s = (.ok (), s')) :
    Booked t (fun _ => none) held s' := by
  obtain rfl : s' = { (s.mem.entries t).foldl entryFree s with
      mem := ((s.mem.entries t).foldl entryFree s).mem.setMap t
        { (((s.mem.entries t).foldl entryFree s).mem.task t).tMap with
          vmHead := [], vmHint := (((s.mem.entries t).foldl entryFree s).mem.task t).tMap.vmLo }
      vmCount := 0 } := (congrArg snd run).symm
  have refs := voRefs_foldl_entryFree (s.mem.entries t) s
  constructor
  · rw [entries_setMap, if_pos rfl]
    exact ⟨⟨List.Pairwise.nil, nofun⟩, nofun, nofun⟩
  · rw [entries_setMap, if_pos rfl]
    rfl
  · intro o
    rw [entries_setMap, if_pos rfl]
    change ((s.mem.entries t).foldl entryFree s).voRefs o = 0 + held o
    rw [refs o, booked.refs o]
    omega
  · intro p page
    rw [entries_setMap, if_pos rfl]
    rfl

end Space

/-! ### Whole runs -/

/-- The space with what it should be: the function from pages, and the references held elsewhere. -/
structure MapRun where
  space : Space
  pages : PageMap
  held : Nat → Nat

inductive MapCall where
  | enter (va size : Nat) (prot : Prot) (flags : VmeFlags) (obj : Option Nat) (offset : Nat)
  | release (va size : Nat)
  | remove (va size : Nat)
  | reset
  /-- Somebody else takes or drops a reference on an object. -/
  | hold (o : Nat)
  | drop (o : Nat)

namespace MapRun

open Space

/-- One call. The one who enters an object holds a reference on it; an assertion that stops the
machine has no next state. -/
def next (t : Nat) (r : MapRun) : MapCall → Option MapRun
  | .enter va size prot flags obj offset =>
    if ∀ o ∈ obj, 0 < r.held o then
      match Space.vmMapEnterBacked t va size prot flags obj offset r.space with
      | (.ok true, s) => some ⟨s, r.pages.enter va size prot flags obj offset, handOver obj r.held⟩
      | (.ok false, s) => some { r with space := s }
      | (.error _, _) => none
    else none
  | .release va size =>
    match Space.vmMapRelease t va size r.space with
    | (.ok true, s) => some { r with space := s, pages := r.pages.release va size }
    | (.ok false, s) => some { r with space := s }
    | (.error _, _) => none
  | .remove va size =>
    match Space.vmMapRemove t va size r.space with
    | (.ok _, s) => some { r with space := s
                                  pages := if size = 0 then r.pages
                                           else r.pages.remove (r.space.mem.entries t) va
                                             ((va + size) % 2 ^ 64) }
    | (.error _, _) => none
  | .reset =>
    match Space.vmMapReset t r.space with
    | (.ok _, s) => some { r with space := s, pages := fun _ => none }
    | (.error _, _) => none
  | .hold o =>
    some { r with space := vmObjectRef (some o) r.space, held := update r.held o (r.held o + 1) }
  | .drop o =>
    if 0 < r.held o then
      some { r with
        space := vmObjectDeref (some o) r.space, held := update r.held o (r.held o - 1) }
    else none

def Right (t : Nat) (r : MapRun) : Prop := Booked t r.pages r.held r.space

theorem next_right {t : Nat} {r r' : MapRun} {c : MapCall} (right : r.Right t)
    (step : r.next t c = some r') : r'.Right t := by
  unfold Right at right ⊢
  cases c with
  | enter va size prot flags obj offset =>
    rw [next] at step
    split at step
    next owed =>
      split at step
      next s run =>
        cases step
        exact enterBacked_booked right (fun o mine => owed o mine) run
      next s run =>
        cases step
        exact enterBacked_booked right (fun o mine => owed o mine) run
      · cases step
    · cases step
  | release va size =>
    rw [next] at step
    split at step
    next s run =>
      cases step
      exact vmMapRelease_booked right run
    next s run =>
      cases step
      exact vmMapRelease_booked right run
    · cases step
  | remove va size =>
    rw [next] at step
    split at step
    next n s run =>
      cases step
      unfold Space.vmMapRemove at run
      split at run
      next nothing =>
        cases run
        rw [if_pos nothing]
        exact right
      next sized =>
        rw [if_neg sized]
        exact takeOut_booked right run
    · cases step
  | reset =>
    rw [next] at step
    split at step
    next s run =>
      cases step
      exact vmMapReset_booked right run
    · cases step
  | hold o =>
    cases step
    refine ⟨right.listed, right.count, fun o' => ?_, right.answers⟩
    have refs := right.refs o'
    change update r.space.voRefs o (r.space.voRefs o + 1) o' = _ + update r.held o (r.held o + 1) o'
    by_cases same : o' = o
    · subst same
      rw [update_self, update_self, refs]
      exact add_assoc ..
    · rw [update_of_ne same, update_of_ne same]
      exact refs
  | drop o =>
  rw [next] at step
  split at step
  next positive =>
    cases step
    refine ⟨right.listed, right.count, fun o' => ?_, right.answers⟩
    have refs := right.refs o'
    change update r.space.voRefs o (r.space.voRefs o - 1) o' = _ + update r.held o (r.held o - 1) o'
    by_cases same : o' = o
    · subst same
      rw [update_self, update_self, refs]
      exact Nat.add_sub_assoc positive _
    · rw [update_of_ne same, update_of_ne same]
      exact refs
  · cases step

/-- A map just made: no entries, and objects held by others only. -/
structure Fresh (t : Nat) (r : MapRun) : Prop where
  entries : r.space.mem.entries t = []
  count : r.space.vmCount = 0
  refs : r.space.voRefs = r.held
  pages : r.pages = fun _ => none

theorem Fresh.right {t : Nat} {r : MapRun} (fresh : r.Fresh t) : r.Right t := by
  constructor
  · rw [fresh.entries]
    exact ⟨⟨List.Pairwise.nil, nofun⟩, nofun, nofun⟩
  · rw [fresh.entries]
    exact fresh.count
  · intro o
    rw [fresh.entries, fresh.refs]
    exact (zero_add _).symm
  · intro p page
    rw [fresh.entries, fresh.pages]
    rfl

/-- Whatever is entered, released, removed and reset: the entries are in order, apart, on page
boundaries and inside the window, they are counted, every address is answered as the function from
pages says, and an object has one reference for each entry that names it and for each holder
elsewhere. -/
theorem map_is_interval_map (t : Nat) (r₀ r : MapRun) (fresh : r₀.Fresh t)
    (run : Runs (next t) (fun _ _ _ => True) r₀ r) :
    Listed (r.space.mem.task t).tMap.vmLo (r.space.mem.task t).tMap.vmHi (r.space.mem.entries t) ∧
      r.space.vmCount = (r.space.mem.entries t).length ∧
      (∀ va, (vmMapLookup (r.space.mem.entries t) va).map (fun e => e.page (vmAlignDown va)) =
        r.pages (vmAlignDown va)) ∧
      ∀ o, r.space.voRefs o = naming (r.space.mem.entries t) o + r.held o := by
  have right := run.invariant (P := Right t) fresh.right fun _ _ _ right step _ =>
    next_right right step
  refine ⟨right.listed, right.count, fun va => ?_, right.refs⟩
  have page := right.answers (vmAlignDown va) (vmAlignDown_mod va)
  rw [← page]
  unfold pageOf
  -- an entry on page boundaries covers an address if it covers its page
  have same : vmMapLookup (r.space.mem.entries t) va =
      vmMapLookup (r.space.mem.entries t) (vmAlignDown va) := by
    ext e
    rw [vmMapLookup_eq, vmMapLookup_eq, find_some_iff right.listed.ordered,
      find_some_iff right.listed.ordered]
    refine and_congr_right fun member => ?_
    obtain ⟨first, last⟩ := right.listed.aligned e member
    unfold vmAlignDown vmPageSize at *
    omega
  rw [same]

def bareRun : MapRun where
  space :=
    { mem := { pmm := { managed := 2, used := fun _ => true, refs := fun _ => 0, hint := 0 }
               ram := fun _ _ => 0
               tasks := ∅
               objects := fun _ _ => 0
               refuse := [] }
      vmCount := 0
      voRefs := fun _ => 0 }
  pages := fun _ => none
  held := fun _ => 0

/-- Three pages of a file, and the middle one unmapped. -/
def holeCalls : List MapCall :=
  [.hold 7, .enter 0x40000000 0x3000 ⟨true, true, false, true⟩ ⟨true, false, true⟩ (some 7) 0x10000,
    .release 0x40001000 0x1000]

theorem map_is_interval_map_hole : ∃ r : MapRun,
    Runs (next 1) (fun _ _ _ => True) bareRun r ∧ r.space.vmCount = 2 ∧ r.space.voRefs 7 = 2 ∧
    r.pages 0x40001000 = none ∧
    (vmMapLookup (r.space.mem.entries 1) 0x40002345).map (fun e => e.page 0x40002000) =
      some ⟨⟨true, true, false, true⟩, ⟨true, false, true⟩, some 7, 0x12000⟩ := by
  obtain ⟨r, run, count, refs, hole, last⟩ : ∃ r, Runs (next 1) (fun _ _ _ => True) bareRun r ∧
      r.space.vmCount = 2 ∧ r.space.voRefs 7 = 2 ∧ r.pages 0x40001000 = none ∧
      r.pages 0x40002000 = some ⟨⟨true, true, false, true⟩, ⟨true, false, true⟩, some 7, 0x12000⟩ :=
    Runs.exists_of_follow holeCalls (by decide +kernel)
  obtain ⟨-, -, answers, -⟩ := map_is_interval_map 1 bareRun r ⟨rfl, rfl, rfl, rfl⟩ run
  refine ⟨r, run, count, refs, hole, ?_⟩
  rw [← last]
  exact answers 0x40002345

end MapRun

end Style9.Vm
