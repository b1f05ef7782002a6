import Style9.Vm.Image

/-!
# The sections of a fault, a release and a capture

`vm_map_release` checks and cuts under the lock of the map, unmaps page by page without it, and
takes the entries out under the lock again; a fault has its own two sections under the lock, with
the slow part between. The calls of the threads of one task are cut into steps here: what is done
to a page table, to the entries and to an owner count is a step each, and a thread inside the lock
keeps others out of it but not the unmapping.
-/
namespace Style9.Vm

open Style9.Lib Memory Act

/-! ### The calls, step by step -/

/-- Where a `vm_fault` is: the frame it found, the frame it took, and what the entry permits. -/
inductive FaultStage where
  | looking
  | counting (old : Frame) (prot : Prot)
  | stealing (old : Frame) (prot : Prot)
  | copying (old : Frame)
  | copied (old pa : Frame)
  | replacing (old pa : Frame) (prot : Prot)
  | filling (obj : Option Nat) (off : Nat)
  | filled (pa : Frame)
  | installing (pa : Frame) (prot : Prot)
  | dropping (f : Frame) (result : VmFault)
  | done (result : VmFault)

/-- Where a `vm_map_release` is: at the check, at a page of the range, or back. -/
inductive ReleaseStage where
  | checking
  | unmapping (v : Nat)
  | pulling (v : Nat) (pa : Frame)
  | dropping (v : Nat) (pa : Frame)
  | done (ok : Bool)

/-- Where a `vm_pages_capture_user` is: the pages still to share, the frames taken, the page and the
frame in hand. -/
inductive CaptureStage where
  | claiming
  | sharing (e : VmMapEntry) (pages : List Nat) (taken : List (Option Frame))
  | referencing (e : VmMapEntry) (page : Nat) (pages : List Nat) (taken : List (Option Frame))
      (pa : Frame)
  | protecting (e : VmMapEntry) (page : Nat) (pages : List Nat) (taken : List (Option Frame))
      (pa : Frame)
  | unsharing (e : VmMapEntry) (pages : List Nat) (taken : List (Option Frame)) (pa : Frame)
  | copying (taken : List Frame) (rest : List (Option Frame))
  | undoing (frames : List (Option Frame))
  | done (frames : Option (List Frame))

/-- The first section of `vm_fault`, the slow part and the second section. -/
def FaultStage.act (t page : Nat) (write : Bool) : FaultStage → Op FaultStage
  | .looking => do
    match vmMapLookup (← read fun s => s.entries t) page with
    | none => pure (.done .noMap)
    | some e =>
      if !(e.vmeProt.read || e.vmeProt.write || e.vmeProt.exec) || (write && !e.vmeProt.write) then
        pure (.done .prot)
      else
        match ← read fun s => s.leaf t page with
        | some old =>
          if !write || !e.vmeFlags.cow then pure (.done .prot)
          else if !e.vmeFlags.anon then fail .cowBorrowed
          else pure (.counting old.pa e.vmeProt)
        | none =>
          if !e.vmeFlags.lazy then pure (.done .noMap)
          else pure (.filling e.vmeObject (e.vmeOffset + (page - e.vmeStart)))
  | .counting old prot => do
    if (← read fun s => s.pmm.refs old) = 1 then pure (.stealing old prot) else pure (.copying old)
  | .stealing old prot => do
    if ← pmapEnter t page ⟨old, prot⟩ then pure (.done .ok) else pure (.done .noMem)
  | .copying old => do
    match ← pmmAllocPage with
    | none => pure (.done .noMem)
    | some pa => do
      modify fun s => s.fill pa (s.ram old)
      pure (.copied old pa)
  | .copied old pa => do
    match vmMapLookup (← read fun s => s.entries t) page with
    | none => pure (.dropping pa .ok)
    | some e => do
      if (← read fun s => (s.leaf t page).map Leaf.pa) = some old
        then pure (.replacing old pa e.vmeProt)
      else pure (.dropping pa .ok)
  | .replacing old pa prot => do
    if ← pmapEnter t page ⟨pa, prot⟩ then pure (.dropping old .ok) else pure (.dropping pa .noMem)
  | .filling obj off => do
    match ← pmmAllocPage with
    | none => pure (.done .noMem)
    | some pa => do
      if ← pageIn obj then do
        modify fun s => s.fill pa fun i => match obj with
          | none => 0
          | some o => s.objects o (off + i)
        pure (.filled pa)
      else pure (.dropping pa .io)
  | .filled pa => do
    match vmMapLookup (← read fun s => s.entries t) page with
    | none => pure (.dropping pa .noMap)
    | some e =>
      if !e.vmeFlags.lazy then pure (.dropping pa .noMap)
      else if (← read fun s => s.leaf t page).isSome then pure (.dropping pa .ok)
      else pure (.installing pa e.vmeProt)
  | .installing pa prot => do
    if ← pmapEnter t page ⟨pa, prot⟩ then pure (.done .ok) else pure (.dropping pa .noMem)
  | .dropping f result => do
    pmmFreePage f
    pure (.done result)
  | .done result => pure (.done result)

def ReleaseStage.act (t va size : Nat) : ReleaseStage → Op ReleaseStage
  | .checking => do
    let m ← read fun s => (s.task t).tMap
    if size = 0 ∨ va % vmPageSize ≠ 0 ∨ size % vmPageSize ≠ 0 ∨ va < m.vmLo ∨
      m.vmHi < va + size then
      pure (.done false)
    else if vmCovered (va + size) va m.vmHead < va + size then pure (.done false)
    else if !(← vmMapClip t va) then pure (.done false)
    else if !(← vmMapClip t (va + size)) then pure (.done false)
    else pure (.unmapping va)
  | .unmapping v =>
    if v < va + size then do
      match ← read fun s => s.leaf t v with
      | none => pure (.unmapping (v + vmPageSize))
      | some l => pure (.pulling v l.pa)
    else do
      modify fun s => s.setEntries t (vmMapRemove va (va + size) (s.entries t))
      pure (.done true)
  | .pulling v pa => do
    pmapRemove t v
    pure (.dropping v pa)
  | .dropping v pa => do
    pmmFreePage pa
    pure (.unmapping (v + vmPageSize))
  | .done ok => pure (.done ok)

/-- The two passes of `vm_pages_capture_user`. A page that the second pass has to fault in is
brought in by a `vm_fault` of its own. -/
def CaptureStage.act (t addr size maxPages : Nat) : CaptureStage → Op CaptureStage
  | .claiming => do
    let npages := vmAlignUp size / vmPageSize
    if size = 0 ∨ maxPages < npages then pure (.done none)
    else do
      match captureFrom (← read fun s => s.entries t) addr npages with
      | none => pure (.copying [] (List.replicate npages none))
      | some e => pure (.sharing e (vmPages addr (addr + size / vmPageSize * vmPageSize)) [])
  | .sharing e [] taken => do
    if e.vmeProt.write && taken.any Option.isSome then
      modify fun s => s.setEntries t (vmMarkCow e.vmeStart (s.entries t))
    pure (.copying [] (taken ++ List.replicate (vmAlignUp size / vmPageSize - size / vmPageSize)
      none))
  | .sharing e (page :: pages) taken => do
    match ← read fun s => s.leaf t page with
    | none => pure (.sharing e pages (taken ++ [none]))
    | some l => pure (.referencing e page pages taken l.pa)
  | .referencing e page pages taken pa => do
    pmmPageRef pa
    pure (.protecting e page pages taken pa)
  | .protecting e page pages taken pa =>
    if e.vmeProt.write then do
      if ← pmapEnter t page ⟨pa, e.vmeProt.noWrite⟩
        then pure (.sharing e pages (taken ++ [some pa]))
      else pure (.unsharing e pages taken pa)
    else pure (.sharing e pages (taken ++ [some pa]))
  | .unsharing e pages taken pa => do
    pmmFreePage pa
    pure (.sharing e pages (taken ++ [none]))
  | .copying taken [] => pure (.done (some taken))
  | .copying taken (some f :: rest) => pure (.copying (taken ++ [f]) rest)
  | .copying taken (none :: rest) => do
    match ← pmmAllocPage with
    | none => pure (.undoing (taken.map some ++ rest))
    | some pa => do
      modify fun s => s.fill pa fun i =>
        if taken.length * vmPageSize + i < size
          then s.loaded t (addr + taken.length * vmPageSize + i) else 0
      pure (.copying (taken ++ [pa]) rest)
  | .undoing [] => pure (.done none)
  | .undoing (none :: rest) => pure (.undoing rest)
  | .undoing (some f :: rest) => do
    pmmFreePage f
    pure (.undoing rest)
  | .done frames => pure (.done frames)

/-- A call of one thread. A fault is at the page of its address. -/
inductive VmWork where
  | fault (page : Nat) (write : Bool) (stage : FaultStage)
  | release (va size : Nat) (stage : ReleaseStage)
  | capture (addr size maxPages : Nat) (stage : CaptureStage)

namespace VmWork

def act (t : Nat) : VmWork → Op VmWork
  | .fault page write stage => do
    pure (.fault page write (← stage.act t page write))
  | .release va size stage => do
    pure (.release va size (← stage.act t va size))
  | .capture addr size maxPages stage => do
    pure (.capture addr size maxPages (← stage.act t addr size maxPages))

def returned : VmWork → Bool
  | .fault _ _ (.done _) | .release _ _ (.done _) | .capture _ _ _ (.done _) => true
  | _ => false

/-- The step begins with taking the lock of the map. -/
def wants : VmWork → Bool
  | .fault _ _ .looking | .fault _ _ (.copied _ _) | .fault _ _ (.filled _) => true
  | .release _ _ .checking => true
  | .release va size (.unmapping v) => decide (va + size ≤ v)
  | .capture addr _ _ .claiming => decide (addr % vmPageSize = 0)
  | _ => false

/-- The call is inside the lock. -/
def locked : VmWork → Bool
  | .fault _ _ (.counting _ _) | .fault _ _ (.stealing _ _) => true
  | .fault _ _ (.replacing _ _ _) | .fault _ _ (.installing _ _) => true
  | .capture _ _ _ (.sharing _ _ _) | .capture _ _ _ (.referencing _ _ _ _ _) => true
  | .capture _ _ _ (.protecting _ _ _ _ _) | .capture _ _ _ (.unsharing _ _ _ _) => true
  | _ => false

/-- The addresses a call acts on: the page found under the lock, or the range from the check on
until its entries are gone. -/
def region : VmWork → Nat × Nat
  | .fault page _ (.counting _ _) | .fault page _ (.stealing _ _) => (page, page + 1)
  | .fault page _ (.replacing _ _ _) | .fault page _ (.installing _ _) => (page, page + 1)
  | .capture _ _ _ (.referencing _ page _ _ _) | .capture _ _ _ (.protecting _ page _ _ _) =>
    (page, page + 1)
  | .release va size (.unmapping _) | .release va size (.pulling _ _) => (va, va + size)
  | .release va size (.dropping _ _) => (va, va + size)
  | _ => (0, 0)

/-- The frames a call has a share in. A payload that was captured is the message's from then on. -/
def hand : VmWork → Multiset Frame
  | .fault _ _ (.copied _ pa) | .fault _ _ (.replacing _ pa _) => {pa}
  | .fault _ _ (.filled pa) | .fault _ _ (.installing pa _) | .fault _ _ (.dropping pa _) => {pa}
  | .release _ _ (.dropping _ pa) => {pa}
  | .capture _ _ _ (.sharing _ _ taken) | .capture _ _ _ (.referencing _ _ _ taken _) =>
    taken.reduceOption
  | .capture _ _ _ (.protecting _ _ _ taken pa) | .capture _ _ _ (.unsharing _ _ taken pa) =>
    pa ::ₘ taken.reduceOption
  | .capture _ _ _ (.copying taken rest) => (taken : Multiset Frame) + rest.reduceOption
  | .capture _ _ _ (.undoing frames) => frames.reduceOption
  | .capture _ _ _ (.done (some frames)) => frames
  | _ => 0

end VmWork

/-- Memory, and whether the lock of the map is taken. -/
structure VmShared where
  mem : Memory
  lock : Bool

/-- A step of a call that has not returned. It waits for the lock where the code takes it; a failed
assertion has no next state. -/
def VmWork.step (t : Nat) (s : VmShared) (c : VmWork) : Option (VmShared × VmWork) :=
  if c.returned || (c.wants && s.lock) then none
  else
    match c.act t s.mem with
    | (.ok c', m) => some (⟨m, if c.wants || c.locked then c'.locked else s.lock⟩, c')
    | (.error _, _) => none

/-! ### What a step does to page tables and entries -/

variable {m m' : Memory} {t page va size : Nat} {write : Bool} {c d : VmWork}
  {held rest : Multiset Frame} {old pa : Frame}
  {prot : Prot} {e : VmMapEntry} {l : Leaf}

def VmWork.Acts (c : VmWork) (a : Nat) : Prop := c.region.1 ≤ a ∧ a < c.region.2

/-- Leaves change where the call acts, and entries under the lock: an address keeps what its entry
says, or loses the entry if the call acts there. -/
structure Effect (t : Nat) (c : VmWork) (m m' : Memory) : Prop where
  leaf : ∀ x a, ¬ (x = t ∧ c.Acts a) → m'.leaf x a = m.leaf x a
  entries : c.wants = false → c.locked = false → m'.entries t = m.entries t
  back : ∀ a e', vmMapLookup (m'.entries t) a = some e' →
    ∃ e, vmMapLookup (m.entries t) a = some e ∧ Alike a e e'
  forth : ∀ a e, ¬ c.Acts a → vmMapLookup (m.entries t) a = some e →
    ∃ e', vmMapLookup (m'.entries t) a = some e' ∧ Alike a e e'
  cuts : ∀ a, Cut a (m.entries t) → Cut a (m'.entries t)

theorem Effect.of_entries (leaf : ∀ x a, ¬ (x = t ∧ c.Acts a) → m'.leaf x a = m.leaf x a)
    (entries : m'.entries t = m.entries t) : Effect t c m m' where
  leaf := leaf
  entries _ _ := entries
  back a e' found := ⟨e', entries ▸ found, .refl a e'⟩
  forth a e _ found := ⟨e, entries.symm ▸ found, .refl a e⟩
  cuts _ cut := entries.symm ▸ cut

theorem Effect.quiet (leaf : ∀ x a, m'.leaf x a = m.leaf x a)
    (entries : m'.entries t = m.entries t) : Effect t c m m' :=
  .of_entries (fun x a _ => leaf x a) entries

theorem Effect.refl : Effect t c m m := .quiet (fun _ _ => rfl) rfl

theorem Effect.setLeaf {r : List Bool} (acts : c.Acts va) :
    Effect t c m ((m.setRefuse r).setLeaf t va l) := by
  refine .of_entries (fun x a other => ?_) (entries_setLeaf ..)
  rw [leaf_setLeaf, if_neg]
  · rfl
  · rintro ⟨rfl, rfl⟩
    exact other ⟨rfl, acts⟩

theorem Effect.eraseLeaf (acts : c.Acts va) : Effect t c m (m.eraseLeaf t va) := by
  refine .of_entries (fun x a other => ?_) (entries_eraseLeaf ..)
  rw [leaf_eraseLeaf, if_neg]
  rintro ⟨rfl, rfl⟩
  exact other ⟨rfl, acts⟩

/-- Entries cut or marked, under the lock. -/
structure Reshaped (t : Nat) (m m' : Memory) : Prop where
  pmm : m'.pmm = m.pmm
  mapped : m'.mapped = m.mapped
  leaf : ∀ x a, m'.leaf x a = m.leaf x a
  others : ∀ x ≠ t, m'.entries x = m.entries x
  ranges : Ranges (m'.entries t)
  alike : AlikeAll (m.entries t) (m'.entries t)
  cuts : ∀ a, Cut a (m.entries t) → Cut a (m'.entries t)

theorem Reshaped.refl (ranges : Ranges (m.entries t)) : Reshaped t m m :=
  ⟨rfl, rfl, fun _ _ => rfl, fun _ _ => rfl, ranges, .refl _, fun _ => id⟩

theorem Reshaped.trans {m'' : Memory} (first : Reshaped t m m') (second : Reshaped t m' m'') :
    Reshaped t m m'' where
  pmm := second.pmm.trans first.pmm
  mapped := second.mapped.trans first.mapped
  leaf x a := (second.leaf x a).trans (first.leaf x a)
  others x other := (second.others x other).trans (first.others x other)
  ranges := second.ranges
  alike := first.alike.trans second.alike
  cuts a cut := second.cuts a (first.cuts a cut)

theorem Reshaped.setEntries {es : List VmMapEntry} {r : List Bool} (ranges : Ranges es)
    (alike : AlikeAll (m.entries t) es)
    (cuts : ∀ a, Cut a (m.entries t) → Cut a es) :
    Reshaped t m ((m.setRefuse r).setEntries t es) := by
  have entries : ((m.setRefuse r).setEntries t es).entries t = es := by
    rw [entries_setEntries, if_pos rfl]
  refine ⟨rfl, mapped_setEntries .., fun _ _ => leaf_setEntries .., fun x other => ?_, ?_, ?_, ?_⟩
  · rw [entries_setEntries, if_neg other]
    rfl
  all_goals rw [entries]; assumption

theorem Reshaped.owned (reshaped : Reshaped t m m') (owned : Owned m held) : Owned m' held := by
  refine (owned.setEntries (t := t) reshaped.ranges fun a l _ => reshaped.alike a).congr
    reshaped.pmm ?_ (fun x a => ?_)
    fun x => ?_
  · rw [reshaped.mapped, mapped_setEntries]
  · rw [reshaped.leaf, leaf_setEntries]
  rw [entries_setEntries]
  split
  next same => rw [same]
  next other => exact reshaped.others x other

theorem Reshaped.effect (reshaped : Reshaped t m m') (inside : c.wants = true ∨ c.locked = true) :
    Effect t c m m' where
  leaf x a _ := reshaped.leaf x a
  entries wants locked := by
    rw [wants, locked] at inside
    rcases inside with no | no <;> cases no
  back a e' found := reshaped.alike.back found
  forth a e _ found := reshaped.alike.some found
  cuts := reshaped.cuts

theorem vmMapClip_reshapes {point : Nat} (ranges : Ranges (m.entries t))
    (aligned : point % vmPageSize = 0) :
    ∃ b m', vmMapClip t point m = (.ok b, m') ∧ Reshaped t m m' ∧
      (b = true → Cut point (m'.entries t)) := by
  obtain ⟨b, m', run, refuse, ⟨rfl, cut⟩ | ⟨-, rfl⟩⟩ := vmMapClip_result point ranges
  · exact ⟨b, _, run, ⟨rfl, rfl, fun _ _ => rfl, fun _ _ => rfl, ranges, .refl _, fun _ => id⟩, cut⟩
  · refine ⟨b, _, run, .setEntries (ranges.clip aligned) (.clip ranges aligned) fun a cut =>
      cut.clip ranges, fun _ => ?_⟩
    rw [entries_setEntries, if_pos rfl]
    exact cut_vmClip ranges

end Style9.Vm
