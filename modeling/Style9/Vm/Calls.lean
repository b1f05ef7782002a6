import Style9.Vm.Types

/-!
# The calls on an address space

Frames, page tables and entries as the calls change them: faults, fork, the payloads of pages
that messages carry, and the two ways a range goes away. A call runs with the task's only thread
in it, so it is one step; what may be refused (a page table, an entry, a page-in) is read off the
state, and an assertion stops the machine.
-/
namespace Style9.Vm

open Style9.Lib Function Act

/-! ### The state, one field at a time -/

variable (s : Memory)

variable (t : Nat)

def Memory.task : Task := (s.tasks.lookup t).getD default

def Memory.leaf (t va : Nat) : Option Leaf := (s.task t).tPmap.lookup va

def Memory.entries : List VmMapEntry := (s.task t).tMap.vmHead

def Memory.setTask (task : Task) : Memory :=
  { s with tasks := s.tasks.insert t task }

def Memory.setMap (m : VmMap) : Memory :=
  s.setTask t { s.task t with tMap := m }

def Memory.setEntries (entries : List VmMapEntry) : Memory :=
  s.setMap t { (s.task t).tMap with vmHead := entries }

def Memory.setLeaf (t va : Nat) (l : Leaf) : Memory :=
  s.setTask t { s.task t with tPmap := (s.task t).tPmap.insert va l }

def Memory.eraseLeaf (t va : Nat) : Memory :=
  s.setTask t { s.task t with tPmap := (s.task t).tPmap.erase va }

variable (p : Pmm) (f : Frame)

def Memory.fill (page : Nat → Byte) : Memory :=
  { s with ram := update s.ram f page }

def Memory.setPmm : Memory := { s with pmm := p }

/-- Whether the next allocation or page-in is granted. -/
def granted : Op Bool := fun s =>
  match s.refuse with
  | true :: rest => (.ok false, { s with refuse := rest })
  | _ :: rest => (.ok true, { s with refuse := rest })
  | [] => (.ok true, s)

/-! ### Frames -/

/-- The frames `pmm_alloc_page` looks at, in its order. -/
def Pmm.order : List Frame :=
  (List.range p.managed).map fun i =>
    if p.managed ≤ p.hint + i then p.hint + i - p.managed else p.hint + i

/-- `pmm_alloc_page`: the first free frame from the hint on, with one owner. -/
def Pmm.alloc : Pmm :=
  { p with
    used := update p.used f true
    refs := update p.refs f 1
    hint := if p.managed ≤ f + 1 then 0 else f + 1 }

def pmmAllocPage : Op (Option Frame) := fun s =>
  match s.pmm.order.find? fun f => !s.pmm.used f with
  | none => (.ok none, s)
  | some f => (.ok (some f), s.setPmm (s.pmm.alloc f))

/-- One owner less; with the last one the frame is free. -/
def Pmm.free : Pmm :=
  if p.refs f - 1 = 0 then
    { p with
      used := update p.used f false
      refs := update p.refs f 0
      hint := if f < p.hint then f else p.hint }
  else { p with refs := update p.refs f (p.refs f - 1) }

def pmmFreePage : Op Unit := fun s =>
  if !s.pmm.used f then (.error .pmmFreeDouble, s)
  else if s.pmm.refs f = 0 then (.error .pmmFreeReserved, s)
  else (.ok (), s.setPmm (s.pmm.free f))

def Pmm.ref : Pmm :=
  { p with refs := update p.refs f (p.refs f + 1) }

def pmmPageRef : Op Unit := fun s =>
  if !s.pmm.used f ∨ s.pmm.refs f = 0 then (.error .pmmRefNotAllocated, s)
  else if s.pmm.refs f = 0xFFFF then (.error .pmmRefWrap, s)
  else (.ok (), s.setPmm (s.pmm.ref f))

/-! ### Page tables and entries -/

/-- `pmap_enter`: a leaf already there is rewritten, a new one may need a page table. -/
def pmapEnter (t va : Nat) (l : Leaf) : Op Bool := fun s =>
  if (s.leaf t va).isSome then (.ok true, s.setLeaf t va l)
  else
    match granted s with
    | (.ok true, s) => (.ok true, s.setLeaf t va l)
    | (_, s) => (.ok false, s)

def pmapRemove (t va : Nat) : Op Unit := modify fun s => s.eraseLeaf t va

def vmMapEnterBacked (t va size : Nat) (prot : Prot) (flags : VmeFlags) (obj : Option Nat)
    (offset : Nat) : Op Bool := do
  let m ← read fun s => (s.task t).tMap
  if size = 0 ∨ va % vmPageSize ≠ 0 ∨ size % vmPageSize ≠ 0 ∨ va < m.vmLo ∨ m.vmHi < va + size then
    pure false
  else if !(← granted) then pure false
  else if !vmRangeFree va (va + size) m.vmHead then pure false
  else do
    modify fun s => s.setEntries t (vmEntryInsert
      { vmeStart := va, vmeEnd := va + size, vmeOffset := offset, vmeObject := obj, vmeProt := prot,
        vmeFlags := flags } m.vmHead)
    pure true

/-- `vm_map_clip_locked`, with the split it calls. -/
def vmMapClip (t point : Nat) : Op Bool := do
  let entries ← read fun s => s.entries t
  match vmMapLookup entries point with
  | none => pure true
  | some e =>
    if e.vmeStart = point then pure true
    else if !(← granted) then pure false
    else do
      modify fun s => s.setEntries t (vmClip point entries)
      pure true

/-- The two searches of `vm_map_find_space`: from the hint, then from the floor. -/
def vmSpace (m : VmMap) (size : Nat) : Option Nat :=
  match vmHole m size m.vmHint with
  | some va => some va
  | none => if m.vmLo < m.vmHint then vmHole m size m.vmLo else none

def vmMapFindSpace (t size : Nat) : Op (Option Nat) := do
  let m ← read fun s => (s.task t).tMap
  match vmSpace m (vmAlignUp size) with
  | none => pure none
  | some va => do
    modify fun s => s.setMap t { m with vmHint := va + vmAlignUp size }
    pure (some va)

/-! ### Dropping pages -/

/-- The body of the release loops: unmap a present page and drop its owner. -/
def dropPage (t va : Nat) : Op Unit := do
  match ← read fun s => s.leaf t va with
  | none => pure ()
  | some l => do
    pmapRemove t va
    pmmFreePage l.pa

def dropPages (t : Nat) : List Nat → Op Unit
  | [] => pure ()
  | va :: rest => do
    dropPage t va
    dropPages t rest

def releaseEntries (t : Nat) : List VmMapEntry → Op Unit
  | [] => pure ()
  | e :: rest => do
    if e.vmeFlags.anon then dropPages t (vmPages e.vmeStart e.vmeEnd)
    releaseEntries t rest

def vmMapReleaseAnon : Op Unit := do
  releaseEntries t (← read fun s => s.entries t)

/-- What `task_deref` does to the address space of a task that is gone: the owned frames, then
the page tables and the map. -/
def taskDestroy : Op Unit := do
  vmMapReleaseAnon t
  modify fun s => { s with tasks := s.tasks.erase t }

def vmMapRelease (t va size : Nat) : Op Bool := do
  let m ← read fun s => (s.task t).tMap
  if size = 0 ∨ va % vmPageSize ≠ 0 ∨ size % vmPageSize ≠ 0 ∨ va < m.vmLo ∨ m.vmHi < va + size then
    pure false
  else if vmCovered (va + size) va m.vmHead < va + size then pure false
  else if !(← vmMapClip t va) then pure false
  else if !(← vmMapClip t (va + size)) then pure false
  else do
    dropPages t (vmPages va (va + size))
    modify fun s => s.setEntries t (vmMapRemove va (va + size) (s.entries t))
    pure true

/-! ### Faults -/

/-- `VM_FAULT_*`. -/
inductive VmFault where
  | ok
  | noMap
  | prot
  | noMem
  | io
  deriving DecidableEq

/-- A byte of what backs an entry: the object's, or zero. -/
def Memory.backing (e : VmMapEntry) (va : Nat) : Byte :=
  match e.vmeObject with
  | none => 0
  | some o => s.objects o (e.vmeOffset + (va - e.vmeStart))

/-- The copy-on-write half of `vm_fault`: a store to a present page without the write bit. The
second look under the lock finds the leaf of the first, the task having one thread. -/
def vmFaultCow (t page : Nat) (e : VmMapEntry) (old : Leaf) : Op VmFault := do
  if !e.vmeFlags.anon then fail .cowBorrowed
  else if (← read fun s => s.pmm.refs old.pa) = 1 then
    pure (if ← pmapEnter t page ⟨old.pa, e.vmeProt⟩ then .ok else .noMem)
  else do
    match ← pmmAllocPage with
    | none => pure .noMem
    | some pa => do
      modify fun s => s.fill pa (s.ram old.pa)
      if ← pmapEnter t page ⟨pa, e.vmeProt⟩ then do
        pmmFreePage old.pa
        pure .ok
      else do
        pmmFreePage pa
        pure .noMem

/-- Whether the pager delivers; an anonymous page has nothing to read. -/
def pageIn (obj : Option Nat) : Op Bool := if obj.isSome then granted else pure true

/-- The filling half of `vm_fault`: a page promised and not yet there. -/
def vmFaultFill (t page : Nat) (e : VmMapEntry) : Op VmFault := do
  match ← pmmAllocPage with
  | none => pure .noMem
  | some pa => do
    if !(← pageIn e.vmeObject) then do
      pmmFreePage pa
      pure .io
    else do
      modify fun s => s.fill pa fun i => s.backing e (page + i)
      if ← pmapEnter t page ⟨pa, e.vmeProt⟩ then pure .ok
      else do
        pmmFreePage pa
        pure .noMem

def vmFault (t va : Nat) (write : Bool) : Op VmFault := do
  let page := vmAlignDown va
  match vmMapLookup (← read fun s => s.entries t) page with
  | none => pure .noMap
  | some e =>
    if !(e.vmeProt.read || e.vmeProt.write || e.vmeProt.exec) || (write && !e.vmeProt.write) then
      pure .prot
    else
      match ← read fun s => s.leaf t page with
      | some old => if !write || !e.vmeFlags.cow then pure .prot else vmFaultCow t page e old
      | none => if !e.vmeFlags.lazy then pure .noMap else vmFaultFill t page e

/-- A user store of one byte: it lands through a writable leaf, or faults and changes nothing. -/
def userStore (t va : Nat) (b : Byte) : Op Bool := do
  match ← read fun s => s.leaf t (vmAlignDown va) with
  | none => pure false
  | some l =>
    if l.prot.write && l.prot.user then do
      modify fun s => s.fill l.pa (update (s.ram l.pa) (va % vmPageSize) b)
      pure true
    else pure false

/-! ### Fork -/

def Prot.noWrite (p : Prot) : Prot := { p with write := false }

/-- Frames under a borrowed range were never allocated: only owned ones are counted. -/
def refOwned (owned : Bool) (f : Frame) : Op Unit := if owned then pmmPageRef f else pure ()

def freeOwned (owned : Bool) (f : Frame) : Op Unit := if owned then pmmFreePage f else pure ()

/-- The page loop of `vm_map_fork_share`. -/
def shareLeaf (src dst : Nat) (owned writable : Bool) (prot : Prot) (va : Nat) : Op Bool := do
  match ← read fun s => s.leaf src va with
  | none => pure true
  | some l => do
    refOwned owned l.pa
    if ← pmapEnter dst va ⟨l.pa, prot⟩ then
      if writable then pmapEnter src va ⟨l.pa, prot⟩ else pure true
    else do
      freeOwned owned l.pa
      pure false

def shareLeaves (src dst : Nat) (owned writable : Bool) (prot : Prot) : List Nat → Op Bool
  | [] => pure true
  | va :: rest => do
    if ← shareLeaf src dst owned writable prot va then
      shareLeaves src dst owned writable prot rest
    else pure false

/-- The entry under an address marked copy-on-write. -/
def vmMarkCow (start : Nat) (entries : List VmMapEntry) : List VmMapEntry :=
  entries.map fun e =>
    if e.vmeStart = start then { e with vmeFlags := { e.vmeFlags with cow := true } } else e

/-- A writable range becomes copy-on-write in the parent too. -/
def markShared (src : Nat) (writable : Bool) (start : Nat) : Op Unit :=
  if writable then modify fun s => s.setEntries src (vmMarkCow start (s.entries src)) else pure ()

/-- One entry of `vm_map_fork_share`. -/
def shareEntry (src dst : Nat) (e : VmMapEntry) : Op Bool := do
  let writable := e.vmeProt.write
  let flags := if writable then { e.vmeFlags with cow := true } else e.vmeFlags
  let prot := if writable then e.vmeProt.noWrite else e.vmeProt
  if ← vmMapEnterBacked dst e.vmeStart (e.vmeEnd - e.vmeStart) e.vmeProt flags e.vmeObject
      e.vmeOffset then do
    markShared src writable e.vmeStart
    shareLeaves src dst e.vmeFlags.anon writable prot (vmPages e.vmeStart e.vmeEnd)
  else pure false

def shareEntries (src dst : Nat) : List VmMapEntry → Op Bool
  | [] => pure true
  | e :: rest => do
    if ← shareEntry src dst e then shareEntries src dst rest else pure false

def vmMapForkShare (src dst : Nat) : Op Bool := do
  shareEntries src dst (← read fun s => s.entries src)

/-! ### Payloads -/

/-- Read a page of the task from the kernel: one not yet there faults in, and a fault that
cannot be served there is fatal. -/
def touch (t page : Nat) : Op Unit := do
  match ← read fun s => s.leaf t page with
  | some _ => pure ()
  | none => do
    if (← vmFault t page false) ≠ .ok then fail .kernelFault

def touchAll (t : Nat) : List Nat → Op Unit
  | [] => pure ()
  | page :: rest => do
    touch t page
    touchAll t rest

/-- The bytes the task's page tables give from an address on. -/
def Memory.loaded (t va : Nat) : Byte :=
  match s.leaf t (vmAlignDown va) with
  | some l => s.ram l.pa (va % vmPageSize)
  | none => 0

/-- `page_from_bytes` on a user address: the bytes there are, then zeros to the page end. -/
def pageFromBytes (t addr off size : Nat) : Op (Option Frame) := do
  match ← pmmAllocPage with
  | none => pure none
  | some pa => do
    let enough := min (size - off) vmPageSize
    touchAll t (vmPages (vmAlignDown (addr + off)) (addr + off + enough))
    modify fun s => s.fill pa fun i => if i < enough then s.loaded t (addr + off + i) else 0
    pure (some pa)

/-- One page of the first pass of `vm_pages_capture_user`: share it if it is there. -/
def captureShare (e : VmMapEntry) (va : Nat) : Op (Option Frame) := do
  match ← read fun s => s.leaf t va with
  | none => pure none
  | some l => do
    pmmPageRef l.pa
    if e.vmeProt.write then do
      if ← pmapEnter t va ⟨l.pa, e.vmeProt.noWrite⟩ then pure (some l.pa)
      else do
        pmmFreePage l.pa
        pure none
    else pure (some l.pa)

/-- The first pass, over the pages the payload fills. -/
def captureShared (t : Nat) (e : VmMapEntry) : List Nat → Op (List (Option Frame))
  | [] => pure []
  | va :: rest => do
    let first ← captureShare t e va
    let more ← captureShared t e rest
    pure (first :: more)

def vmPagesRelease : List (Option Frame) → Op Unit
  | [] => pure ()
  | none :: rest => vmPagesRelease rest
  | some f :: rest => do
    pmmFreePage f
    vmPagesRelease rest

/-- The second pass, from page `i` on: what sharing could not take is copied, and if a frame
cannot be had everything taken so far is dropped. -/
def captureCopied (t addr size : Nat) :
    Nat → List Frame → List (Option Frame) → Op (Option (List Frame))
  | _, done, [] => pure (some done)
  | i, done, some f :: rest => captureCopied t addr size (i + 1) (done ++ [f]) rest
  | i, done, none :: rest => do
    match ← pageFromBytes t addr (i * vmPageSize) size with
    | none => do
      vmPagesRelease (done.map some ++ rest)
      pure none
    | some f => captureCopied t addr size (i + 1) (done ++ [f]) rest

/-- The entry the first pass may share from: one anonymous entry over the whole payload. -/
def captureFrom (entries : List VmMapEntry) (addr npages : Nat) : Option VmMapEntry :=
  if addr % vmPageSize ≠ 0 then none
  else (vmMapLookup entries addr).filter fun e =>
    e.vmeFlags.anon && decide (addr + npages * vmPageSize ≤ e.vmeEnd)

def vmPagesCaptureUser (t addr size maxPages : Nat) : Op (Option (List Frame)) := do
  let npages := vmAlignUp size / vmPageSize
  if size = 0 ∨ maxPages < npages then pure none
  else do
    match captureFrom (← read fun s => s.entries t) addr npages with
    | none => captureCopied t addr size 0 [] (List.replicate npages none)
    | some e => do
      -- a cut last page is never shared
      let whole := size / vmPageSize
      let taken ← captureShared t e (vmPages addr (addr + whole * vmPageSize))
      if e.vmeProt.write && taken.any Option.isSome then
        modify fun s => s.setEntries t (vmMarkCow e.vmeStart (s.entries t))
      captureCopied t addr size 0 [] (taken ++ List.replicate (npages - whole) none)

/-- The mapping loop of `vm_pages_install`, with its undo. -/
def installPages (t : Nat) : Nat → List Frame → Op Bool
  | _, [] => pure true
  | va, f :: rest => do
    if ← pmapEnter t va ⟨f, { read := true, write := false, exec := false, user := true }⟩ then
      if ← installPages t (va + vmPageSize) rest then pure true
      else do
        pmapRemove t va
        pure false
    else pure false

def vmPagesInstall (pas : List Frame) : Op (Option Nat) := do
  let span := pas.length * vmPageSize
  if pas.length = 0 then pure none
  else
    match ← vmMapFindSpace t span with
    | none => pure none
    | some landing => do
      if !(← vmMapEnterBacked t landing span
          { read := true, write := true, exec := false, user := true }
          { anon := true, cow := true, lazy := false } none 0) then pure none
      else if ← installPages t landing pas then pure (some landing)
      else do
        modify fun s => s.setEntries t (vmMapRemove landing (landing + span) (s.entries t))
        pure none

end Style9.Vm
