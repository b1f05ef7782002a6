import Style9.Lib.Act
import Style9.Lib.Table

/-!
# Address spaces: maps, page tables, frames

Per task a sorted list of entries says which ranges are live and what backs them, and a page
table says which pages are present and with what protection. Frames are counted: a frame may be
mapped by several tasks and carried by messages in flight, and is free again when the last of
these has let go of it.
-/
namespace Style9.Vm

open Style9.Lib

abbrev Byte : Type := UInt8

/-- A physical page. -/
abbrev Frame : Type := Nat

def vmPageSize : Nat := 4096

def vmAlignDown (x : Nat) : Nat := x / vmPageSize * vmPageSize

def vmAlignUp (x : Nat) : Nat := (x + (vmPageSize - 1)) / vmPageSize * vmPageSize

/-- The pages of the loop `for (va = start; va < end; va += VM_PAGE_SIZE)`. -/
def vmPages (start stop : Nat) : List Nat :=
  (List.range ((stop - start + (vmPageSize - 1)) / vmPageSize)).map fun i => start + i * vmPageSize

/-- `VM_PROT_*`. -/
structure Prot where
  read : Bool
  write : Bool
  exec : Bool
  user : Bool
  deriving DecidableEq, Inhabited

/-- `VME_F_*`. -/
structure VmeFlags where
  anon : Bool
  cow : Bool
  lazy : Bool
  deriving DecidableEq, Inhabited

/-- `struct vm_map_entry`. An object is named by a number; none is zero-fill. -/
structure VmMapEntry where
  vmeStart : Nat
  vmeEnd : Nat
  vmeOffset : Nat
  vmeObject : Option Nat
  vmeProt : Prot
  vmeFlags : VmeFlags
  deriving DecidableEq, Inhabited

/-- `struct vm_map`. Addresses have 64 bits, and page zero belongs to no task. -/
structure VmMap where
  vmLo : Nat
  vmHi : Nat
  vmHint : Nat
  vmHead : List VmMapEntry
  floor : 0 < vmLo
  ceiling : vmHi ≤ 2 ^ 64

def vmUserVaLo : Nat := 0x40000000

def vmUserVaHi : Nat := 0x80000000

/-- The map of a task that has none yet. -/
instance : Inhabited VmMap := ⟨⟨vmUserVaLo, vmUserVaHi, vmUserVaLo, [], by decide, by decide⟩⟩

structure Leaf where
  pa : Frame
  prot : Prot
  deriving DecidableEq, Inhabited

/-- A task's map, and its page table by page address. -/
structure Task where
  tMap : VmMap
  tPmap : Table Nat Leaf

instance : Inhabited Task := ⟨⟨default, ∅⟩⟩

/-- The physical allocator: the bitmap, the owner counts and the search hint. A frame in use
with no owner was reserved at boot. -/
structure Pmm where
  managed : Nat
  used : Frame → Bool
  refs : Frame → Nat
  hint : Nat

/-- Memory, the tasks in it, the bytes of the mapped files, and which of the coming allocations
(of a page table, of an entry) and page-ins will be refused. -/
structure Memory where
  pmm : Pmm
  ram : Frame → Nat → Byte
  tasks : Table Nat Task
  objects : Nat → Nat → Byte
  refuse : List Bool

/-- The assertions that stop the machine, and the fault it does not survive. -/
inductive Halt where
  | pmmFreeDouble
  | pmmFreeReserved
  | pmmRefNotAllocated
  | pmmRefWrap
  | cowBorrowed
  | kernelFault
  deriving DecidableEq

abbrev Op : Type → Type := Act Memory Halt

/-! ### Entries -/

def vmMapLookup : List VmMapEntry → Nat → Option VmMapEntry
  | [], _ => none
  | e :: rest, va =>
    if va < e.vmeStart then none else if va < e.vmeEnd then some e else vmMapLookup rest va

/-- `vm_range_free_locked`. -/
def vmRangeFree (va stop : Nat) : List VmMapEntry → Bool
  | [] => true
  | e :: rest => if stop ≤ e.vmeStart then true else if e.vmeEnd ≤ va then vmRangeFree va stop rest
    else false

/-- The sorted insertion of `vm_map_enter_backed`. -/
def vmEntryInsert (ne : VmMapEntry) : List VmMapEntry → List VmMapEntry
  | [] => [ne]
  | e :: rest => if e.vmeStart < ne.vmeStart then e :: vmEntryInsert ne rest else ne :: e :: rest

/-- The two halves of `vm_entry_split_locked`. -/
def VmMapEntry.below (e : VmMapEntry) (point : Nat) : VmMapEntry := { e with vmeEnd := point }

def VmMapEntry.above (e : VmMapEntry) (point : Nat) : VmMapEntry :=
  { e with vmeStart := point, vmeOffset := e.vmeOffset + (point - e.vmeStart) }

/-- The list `vm_map_clip_locked` leaves: an entry holding the cut strictly inside becomes two. -/
def vmClip (point : Nat) : List VmMapEntry → List VmMapEntry
  | [] => []
  | e :: rest =>
    if point < e.vmeStart then e :: rest
    else if point < e.vmeEnd then
      if e.vmeStart = point then e :: rest else e.below point :: e.above point :: rest
    else e :: vmClip point rest

/-- `vm_map_remove`: the entries wholly inside the range go. -/
def vmMapRemove (va stop : Nat) : List VmMapEntry → List VmMapEntry
  | [] => []
  | e :: rest =>
    if stop ≤ e.vmeStart then e :: rest
    else if va ≤ e.vmeStart ∧ e.vmeEnd ≤ stop then vmMapRemove va stop rest
    else e :: vmMapRemove va stop rest

/-- The loop of `vm_hole_locked`. -/
def vmHoleFrom (size : Nat) : Nat → List VmMapEntry → Nat
  | cur, [] => cur
  | cur, e :: rest =>
    if e.vmeEnd ≤ cur then vmHoleFrom size cur rest
    else if cur + size ≤ e.vmeStart then cur
    else vmHoleFrom size e.vmeEnd rest

/-- `vm_hole_locked`; nothing when the hole would leave the window. -/
def vmHole (m : VmMap) (size start : Nat) : Option Nat :=
  let cur := vmHoleFrom size (if start < m.vmLo then m.vmLo else start) m.vmHead
  if m.vmHi < cur + size ∨ cur = 0 then none else some cur

/-- The covering test of `vm_map_release`: how far the range is covered by owned entries. -/
def vmCovered (stop : Nat) : Nat → List VmMapEntry → Nat
  | covered, [] => covered
  | covered, e :: rest =>
    if stop ≤ covered then covered
    else if e.vmeEnd ≤ covered then vmCovered stop covered rest
    else if covered < e.vmeStart then covered
    else if !e.vmeFlags.anon then covered
    else vmCovered stop e.vmeEnd rest

end Style9.Vm
