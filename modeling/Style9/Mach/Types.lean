import Style9.Lib.Table

/-!
# Ports, port sets and name tables

A port counts the rights that exist for it. A right is held by a name in some task's table, by a
message in some queue, by a notification registration of another port, or by the kernel. Objects
are named by numbers, as the source numbers them; one that was freed is no longer in its table.
-/
namespace Style9.Mach

abbrev PortId : Type := Nat

abbrev SetId : Type := Nat

/-- A task and its name table. -/
abbrev SpaceId : Type := Nat

abbrev Name : Type := Nat

abbrev ThreadId : Type := Nat

def machPortNull : Name := 0

def defaultQmax : Nat := 1024

def kernelQmax : Nat := 4 * defaultQmax

/-- The bytes of a message header. -/
def headerBytes : Nat := 24

/-- `MACH_MSG_OK` and the `MACH_E_*` codes. -/
inductive Rv where
  | ok
  | inval
  | name
  | right
  | dead
  | nospace
  | nomsg
  | toosmall
  | nomem
  | timeout
  | intr
  deriving DecidableEq

/-! ### Rights -/

inductive Right where
  | receive
  | send
  | sendOnce
  deriving DecidableEq

structure Rights where
  receive : Bool
  send : Bool
  sendOnce : Bool
  deriving DecidableEq

namespace Rights

def empty : Rights := ⟨false, false, false⟩

def only : Right → Rights
  | .receive => ⟨true, false, false⟩
  | .send => ⟨false, true, false⟩
  | .sendOnce => ⟨false, false, true⟩

/-- `a & ~b`. -/
def diff (a b : Rights) : Rights :=
  ⟨a.receive && !b.receive, a.send && !b.send, a.sendOnce && !b.sendOnce⟩

def size (r : Rights) : Nat := r.receive.toNat + r.send.toNat + r.sendOnce.toNat

end Rights

/-- A `struct port_entry` in use: a port and at least one right to it, a set, or a name whose port
died. -/
inductive PortEntry where
  | port (pePort : PortId) (peRights : Rights) (some : peRights ≠ .empty)
  | set (peSet : SetId)
  | dead
  deriving DecidableEq

end Style9.Mach
