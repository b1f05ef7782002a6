import Style9.Lib.Linked
import Style9.Lib.Threads
import Style9.Mach.Types

/-!
# Port sets, one critical section at a time

The threads of one task put ports on sets, take them off, ask for the set of a port and deallocate
names. A port points to its set and to the next member; the set has the head of the list and a
count. The pointer is written under the lock of the port, the list under the lock of the set, and
a call gives up one before it takes the other. A step is one section under a lock; the loop that
looks for a port on a list takes one step per member and keeps the lock of the set meanwhile.

The fields of the ports and sets stand by their numbers. The queues, the parked threads and the
ports that registrations and messages name are not part of the state: whether a notification is
armed and whether it can be queued is the step's `Choice`.
-/
namespace Style9.Mach.Sets

open Style9.Lib Function

/-! ### Memory -/

/-- The name table of the task, the ports and the sets. A freed port or set is no longer live. -/
structure PortSets where
  psTable : Table Name PortEntry
  pLive : PortId → Bool
  pRefs : PortId → Nat
  pHasReceive : PortId → Bool
  pSet : PortId → Option SetId
  pSetLink : PortId → Option PortId
  psLive : SetId → Bool
  psLock : SetId → Bool
  psRefs : SetId → Nat
  psMembersHead : SetId → Option PortId
  psMemberCount : SetId → Nat

namespace PortSets

variable (w : PortSets)

def point (p : PortId) (set : Option SetId) : PortSets := { w with pSet := update w.pSet p set }

def link (p : PortId) (next : Option PortId) : PortSets :=
  { w with pSetLink := update w.pSetLink p next }

def lock (set : SetId) (held : Bool) : PortSets := { w with psLock := update w.psLock set held }

/-- The head of the list and the count. -/
def list (set : SetId) (head : Option PortId) (count : Nat) : PortSets :=
  { w with
    psMembersHead := update w.psMembersHead set head
    psMemberCount := update w.psMemberCount set count }

/-- The references of a port and its receive right, less what a mask of rights counts for. -/
def lower (p : PortId) (r : Rights) : PortSets :=
  { w with
    pRefs := update w.pRefs p (w.pRefs p - r.size)
    pHasReceive := update w.pHasReceive p (w.pHasReceive p && !r.receive) }

/-- `space_lookup` for the receive right. -/
def spaceLookup (name : Name) : Option PortId :=
  match w.psTable.lookup name with
  | some (.port p r _) => if r.receive then some p else none
  | _ => none

def spaceLookupSet (name : Name) : Option SetId :=
  match w.psTable.lookup name with
  | some (.set set) => some set
  | _ => none

end PortSets

/-! ### Calls -/

inductive Call where
  | portSetInsert (setName portName : Name)
  | portSetRemove (setName portName : Name)
  | portSetExtract (portName : Name)
  | portDeallocate (name : Name)
  deriving DecidableEq

/-- What `port_leave_set` was called for: the receive right is sent to the notify port, or the port
dies, with or without its last reference. -/
inductive Leaving where
  | divert (r : Rights)
  | die (last : Bool)
  deriving DecidableEq

/-- Who looks for a port on a list. -/
inductive Purpose where
  | remove
  | leave (why : Leaving)
  deriving DecidableEq

/-- Where a call stands, with its local variables. -/
inductive SetWork where
  | idle
  | insertPort (set : SetId) (portName : Name)
  | insertMark (set : SetId) (p : PortId)
  | insertLink (set : SetId) (p : PortId)
  | removePort (set : SetId) (portName : Name)
  | removeClear (set : SetId) (p : PortId)
  | lock (set : SetId) (p : PortId) (purpose : Purpose)
  | walk (set : SetId) (p : PortId) (prev cur : Option PortId) (purpose : Purpose)
  | extractRead (p : PortId)
  | extractScan (set : SetId)
  | divert (p : PortId) (r : Rights)
  | leaveClear (p : PortId) (why : Leaving)
  | post (p : PortId) (r : Rights)
  | deref (p : PortId) (r : Rights)
  | finish (p : PortId) (last : Bool)
  | setDeref (set : SetId)
  | detach (set : SetId) (cur : Option PortId)
  | faulted
  deriving DecidableEq

/-- What a step does besides: an idle thread makes a call, an armed notification is found, a
notification can be queued. -/
inductive Choice where
  | call (c : Call)
  | answer (yes : Bool)
  deriving DecidableEq

/-! ### Steps -/

/-- What follows `port_leave_set`. -/
def Leaving.then (p : PortId) : Leaving → SetWork
  | .divert r => .post p r
  | .die last => .finish p last

/-- `port_leave_set`, if there is a set to leave. -/
def leave (p : PortId) (why : Leaving) : Option SetId → SetWork
  | none => why.then p
  | some set => .lock set p (.leave why)

/-- The member was on the list. -/
def Purpose.found (set : SetId) (p : PortId) : Purpose → SetWork
  | .remove => .removeClear set p
  | .leave why => .leaveClear p why

/-- The member was not on the list. -/
def Purpose.missed (p : PortId) : Purpose → SetWork
  | .remove => .idle
  | .leave why => .leaveClear p why

/-- An access to a freed object, or a failed assertion, stops the thread where it is. -/
def guarded (ok : Bool) (w : PortSets) (r : PortSets × SetWork) : Option (PortSets × SetWork) :=
  some (if ok then r else (w, .faulted))

variable (w : PortSets)

/-- A section under the lock of a set. It waits while another thread has the lock. -/
def locked (set : SetId) (r : PortSets × SetWork) : Option (PortSets × SetWork) :=
  if w.psLive set && w.psLock set then none else guarded (w.psLive set) w r

/-- What `space_drop` goes on with once it has cleared the entry. -/
def dropped : PortEntry → SetWork
  | .port p r _ => if r.receive then .divert p r else .deref p r
  | .set set => .setDeref set
  | .dead => .idle

def begin : Call → PortSets × SetWork
  | .portSetInsert setName portName =>
    (w, (w.spaceLookupSet setName).elim .idle (.insertPort · portName))
  | .portSetRemove setName portName =>
    (w, (w.spaceLookupSet setName).elim .idle (.removePort · portName))
  | .portSetExtract portName => (w, (w.spaceLookup portName).elim .idle .extractRead)
  | .portDeallocate name =>
    (w.psTable.lookup name).elim (w, .idle) fun entry =>
      ({ w with psTable := w.psTable.erase name }, dropped entry)

/-- The loop of `port_set_remove` and of `port_leave_set`, at one member. -/
def walk (set : SetId) (p : PortId) (prev : Option PortId) (purpose : Purpose) :
    Option PortId → Option (PortSets × SetWork)
  | none => guarded (w.psLive set) w (w.lock set false, purpose.missed p)
  | some cur =>
    if cur = p then
      let links := bypass w.pSetLink (w.psMembersHead set) (w.pSetLink p) prev
      guarded (w.pLive p && w.psLive set && prev.all w.pLive) w
        ((({ w with pSetLink := links.2 }).list set links.1 (w.psMemberCount set - 1)).lock
          set false,
          purpose.found set p)
    else guarded (w.pLive cur) w (w, .walk set p (some cur) (w.pSetLink cur) purpose)

/-- `port_deref` from its lock on. -/
def deref (p : PortId) (r : Rights) : Option (PortSets × SetWork) :=
  guarded (w.pLive p && decide (r.size ≤ w.pRefs p) && (!r.receive || w.pHasReceive p)) w
    (if r.receive then
      ((w.lower p r).point p none, leave p (.die (w.pRefs p - r.size = 0)) (w.pSet p))
    else (w.lower p r, .finish p (w.pRefs p - r.size = 0)))

/-- `port_set_deref`, its first section and then one member at a time. -/
def setDeref (set : SetId) : Option (PortSets × SetWork) :=
  let lowered := { w with psRefs := update w.psRefs set (w.psRefs set - 1) }
  locked w set ( if w.psRefs set = 0 then (w, .faulted)
    else if w.psRefs set = 1 then (lowered.list set none 0, .detach set (w.psMembersHead set))
    else (lowered, .idle))

def detach (set : SetId) : Option PortId → Option (PortSets × SetWork)
  | some p => guarded (w.pLive p) w ((w.point p none).link p none, .detach set (w.pSetLink p))
  | none =>
    guarded (w.psLive set && w.psRefs set == 0 && w.psMemberCount set == 0) w
      ({ w with psLive := update w.psLive set false }, .idle)

def step (choice : Choice) (w : PortSets) : SetWork → Option (PortSets × SetWork)
  | .idle =>
    match choice with
    | .call c => some (begin w c)
    | .answer _ => none
  | .insertPort set portName => some (w, (w.spaceLookup portName).elim .idle (.insertMark set))
  | .insertMark set p =>
    guarded (w.pLive p) w (if (w.pSet p).isSome then (w, .idle)
      else (w.point p (some set), .insertLink set p))
  | .insertLink set p =>
    locked w set (if w.pLive p then
      ((w.link p (w.psMembersHead set)).list set (some p) (w.psMemberCount set + 1), .idle)
        else (w, .faulted))
  | .removePort set portName => some (w, (w.spaceLookup portName).elim .idle (.lock set · .remove))
  | .removeClear _ p => guarded (w.pLive p) w ((w.point p none).link p none, .idle)
  | .lock set p purpose =>
    locked w set (w.lock set true, .walk set p none (w.psMembersHead set) purpose)
  | .walk set p prev cur purpose => walk w set p prev purpose cur
  | .extractRead p => guarded (w.pLive p) w (w, (w.pSet p).elim .idle .extractScan)
  | .extractScan _ => some (w, .idle)
  | .divert p r =>
    guarded (w.pLive p) w (
      if choice = .answer true then (w.point p none, leave p (.divert r) (w.pSet p))
        else (w, .deref p r))
  | .leaveClear p why => guarded (w.pLive p) w (w.link p none, why.then p)
  | .post p r =>
    some (w, if choice = .answer true then
        if r.diff (.only .receive) = .empty then .idle else .deref p (r.diff (.only .receive))
      else .deref p r)
  | .deref p r => deref w p r
  | .finish p last =>
    if last then
      guarded (w.pLive p && w.pRefs p == 0 && !w.pHasReceive p) w
        ({ w with pLive := update w.pLive p false }, .idle)
    else some (w, .idle)
  | .setDeref set => setDeref w set
  | .detach set cur => detach w set cur
  | .faulted => none

def next {n : Nat} (s : Threads n PortSets SetWork) (e : Fin n × Choice) :
    Option (Threads n PortSets SetWork) :=
  s.next (step e.2) e.1

/-! ### What must hold between calls -/

def PortSets.Lists (set : SetId) (members : List PortId) : Prop :=
  Path w.pSetLink (w.psMembersHead set) members none

/-- The pointers of the ports and the lists of the sets agree. -/
structure PortSets.Consistent (w : PortSets) : Prop where
  lists : ∀ set, w.psLive set → ∃ members, w.Lists set members
  exact : ∀ set members, w.psLive set → w.Lists set members →
    members.Nodup ∧ w.psMemberCount set = members.length ∧ ∀ p, p ∈ members ↔ w.pSet p = some set
  single : ∀ set set' members members' p, w.psLive set → w.psLive set' → w.Lists set members →
    w.Lists set' members' → p ∈ members → p ∈ members' → set = set'
  alive : ∀ set members p, w.psLive set → w.Lists set members → p ∈ members →
    w.pLive p ∧ w.pHasReceive p ∧ 0 < w.pRefs p
  pointers : ∀ p set, w.pSet p = some set → w.psLive set

/-! ### Calls that get in each other's way -/

/-- The port a call goes on with without a reference. -/
def SetWork.about : SetWork → Option PortId
  | .insertMark _ p | .insertLink _ p | .removeClear _ p | .lock _ p _ | .walk _ p _ _
    _ | .extractRead p
  | .divert p _ | .leaveClear p _ | .post p _ | .deref p _ => some p
  | .finish p last => if last then some p else none
  | _ => none

/-- The call is dropping the receive right, or has the port to free. -/
def SetWork.destroys : SetWork → Bool
  | .divert _ r | .deref _ r => r.receive
  | .lock _ _ (.leave _) | .walk _ _ _ _ (.leave _) | .leaveClear _ _ | .post _ _ => true
  | .finish _ last => last
  | _ => false

/-- The set a call goes on with without a reference, or that its port is going to leave. -/
def SetWork.reaches : SetWork → Option SetId
  | .insertPort set _ | .insertMark set _ | .insertLink set _ | .removePort set _ | .lock set _ _
  | .walk set _ _ _ _ | .setDeref set | .detach set _ => some set
  | .divert p r | .deref p r => if r.receive then w.pSet p else none
  | _ => none

def SetWork.takesApart : SetWork → Option SetId
  | .setDeref set | .detach set _ => some set
  | _ => none

/-- The name a thread is about to deallocate. -/
def drops (a : SetWork) : Choice → Option PortEntry
  | .call (.portDeallocate name) => if a = .idle then w.psTable.lookup name else none
  | _ => none

/-- A call that is under way has nothing to fear from the deallocation of a name. A receive right is
dropped only if the call is about another port and does not take apart the set of the port; another
right of a port only if the call is not dropping its receive right; a set only if the call is about
another. -/
def SetWork.spared (b : SetWork) : PortEntry → Bool
  | .port p r _ =>
    (b.about ≠ some p || (!r.receive && !b.destroys)) &&
      (!r.receive || (w.pSet p).isNone || b.takesApart ≠ w.pSet p)
  | .set set => b.reaches w ≠ some set
  | .dead => true

/-- A deallocation starts only when no call under way is about what it drops. -/
def spares {n : Nat} (s : Threads n PortSets SetWork) (e : Fin n × Choice)
    (_ : Threads n PortSets SetWork) : Bool :=
  (drops s.shared (s.pc e.1) e.2).all fun entry =>
    decide (∀ j ≠ e.1, (s.pc j).spared s.shared entry = true)

end Style9.Mach.Sets
