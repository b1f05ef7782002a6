import Style9.Lib.Threads
import Style9.Mach.Types

/-!
# The calls on one port, one critical section at a time

Sends, receives, and the calls that move or drop the receive right of one port, made by any number
of threads at once. A step is one section under the lock of the port, of a set or of a name table,
one look at a name, or one wake. A call gives up the lock between two steps and keeps no reference,
as in the source, so that anything can happen there.

The other ports and the memory are not part of the state: what they contribute to a step is its
`Chance`.
-/
namespace Style9.Mach

open Style9.Lib

/-! ### The port -/

/-- A message, numbered in the order in which the port was given it. -/
structure Mail where
  serial : Nat
  mSize : Nat
  deriving DecidableEq

/-- Where the receive right is: named in a table, in a message, in the hands of the `port_deref`
that drops it, or destroyed. -/
inductive ReceiveRight where
  | named (sp : SpaceId) (name : Name)
  | carried
  | falling
  | gone
  deriving DecidableEq

structure SetName where
  space : SpaceId
  name : Name
  deriving DecidableEq

/-- What the queue went through. A receive knows when it takes a message whether it will keep it;
`holder` is where the right was then. -/
inductive PortEvent where
  | queued (m : Mail)
  | dequeued (m : Mail) (into : SpaceId) (fits : Bool) (holder : ReceiveRight)
  | putBack (m : Mail)
  | delivered (m : Mail)
  deriving DecidableEq

/-- The port, the sets that list it with the threads parked on them, the threads with a wake to
take, and what happened so far, newest first. -/
structure PortState where
  pDead : Bool
  pQueue : List Mail
  pQresv : Nat
  pQmax : Nat
  pWaiters : List ThreadId
  pSendWaiters : List ThreadId
  pSet : Option SetName
  pNotifyPortDestroyed : Bool
  psMembers : List SetName
  psWaiters : List (SetName × ThreadId)
  receive : ReceiveRight
  wakePending : Finset ThreadId
  log : List PortEvent

/-- `timeout_ms`. -/
inductive Timeout where
  | none
  | deadline
  | forever
  deriving DecidableEq

/-- What a step finds besides the port: its deadline passed, its task killed, memory refused or a
message badly formed, a message at another member of its set. A step that looks for none of these
goes on whatever it is. -/
inductive Chance where
  | go
  | expire
  | kill
  | refuse
  | elsewhere
  deriving DecidableEq

namespace PortEvent

def adds : PortEvent → List Mail
  | .queued m => [m]
  | _ => []

/-- The message an event takes for good. One that is going to be put back is not taken. -/
def takes : PortEvent → List Mail
  | .dequeued m _ true _ => [m]
  | _ => []

def gives : PortEvent → List Mail
  | .delivered m => [m]
  | _ => []

end PortEvent

namespace PortState

variable (q : PortState)

/-- The messages appended, in order. -/
def queued : List Mail := q.log.reverse.flatMap PortEvent.adds

/-- The messages that receives took to keep, in the order in which they took them. -/
def taken : List Mail := q.log.reverse.flatMap PortEvent.takes

/-- The messages that reached their receivers. -/
def delivered : List Mail := q.log.reverse.flatMap PortEvent.gives

/-! ### Sections -/

def load : Nat := q.pQueue.length + q.pQresv

/-- `thread_wake`. A thread that is not parked finds the wake at its next park. -/
def wake (w : ThreadId) : PortState := { q with wakePending := insert w q.wakePending }

/-- `port_extract_send_waiter_locked`, without the thread it finds. -/
def extractSendWaiter : PortState := { q with pSendWaiters := q.pSendWaiters.tail }

/-- `port_unbind_waiter_locked`. -/
def unbindWaiter (self : ThreadId) : PortState := { q with pWaiters := q.pWaiters.erase self }

/-- `port_unbind_send_waiter_locked`. -/
def unbindSendWaiter (self : ThreadId) : PortState :=
  { q with pSendWaiters := q.pSendWaiters.erase self }

/-- `port_set_unbind_waiter_locked`. -/
def unbindSetWaiter (set : SetName) (self : ThreadId) : PortState :=
  { q with psWaiters := q.psWaiters.erase (set, self) }

/-- The message at the end of the queue. -/
def append (mSize : Nat) : PortState :=
  { q with
    pQueue := q.pQueue ++ [⟨q.queued.length, mSize⟩]
    log := .queued ⟨q.queued.length, mSize⟩ :: q.log }

/-- The dequeue that four sites share: the head of the queue, the sender to wake once the lock is
dropped, and the port. -/
def dequeue (into : SpaceId) (bufSize : Nat) : Option (Mail × Option ThreadId × PortState) :=
  match q.pQueue with
  | [] => none
  | m :: rest =>
    some (m, q.pSendWaiters.head?, { q.extractSendWaiter with
        pQueue := rest
        log := .dequeued m into (decide (m.mSize ≤ bufSize)) q.receive :: q.log })

/-- `deliver_msg`. A message that does not fit goes back to the head; another failure destroys
it. -/
def deliver (chance : Chance) (bufSize : Nat) (m : Mail) : PortState × Rv :=
  if bufSize < m.mSize
    then ({ q with pQueue := m :: q.pQueue, log := .putBack m :: q.log }, .toosmall)
  else if chance = .refuse then (q, .nomem)
  else ({ q with log := .delivered m :: q.log }, .ok)

end PortState

/-- How a park ends. -/
inductive Unparked where
  | woken
  | timedOut
  | killed
  deriving DecidableEq

variable (chance : Chance)

variable (self : ThreadId)

/-- The end of a park: a wake, at once if it was there before, a deadline if there is one, or a
kill. -/
def unpark (timeout : Timeout) (q : PortState) :
    Option (PortState × Unparked) :=
  match chance with
  | .kill => some (q, .killed)
  | .expire => if timeout = .deadline then some (q, .timedOut) else none
  | _ => if self ∈ q.wakePending
    then some ({ q with wakePending := q.wakePending.erase self }, .woken) else none

/-! ### Sends -/

/-- A send by a user's right, by a send-once right or a kernel object, and a message of the kernel's
own, for which no slot is reserved. -/
inductive SendKind where
  | bounded
  | always
  | kernel
  deriving DecidableEq

/-- `reserve` is the loop of `msg_reserve`, `build` what `mach_msg_send_timed` does with the slot it
has, the rest is `msg_enqueue` and the wake after it. -/
inductive SendStage where
  | reserve
  | parked
  | unparked (how : Unparked)
  | build
  | enqueue
  | wakeSet (set : SetName)
  | wakePort
  | wake (w : ThreadId) (rv : Rv)
  | done (rv : Rv)
  deriving DecidableEq

structure SendCall where
  mSize : Nat
  kind : SendKind
  timeout : Timeout
  stage : SendStage
  deriving DecidableEq

def SendStage.after (rv : Rv) : Option ThreadId → SendStage
  | some w => .wake w rv
  | none => .done rv

namespace SendCall

variable (q : PortState)

/-- The end of `msg_reserve` without a slot: a wake meant for one is passed on. -/
def giveUp (rv : Rv) : PortState × SendStage :=
  if q.load < q.pQmax then (q.extractSendWaiter, .after rv q.pSendWaiters.head?) else (q, .done rv)

/-- How far a send may fill the queue. -/
def limit (c : SendCall) : Nat := if c.kind = .always then kernelQmax else q.pQmax

/-- One round of the loop of `msg_reserve`. -/
def reserve (q : PortState) (c : SendCall) : PortState × SendStage :=
  if q.pDead then giveUp q .dead
  else if q.load < limit q c then ({ q with pQresv := q.pQresv + 1 }, .build)
  else if c.kind = .always then giveUp q .nospace
  else if c.timeout = .none ∨ (c.timeout = .deadline ∧ chance = .expire) then giveUp q .timeout
  else ({ q with pSendWaiters := q.pSendWaiters ++ [self] }, .parked)

def giveSlot (c : SendCall) : PortState :=
  { q with pQresv := match c.kind with | .kernel => q.pQresv | _ => q.pQresv - 1 }

/-- `msg_enqueue` under the lock. A reserved slot is given up whether or not the port has died. -/
def enqueue (c : SendCall) : PortState × SendStage :=
  let q := giveSlot q c
  if q.pDead then (q, .done .dead)
  else if c.kind = .kernel ∧ kernelQmax ≤ q.load then (q, .done .nospace)
  else (q.append c.mSize, match q.pSet with | some set => .wakeSet set | none => .wakePort)

def act (q : PortState) (c : SendCall) : Option (PortState × SendStage) :=
  match c.stage with
  | .reserve => some (reserve chance self q c)
  | .parked => (unpark chance self c.timeout q).map fun r => (r.1, .unparked r.2)
  | .unparked how =>
    let q := q.unbindSendWaiter self
    some (
      match how with
      | .killed => giveUp q .intr
      | .timedOut => reserve .expire self q c
      | .woken => reserve chance self q c)
  | .build =>
    if chance = .refuse then
      -- `msg_unreserve`
      some ({ q.extractSendWaiter with pQresv := q.pQresv - 1 }, .after .inval q.pSendWaiters.head?)
    else some (q, .enqueue)
  | .enqueue => some (enqueue q c)
  | .wakeSet set =>
    match q.psWaiters.find? (·.1 = set) with
    | some (_, w) => some (q.unbindSetWaiter set w, .wake w .ok)
    | none => some (q, .wakePort)
  | .wakePort => some ({ q with pWaiters := q.pWaiters.tail }, .after .ok q.pWaiters.head?)
  | .wake w rv => some (q.wake w, .done rv)
  | .done _ => none

end SendCall

/-! ### Receives -/

/-- `look` is the section at the head of the loop of `mach_msg_recv_timed`; after a park the name is
looked up again, then the lock taken once more. -/
inductive RecvStage where
  | resolve
  | look
  | parked
  | retiring
  | recheck (timedOut : Bool)
  | relook (timedOut moved : Bool)
  | deliver (m : Mail) (sendWaiter : Option ThreadId)
  | wake (w : ThreadId) (rv : Rv)
  | done (rv : Rv)
  | retired
  deriving DecidableEq

/-- A receive by a name for the port: `mach_msg_recv`, which only polls, or
`mach_msg_recv_timed`. -/
structure RecvCall where
  space : SpaceId
  name : Name
  bufSize : Nat
  timeout : Timeout
  polls : Bool
  stage : RecvStage
  deriving DecidableEq

def RecvStage.after (rv : Rv) : Option ThreadId → RecvStage
  | some w => .wake w rv
  | none => .done rv

namespace RecvCall

/-- The message at the head taken, or what is done without one. -/
def take (q : PortState) (c : RecvCall) (none : PortState × RecvStage) : PortState × RecvStage :=
  match q.dequeue c.space c.bufSize with
  | some (m, sendWaiter, q) => (q, .deliver m sendWaiter)
  | .none => none

/-- The name still means this port. -/
def names (q : PortState) (c : RecvCall) : Bool := q.receive = .named c.space c.name

def act (q : PortState) (c : RecvCall) : Option (PortState × RecvStage) :=
  match c.stage with
  | .resolve => some (q, if c.names q then .look else .done .right)
  | .look =>
    if c.polls then some (c.take q (q, .done .nomsg))
    else if q.pDead then some (q, .done .dead)
    else some (c.take q (
      if c.timeout = .none then (q, .done .nomsg)
        else ({ q with pWaiters := q.pWaiters ++ [self] }, .parked)))
  | .parked => (unpark chance self c.timeout q).map fun r =>
      (r.1, if r.2 = .killed then .retiring else .recheck (r.2 = .timedOut))
  | .retiring => some (q.unbindWaiter self, .retired)
  | .recheck timedOut => some (q, .relook timedOut (!c.names q))
  | .relook timedOut moved =>
    let q := q.unbindWaiter self
    if moved && !q.pDead then some (q, .done .right)
    else if timedOut then some (c.take q (q, .done .timeout))
    else some (q, .look)
  | .deliver m sendWaiter =>
    let (q, rv) := q.deliver chance c.bufSize m
    some (q, .after rv sendWaiter)
  | .wake w rv => some (q.wake w, .done rv)
  | .done _ => none
  | .retired => none

end RecvCall

inductive SetRecvStage where
  | scan
  | park
  | parked
  | retiring
  | unlink (timedOut : Bool)
  | deliver (m : Mail) (sendWaiter : Option ThreadId)
  | wake (w : ThreadId) (rv : Rv)
  | done (rv : Rv)
  | retired
  deriving DecidableEq

/-- `mach_msg_recv_timed` on a set. -/
structure SetRecvCall where
  set : SetName
  bufSize : Nat
  timeout : Timeout
  stage : SetRecvStage
  deriving DecidableEq

def SetRecvStage.after (rv : Rv) : Option ThreadId → SetRecvStage
  | some w => .wake w rv
  | none => .done rv

/-- A scan that ends at another member, or finds the set dead, leaves the port as it is. -/
def SetRecvCall.act (q : PortState) (c : SetRecvCall) : Option (PortState × SetRecvStage) :=
  match c.stage with
  | .scan =>
    if chance = .elsewhere then some (q, .done .ok)
    else if c.set ∈ q.psMembers then
      match q.dequeue c.set.space c.bufSize with
      | some (m, sendWaiter, q) => some (q, .deliver m sendWaiter)
      | none => some (q, .park)
    else some (q, .park)
  | .park =>
    if chance = .elsewhere then some (q, .done .ok)
    else if c.timeout = .none then some (q, .done .nomsg)
    else some ({ q with psWaiters := q.psWaiters ++ [(c.set, self)] }, .parked)
  | .parked => (unpark chance self c.timeout q).map fun r =>
      (r.1, if r.2 = .killed then .retiring else .unlink (r.2 = .timedOut))
  | .retiring => some (q.unbindSetWaiter c.set self, .retired)
  | .unlink timedOut =>
    some (q.unbindSetWaiter c.set self, if timedOut then .done .timeout else .scan)
  | .deliver m sendWaiter =>
    let (q, rv) := q.deliver chance c.bufSize m
    some (q, .after rv sendWaiter)
  | .wake w rv => some (q.wake w, .done rv)
  | .done _ => none
  | .retired => none

/-! ### Sets -/

inductive SetStage where
  | resolve
  | first
  | second
  | done (rv : Rv)
  deriving DecidableEq

/-- `port_set_insert` or `port_set_remove` of the port by its name. -/
structure SetCall where
  set : SetName
  portName : Name
  removes : Bool
  stage : SetStage
  deriving DecidableEq

/-- An insert writes `p_set`, then the list; a removal the list, then `p_set`. -/
def SetCall.act (q : PortState) (c : SetCall) : Option (PortState × SetStage) :=
  match c.stage with
  | .resolve => some (q, if q.receive = .named c.set.space c.portName then .first else .done .right)
  | .first =>
    if c.removes then
      if c.set ∈ q.psMembers then some ({ q with psMembers := q.psMembers.erase c.set }, .second)
      else some (q, .done .inval)
    else if q.pSet.isSome then some (q, .done .inval)
    else some ({ q with pSet := some c.set }, .second)
  | .second =>
    if c.removes then some ({ q with pSet := none }, .done .ok)
    else some ({ q with psMembers := c.set :: q.psMembers }, .done .ok)
  | .done _ => none

/-! ### The receive right -/

inductive MoveStage where
  | resolve
  | check
  | unbind
  | done (rv : Rv)
  deriving DecidableEq

/-- `MOVE_RECEIVE` of the port by its name, in a message to another port. -/
structure MoveCall where
  space : SpaceId
  name : Name
  stage : MoveStage
  deriving DecidableEq

def MoveCall.act (q : PortState) (c : MoveCall) : Option (PortState × MoveStage) :=
  match c.stage with
  | .resolve => some (q, if q.receive = .named c.space c.name then .check else .done .right)
  | .check => some (q, if q.pSet.isSome || !q.pWaiters.isEmpty then .done .inval else .unbind)
  | .unbind =>
    if q.receive = .named c.space c.name then some ({ q with receive := .carried }, .done .ok)
    else some (q, .done .name)
  | .done _ => none

/-- `divert` to `post` are `port_destroyed_divert`, the stages after it the rest of `port_deref`. -/
inductive DropStage where
  | unbind
  | divert
  | leaveDiverted (set : Option SetName) (waiters : List ThreadId)
  | wakeDiverted (waiters : List ThreadId)
  | post
  | die
  | wakeDead (set : Option SetName) (waiters : List ThreadId)
  | leaveDead (set : Option SetName)
  | done (rv : Rv)
  deriving DecidableEq

/-- The receive right given up by its name: `port_deallocate`, `port_mod_refs` or the end of the
task. A right that was in a message starts at `divert`. -/
structure DropCall where
  space : SpaceId
  name : Name
  stage : DropStage
  deriving DecidableEq

/-- `port_leave_set`. -/
def PortState.leaveSet (q : PortState) : Option SetName → PortState
  | some set => { q with psMembers := q.psMembers.erase set }
  | none => q

def DropCall.act (q : PortState) (c : DropCall) : Option (PortState × DropStage) :=
  match c.stage with
  | .unbind =>
    if q.receive = .named c.space c.name then some ({ q with receive := .falling }, .divert)
    else some (q, .done .name)
  | .divert =>
    if q.pNotifyPortDestroyed && !q.pDead then
      some ({ q with pNotifyPortDestroyed := false, pSet := none, pWaiters := [] },
        .leaveDiverted q.pSet q.pWaiters)
    else some ({ q with pNotifyPortDestroyed := false }, .die)
  | .leaveDiverted set waiters => some (q.leaveSet set, .wakeDiverted waiters)
  | .wakeDiverted [] => some (q, .post)
  | .wakeDiverted (w :: rest) => some (q.wake w, .wakeDiverted rest)
  | .post =>
    if chance = .refuse then some (q, .die) else some ({ q with receive := .carried }, .done .ok)
  | .die =>
    some ({ q with
        pDead := true, pQueue := [], pWaiters := [], pSendWaiters := [], pSet := none
        receive := .gone },
      .wakeDead q.pSet (q.pWaiters ++ q.pSendWaiters))
  | .wakeDead set [] => some (q, .leaveDead set)
  | .wakeDead set (w :: rest) => some (q.wake w, .wakeDead set rest)
  | .leaveDead set => some (q.leaveSet set, .done .ok)
  | .done _ => none

/-! ### Threads -/

/-- What a thread is doing: one of the calls above, the delivery of the message that carries the
receive right, the last right to send going away, or a registration for the port's destruction. -/
inductive PortWork where
  | send (c : SendCall)
  | recv (c : RecvCall)
  | setRecv (c : SetRecvCall)
  | set (c : SetCall)
  | move (c : MoveCall)
  | drop (c : DropCall)
  | accept (space : SpaceId) (name : Name)
  | unsent
  | wakeUnsent (waiters : List ThreadId)
  | watch (space : SpaceId) (name : Name)
  | arm
  | idle
  deriving DecidableEq

def PortWork.step (q : PortState) : PortWork → Option (PortState × PortWork)
  | .send c => (c.act chance self q).map fun r => (r.1, .send { c with stage := r.2 })
  | .recv c => (c.act chance self q).map fun r => (r.1, .recv { c with stage := r.2 })
  | .setRecv c => (c.act chance self q).map fun r => (r.1, .setRecv { c with stage := r.2 })
  | .set c => (c.act q).map fun r => (r.1, .set { c with stage := r.2 })
  | .move c => (c.act q).map fun r => (r.1, .move { c with stage := r.2 })
  | .drop c => (c.act chance q).map fun r => (r.1, .drop { c with stage := r.2 })
  | .accept space name =>
    if q.receive = .carried then
      -- a right that cannot be installed, or whose message is destroyed, is dropped
      if chance = .refuse then some ({ q with receive := .falling }, .drop ⟨space, name, .divert⟩)
      else some ({ q with receive := .named space name }, .idle)
    else none
  | .unsent =>
    -- receivers are not left waiting for what nobody can send
    if !q.pDead && q.receive != .gone && q.pQueue.isEmpty && !q.pWaiters.isEmpty then
      some ({ q with pDead := true, pWaiters := [] }, .wakeUnsent q.pWaiters)
    else some (q, .idle)
  | .wakeUnsent [] => some (q, .idle)
  | .wakeUnsent (w :: rest) => some (q.wake w, .wakeUnsent rest)
  | .watch space name => some (q, if q.receive = .named space name then .arm else .idle)
  | .arm => some ({ q with pNotifyPortDestroyed := true }, .idle)
  | .idle => none

variable {n : Nat}

abbrev PortRun (n : Nat) : Type := Threads n PortState PortWork

def portNext (s : PortRun n) (e : Fin n × Chance) : Option (PortRun n) :=
  Threads.next (PortWork.step e.2 e.1) s e.1

/-- Steps of these threads in turn, none of which meets anything unusual. -/
def goes (is : List (Fin n)) : List (Fin n × Chance) := is.map fun i => (i, .go)

/-- A call that has not begun. -/
def PortWork.fresh : PortWork → Bool
  | .send c => c.stage = if c.kind = .kernel then .enqueue else .reserve
  | .recv c => c.stage = .resolve
  | .setRecv c => c.stage = .scan
  | .set c => c.stage = .resolve
  | .move c => c.stage = .resolve
  | .drop c => c.stage = .unbind
  | .accept _ _ | .unsent | .watch _ _ => true
  | .wakeUnsent _ | .arm | .idle => false

def PortState.created (space : SpaceId) (name : Name) : PortState where
  pDead := false
  pQueue := []
  pQresv := 0
  pQmax := defaultQmax
  pWaiters := []
  pSendWaiters := []
  pSet := none
  pNotifyPortDestroyed := false
  psMembers := []
  psWaiters := []
  receive := .named space name
  wakePending := ∅
  log := []

/-- The port is new, any calls are about to be made, and any wakes may be left from before. -/
structure PortRun.Begins (s : PortRun n) : Prop where
  created : ∃ space name wakes,
    s.shared = { PortState.created space name with wakePending := wakes }
  fresh : ∀ i, (s.pc i).fresh

end Style9.Mach
