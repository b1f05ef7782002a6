import Style9.Mach.Launchd
import Style9.Mach.Types

/-!
# The ports of Mach services

The port of a service is made by launchd in `kernel_space`, registered with bootstrap under the
label of the job, handed to the job when it checks in and taken back through a `PORT_DESTROYED`
notification when the job dies. Launchd's cells and bootstrap's registry both keep the kernel name
of the send right as a number. The model has the table of `kernel_space`, where each name may be
given again once it is free, the registry, the cells, and where each receive right is that has left
`kernel_space`. Requests run one at a time. A registration is kept with the port it was made for,
`client` is the job that last checked in for a port, and `stray` tells whether a name was ever
dropped or armed that had come to name another port than the one meant.
-/
namespace Style9.Mach.Services

open Style9.Lib Function
open Style9.Mach.Launchd (CellIndex launchdMaxServices)

abbrev PortId : Type := Nat

def bootstrapMaxServices : Nat := 32

/-- An entry of `kernel_space`. -/
structure Entry where
  port : PortId
  receive : Bool
  send : Bool
  deriving DecidableEq

def Entry.withoutReceive (e : Entry) : Option Entry :=
  if e.send then some { e with receive := false } else none

def Entry.withoutSend (e : Entry) : Option Entry :=
  if e.receive then some { e with send := false } else none

structure Registration where
  bsName : Bytes
  bsKname : Name
  port : PortId
  deriving DecidableEq

/-- The part of `struct launchd_cell` about the service. -/
structure Cell where
  lcUsed : Bool
  lcName : Bytes
  lcTaskId : Nat
  lcSvcPort : Option PortId
  lcSvcSend : Name
  lcSvcRecv : Name
  deriving DecidableEq

def Cell.blank : Cell := ⟨false, [], 0, none, machPortNull, machPortNull⟩

/-- Where a receive right is outside of `kernel_space`: in a message to a task, in the task's space,
or in a `PORT_DESTROYED` message to the death port, with the cell it is tagged with. -/
inductive Away where
  | message (task : Nat)
  | space (task : Nat)
  | returning (idx : CellIndex)
  deriving DecidableEq

structure Bootstrap where
  table : Name → Option Entry
  registry : List Registration
  cells : CellIndex → Cell
  away : PortId → Option Away
  armed : PortId → Option CellIndex
  client : PortId → Nat
  nextPort : PortId
  stray : Bool

/-! ### Rights in `kernel_space` -/

variable (w : Bootstrap)

def Bootstrap.setEntry (n : Name) (v : Option Entry) : Bootstrap :=
  { w with table := update w.table n v }

def Bootstrap.setCell (i : CellIndex) (c : Cell) : Bootstrap :=
  { w with cells := update w.cells i c }

/-- A receive right is destroyed: where `PORT_DESTROYED` is armed it goes to the death port. -/
def Bootstrap.destroyReceive (p : PortId) : Bootstrap :=
  { w with
    away := update w.away p ((w.armed p).map .returning)
    armed := update w.armed p none }

/-- Use of a name that is meant to be one for `p`. -/
def Bootstrap.means (e : Entry) (p : PortId) : Bootstrap :=
  { w with stray := w.stray || e.port != p }

/-- `port_deallocate` in `kernel_space`. -/
def Bootstrap.portDeallocate (n : Name) (p : PortId) : Bootstrap :=
  match w.table n with
  | none => w
  | some e =>
    let dropped := (w.means e p).setEntry n none
    if e.receive then dropped.destroyReceive e.port else dropped

/-- `space_drop_one_right` in `kernel_space`, for SEND. -/
def Bootstrap.dropSend (n : Name) (p : PortId) : Bootstrap :=
  match w.table n with
  | none => w
  | some e => if e.send then (w.means e p).setEntry n e.withoutSend else w

/-- `space_drop_one_right` in `kernel_space`, for RECEIVE. -/
def Bootstrap.dropReceive (n : Name) (p : PortId) : Bootstrap :=
  match w.table n with
  | none => w
  | some e => if e.receive then ((w.means e p).setEntry n e.withoutReceive).destroyReceive e.port
    else w

/-- `svc_arm`; whether it succeeded. -/
def Bootstrap.svcArm (n : Name) (idx : CellIndex) (p : PortId) : Bootstrap × Bool :=
  match w.table n with
  | none => (w, false)
  | some e =>
    if e.receive then ({ w.means e p with armed := update w.armed e.port (some idx) }, true)
      else (w, false)

/-! ### The registry -/

variable (label : Bytes)

def Bootstrap.bootstrapRegister (kname : Name) (p : PortId) : Option Bootstrap :=
  if label = [] ∨ w.registry.any (·.bsName == label) ∨ bootstrapMaxServices ≤ w.registry.length
    then none
  else some { w with registry := w.registry ++ [⟨label, kname, p⟩] }

def Bootstrap.bootstrapUnregister : Bootstrap :=
  { w with registry := w.registry.eraseP (·.bsName == label) }

/-! ### Services -/

def Bootstrap.svcDestroy (send recv : Name) (p : PortId) : Bootstrap :=
  if send = machPortNull then w
  else
    let unregistered := w.bootstrapUnregister label
    let received :=
      if recv ≠ machPortNull ∧ recv ≠ send then unregistered.portDeallocate recv p else unregistered
    received.portDeallocate send p

def Bootstrap.byName : Option CellIndex :=
  (List.finRange launchdMaxServices).find? fun i => (w.cells i).lcUsed &&
    (w.cells i).lcName == label

def Bootstrap.freeCell : Option CellIndex :=
  (List.finRange launchdMaxServices).find? fun i => !(w.cells i).lcUsed

/-- The cell that `launchd_check_in` stops at. -/
def Bootstrap.serviceByName : Option CellIndex :=
  (List.finRange launchdMaxServices).find? fun i =>
    (w.cells i).lcUsed && (w.cells i).lcSvcPort.isSome && (w.cells i).lcName == label

/-- `op_load` of a job without a service; `task` is the child, or none if the spawn failed. -/
def Bootstrap.opLoad (task : Option Nat) : Bootstrap :=
  match w.byName label, w.freeCell with
  | none, some i => w.setCell i ⟨true, label, task.getD 0, none, machPortNull, machPortNull⟩
  | _, _ => w

/-- `op_load` of a job with a service, whose port gets the free name `n`. -/
def Bootstrap.opLoadService (n : Name) (task : Option Nat) : Bootstrap :=
  let p := w.nextPort
  let made := { w.setEntry n (some ⟨p, true, true⟩) with nextPort := p + 1 }
  match made.bootstrapRegister label n p with
  | none => made.portDeallocate n p
  | some registered =>
    match registered.byName label, registered.freeCell with
    | none, some i =>
      ((registered.setCell i ⟨true, label, task.getD 0, some p, n, n⟩).svcArm n i p).1
    | _, _ => registered.svcDestroy label n n p

def Bootstrap.opUnload : Bootstrap :=
  match w.byName label with
  | none => w
  | some i =>
    let c := w.cells i
    (w.setCell i .blank).svcDestroy label c.lcSvcSend c.lcSvcRecv (c.lcSvcPort.getD 0)

/-- What becomes of the reply to a check-in: it is refused or queued for a task. A kernel object
refuses it: each dispatcher answers to the reply port of its message, and this one has none. -/
inductive Answer where
  | refused
  | queued (task : Nat)
  deriving DecidableEq

/-- `bootstrap_dispatch_check_in`. A refused reply may have taken the right out of its name and
given it back as destroyed; either way the right is destroyed. -/
def Bootstrap.checkIn (task : Nat) (answer : Answer) : Bootstrap :=
  match w.serviceByName label with
  | none => w
  | some i =>
    let c := w.cells i
    if c.lcTaskId ≠ task ∨ task = 0 ∨ c.lcSvcRecv = machPortNull then w
    else
      let given := w.setCell i { c with lcSvcRecv := machPortNull }
      match answer with
      | .refused => given.dropReceive c.lcSvcRecv (c.lcSvcPort.getD 0)
      | .queued holder =>
        match given.table c.lcSvcRecv with
        | none => given
        | some e =>
          { given.setEntry c.lcSvcRecv e.withoutReceive with
            away := update given.away e.port (some (.message holder))
            client := update given.client e.port task }

/-- The death port's message with the receive right of `p`, now at the free name `n`:
`svc_returned`. -/
def Bootstrap.svcReturned (p : PortId) (idx : CellIndex) (n : Name) : Bootstrap :=
  let here := { w.setEntry n (some ⟨p, true, false⟩) with away := update w.away p none }
  let c := here.cells idx
  if c.lcUsed && c.lcSvcPort == some p && c.lcSvcRecv == machPortNull then
    let (armed, fine) := here.svcArm n idx p
    if fine then armed.setCell idx { c with lcSvcRecv := n } else armed.portDeallocate n p
  else here.portDeallocate n p

/-- `bootstrap_dispatch_register` of a port of the caller, which gets the free name `n`. -/
def Bootstrap.register (p : PortId) (n : Name) : Bootstrap :=
  let installed := w.setEntry n (some ⟨p, false, true⟩)
  (installed.bootstrapRegister label n p).getD (installed.dropSend n p)

/-- `bootstrap_dispatch_deregister`. -/
def Bootstrap.deregister : Bootstrap :=
  match w.registry.find? (·.bsName == label) with
  | none => w
  | some r => (w.bootstrapUnregister label).dropSend r.bsKname r.port

/-- A task dies, with the receive rights in its space and in messages to it. -/
def Bootstrap.die (task : Nat) : Bootstrap :=
  let held p := w.away p = some (.message task) ∨ w.away p = some (.space task)
  { w with
    away := fun p => if held p then (w.armed p).map .returning else w.away p
    armed := fun p => if held p then none else w.armed p }

/-! ### Runs -/

/-- The requests, with the names that `kernel_space` gives them; a port that a task makes; a job
that is started again or stopped; a message with a receive right that is received; a death; and the
death port's messages. A lookup uses a name only while it runs. -/
inductive Event where
  | load (label : Bytes) (service : Option Name) (task : Option Nat)
  | unload (label : Bytes)
  | register (label : Bytes) (p : PortId) (n : Name)
  | deregister (label : Bytes)
  | lookup (label : Bytes)
  | checkIn (label : Bytes) (task : Nat) (answer : Answer)
  | create
  | spawn (idx : CellIndex) (task : Nat)
  | receive (p : PortId)
  | die (task : Nat)
  | returned (p : PortId) (n : Name)
  deriving DecidableEq

def Bootstrap.isFree (n : Name) : Bool := n != machPortNull && (w.table n).isNone

def next : Event → Option Bootstrap
  | .load label none task => some (if label = [] then w else w.opLoad label task)
  | .load label (some n) task =>
    if w.isFree n then some (if label = [] then w else w.opLoadService label n task) else none
  | .unload label => some (if label = [] then w else w.opUnload label)
  | .register label p n =>
    if w.isFree n && decide (p < w.nextPort) then some (w.register label p n) else none
  | .deregister label => some (w.deregister label)
  | .lookup _ => some w
  | .checkIn label task answer => some (w.checkIn label task answer)
  | .create => some { w with nextPort := w.nextPort + 1 }
  | .spawn idx task => some (w.setCell idx { w.cells idx with lcTaskId := task })
  | .receive p =>
    match w.away p with
    | some (.message task) => some { w with away := update w.away p (some (.space task)) }
    | _ => none
  | .die task => some (w.die task)
  | .returned p n =>
    match w.away p with
    | some (.returning idx) => if w.isFree n then some (w.svcReturned p idx n) else none
    | _ => none

/-- Nobody deregisters the label of a service, and the reply to a check-in goes to the job or is
refused. -/
def careful (e : Event) (_ : Bootstrap) : Bool :=
  match e with
  | .deregister label => (w.serviceByName label).isNone
  | .checkIn _ task answer => answer = .refused || answer = .queued task
  | _ => true

/-! ### Custody -/

/-- Where the receive right of a service is: at `lc_svc_recv` in `kernel_space`, with the job that
checked in for it, or on its way back; armed for its cell unless it is on its way back. -/
inductive Place (w : Bootstrap) (i : CellIndex) (p : PortId) : Prop
  | here (e : Entry) (named : (w.cells i).lcSvcRecv ≠ machPortNull)
      (entry : w.table (w.cells i).lcSvcRecv = some e) (port : e.port = p)
        (receive : e.receive = true)
      (away : w.away p = none) (armed : w.armed p = some i)
  | out (unnamed : (w.cells i).lcSvcRecv = machPortNull)
      (away : w.away p = some (.message (w.client p)) ∨ w.away p = some (.space (w.client p)))
      (armed : w.armed p = some i)
  | back (unnamed : (w.cells i).lcSvcRecv = machPortNull) (away : w.away p = some (.returning i))

structure Custody (w : Bootstrap) (i : CellIndex) (p : PortId) : Prop where
  place : Place w i p
  only : ∀ n e, w.table n = some e → e.port = p → e.receive = true → n = (w.cells i).lcSvcRecv
  send : ∃ e, w.table (w.cells i).lcSvcSend = some e ∧ e.port = p ∧ e.send = true
  alone : ∀ e, (w.cells i).lcSvcRecv ≠ (w.cells i).lcSvcSend →
    w.table (w.cells i).lcSvcRecv = some e → e.send = false
  registered : ⟨(w.cells i).lcName, (w.cells i).lcSvcSend, p⟩ ∈ w.registry
  below : p < w.nextPort

/-- A used cell of the port. -/
def Bootstrap.keeps (i : CellIndex) (p : PortId) : Prop :=
  (w.cells i).lcUsed = true ∧ (w.cells i).lcSvcPort = some p

/-- The books of launchd and bootstrap agree with `kernel_space`. -/
structure ServicesOk (w : Bootstrap) : Prop where
  stray : w.stray = false
  null : w.table machPortNull = none
  ports : ∀ n e, w.table n = some e → e.port < w.nextPort
  unborn : ∀ p, w.nextPort ≤ p → w.away p = none
  registered : ∀ r ∈ w.registry, ∃ e, w.table r.bsKname = some e ∧ e.port = r.port ∧ e.send = true
  names : (w.registry.map Registration.bsName).Nodup
  knames : (w.registry.map Registration.bsKname).Nodup
  custody : ∀ i p, w.keeps i p → Custody w i p
  plain : ∀ i, (w.cells i).lcSvcPort = none → (w.cells i).lcSvcSend = machPortNull
  labels : ∀ i j, (w.cells i).lcUsed = true → (w.cells j).lcUsed = true →
    (w.cells i).lcName = (w.cells j).lcName → i = j
  owners : ∀ i j p, w.keeps i p → w.keeps j p → i = j

end Style9.Mach.Services
