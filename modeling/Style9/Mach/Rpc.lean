import Style9.Lib.Runs
import Style9.Mach.Types

/-!
# Remote procedure calls

`mach_msg_rpc` sends a request with a fresh reply port and waits for one reply. During the send the
port's stash is armed, so that a dispatcher that replies in the caller's own thread writes the reply
straight into the caller's buffer; every other reply is queued on the port. The model has one call,
step by step, with its reply port, and beside it any number of threads that send to the port, and
whatever happens to rights to the port that have left the caller's space. What was written to the
reply buffer is kept beside the state.
-/
namespace Style9.Mach.Rpc

open Style9.Lib Option

/-- What a request does with the reply port's own name: the dispositions of the destination, of the
reply right and of the descriptors that name it. -/
inductive Disposition where
  | moveReceive
  | makeSend
  | makeSendOnce
  | copySend
  | moveSend
  | moveSendOnce
  deriving DecidableEq

/-- A message to the reply port. A bare one has neither descriptors nor a reply port. -/
structure Reply where
  size : Nat
  bare : Bool
  deriving DecidableEq

inductive Path where
  | stash
  | queue
  deriving DecidableEq

/-- A message that was written to the reply buffer. -/
structure Write where
  thread : Nat
  path : Path
  reply : Reply
  deriving DecidableEq

/-- The `p_stash_*` fields. -/
structure Stash where
  buf : Bool
  thread : Option Nat
  size : Nat
  rv : Rv
  deriving DecidableEq

def Stash.disarmed : Stash := ⟨false, none, 0, .nomsg⟩

/-- Where the caller is in `mach_msg_rpc`. `sending` keeps what the send has yet to do with the
reply name. -/
inductive Stage where
  | called
  | allocated
  | sending (todo : List Disposition)
  | disarming (rv : Rv)
  | receiving
  | deallocating (rv : Rv)
  | returned (rv : Rv)
  deriving DecidableEq

/-- The call with its reply port. The caller's space has RECEIVE and SEND at the reply name, as far
as they have not left; RECEIVE may be away in a message or another space, where there may also be
send rights. Messages in flight hold the port until they are queued. -/
structure Exchange where
  caller : Nat
  replyBufSize : Nat
  request : List Disposition
  stage : Stage
  receive : Bool
  send : Bool
  away : Bool
  sends : Nat
  flying : List Reply
  pDead : Bool
  pQueue : List Reply
  pStash : Stash
  writes : List Write
  deriving DecidableEq

variable (w : Exchange)

/-- The reply port has not been freed. -/
def Exchange.referenced : Bool :=
  w.receive || w.send || w.away || w.sends != 0 || !w.flying.isEmpty

/-! ### Sending to the reply port -/

/-- The test of the inline-reply path of `mach_msg_send_timed`. -/
def Exchange.inlineReply (thread : Nat) (m : Reply) : Bool :=
  m.bare && w.pStash.buf && w.pStash.thread == some thread && w.pStash.rv == .nomsg && !w.pDead &&
    decide (m.size ≤ w.pStash.size)

/-- A send to the port up to the inline reply; any other message goes on to the queue. -/
def machMsgSend (thread : Nat) (m : Reply) : Exchange :=
  if w.inlineReply thread m then
    { w with pStash := { w.pStash with rv := .ok }, writes := ⟨thread, .stash, m⟩ :: w.writes }
  else { w with flying := m :: w.flying }

/-! ### The caller -/

/-- `send_xlate_desc` of the reply name in the caller's space. -/
def sendXlateDesc : Disposition → Option Exchange
  | .moveReceive => if w.receive then some { w with receive := false, away := true } else none
  | .makeSend | .makeSendOnce => if w.receive then some { w with sends := w.sends + 1 } else none
  | .copySend => if w.send then some { w with sends := w.sends + 1 } else none
  | .moveSend => if w.send then some { w with send := false, sends := w.sends + 1 } else none
  | .moveSendOnce => none

/-- `port_deallocate` of the reply name. -/
def portDeallocate : Exchange :=
  { w with
    receive := false
    send := false
    pDead := w.pDead || w.receive
    pQueue := if w.receive then [] else w.pQueue }

def afterSend (rv stashRv : Rv) : Stage :=
  if rv ≠ .ok then .deallocating rv else if stashRv = .ok then .deallocating .ok else .receiving

/-- One look of `mach_msg_recv_timed` at the reply port: `met` is the error of a delivery that fails
or of a wait that ends without a message. -/
def machMsgRecvTimed (met : Option Rv) : Option Exchange :=
  if !w.receive then some { w with stage := .deallocating .right }
  else if w.pDead then some { w with stage := .deallocating .dead }
  else
    match w.pQueue, met with
    | m :: rest, none =>
      if w.replyBufSize < m.size then some { w with stage := .deallocating .toosmall }
      else
        some { w with
          pQueue := rest, writes := ⟨w.caller, .queue, m⟩ :: w.writes, stage := .deallocating .ok }
    | _ :: rest, some rv =>
      if rv = .ok then none else some { w with pQueue := rest, stage := .deallocating rv }
    | [], none => some w
    | [], some rv => if rv = .ok then none else some { w with stage := .deallocating rv }

/-- The next step of `mach_msg_rpc`. `met` is the failure it meets; for the disarm of a port that
has been freed, what its memory holds. -/
def machMsgRpc (met : Option Rv) : Option Exchange :=
  match w.stage with
  | .called =>
    if w.replyBufSize < headerBytes then some { w with stage := .returned .inval }
    else if met.isSome then some { w with stage := .returned .nomem }
    else some { w with receive := true, send := true, stage := .allocated }
  | .allocated =>
    some { w with
      pStash := ⟨true, some w.caller, w.replyBufSize, .nomsg⟩
      stage := .sending w.request }
  | .sending todo =>
    match met, todo with
    | some rv, _ => some { w with stage := .disarming rv }
    | none, [] => some { w with stage := .disarming .ok }
    | none, d :: rest =>
      some (
        match sendXlateDesc w d with
        | some w' => { w' with stage := .sending rest }
        | none => { w with stage := .disarming .right })
  | .disarming rv =>
    some { w with
      pStash := .disarmed
      stage := afterSend rv (if w.referenced then w.pStash.rv else met.getD .nomsg) }
  | .receiving => machMsgRecvTimed w met
  | .deallocating rv => some { portDeallocate w with stage := .returned rv }
  | .returned _ => none

/-! ### Runs -/

/-- A step of the call; a thread's send to the port; a message in flight that is queued or refused;
and what holders elsewhere do: make another send right, drop one, receive, destroy RECEIVE. -/
inductive Event where
  | rpc (met : Option Rv)
  | send (thread : Nat) (m : Reply)
  | enqueue (k : Nat) (accepted : Bool)
  | copy
  | drop
  | take
  | destroy
  deriving DecidableEq

/-- The caller's thread sends only from the dispatchers that its own send runs. -/
def Exchange.mayReply (thread : Nat) : Bool :=
  w.referenced &&
    match w.stage with
    | .sending _ => true
    | _ => thread != w.caller

def next : Event → Option Exchange
  | .rpc met => machMsgRpc w met
  | .send thread m => if w.mayReply thread then some (machMsgSend w thread m) else none
  | .enqueue k accepted =>
    (w.flying[k]?).map fun m =>
      { w with
        flying := w.flying.eraseIdx k
        pQueue := if accepted && !w.pDead then w.pQueue ++ [m] else w.pQueue }
  | .copy => if w.sends ≠ 0 ∨ w.away then some { w with sends := w.sends + 1 } else none
  | .drop => if w.sends ≠ 0 then some { w with sends := w.sends - 1 } else none
  | .take => if w.away then some { w with pQueue := w.pQueue.tail } else none
  | .destroy => if w.away then some { w with away := false, pDead := true, pQueue := [] } else none

/-- A call that begins. -/
def start (caller replyBufSize : Nat) (request : List Disposition) : Exchange where
  caller := caller
  replyBufSize := replyBufSize
  request := request
  stage := .called
  receive := false
  send := false
  away := false
  sends := 0
  flying := []
  pDead := false
  pQueue := []
  pStash := .disarmed
  writes := []

/-- The reply name keeps one of its rights until the stash is disarmed. -/
def keepsName (_ : Exchange) (_ : Event) (w' : Exchange) : Bool :=
  match w'.stage with
  | .sending _ | .disarming _ => w'.receive || w'.send
  | _ => true

/-! ### One reply -/

/-- The writes of a call that is to return `rv`: one if it succeeds, and through the stash only by
the caller. -/
structure Delivered (w : Exchange) (rv : Rv) : Prop where
  one : rv = .ok → ∃ x, w.writes = [x] ∧ x.reply.size ≤ w.replyBufSize
  caller : ∀ x ∈ w.writes, x.path = .stash → x.thread = w.caller

/-- The armed stash: empty, or with the one reply that the caller has written. -/
structure Armed (w : Exchange) : Prop where
  thread : w.pStash.thread = some w.caller
  size : w.pStash.size = w.replyBufSize
  held : w.pStash.rv = .nomsg ∧ w.writes = [] ∨
    w.pStash.rv = .ok ∧ ∃ m, w.writes = [⟨w.caller, .stash, m⟩] ∧ m.size ≤ w.replyBufSize
  named : (w.receive || w.send) = true

/-- What holds at each stage. -/
def ExchangeOk : Prop :=
  match w.stage with
  | .called => w.pStash = .disarmed ∧ w.writes = [] ∧ w.receive = false ∧ w.send = false
  | .allocated => w.pStash = .disarmed ∧ w.writes = [] ∧ (w.receive || w.send) = true
  | .sending _ | .disarming _ => Armed w
  | .receiving => w.pStash = .disarmed ∧ w.writes = []
  | .deallocating rv => w.pStash = .disarmed ∧ Delivered w rv
  | .returned rv => w.pStash = .disarmed ∧ Delivered w rv ∧ w.receive = false ∧ w.send = false

section Steps

variable {w w' : Exchange} {thread : Nat} {m : Reply} {met : Option Rv} {rv : Rv} {e : Event}

/-- The steps that leave the call, its name, the stash and the buffer alone. -/
structure Same (w w' : Exchange) : Prop where
  caller : w'.caller = w.caller
  replyBufSize : w'.replyBufSize = w.replyBufSize
  stage : w'.stage = w.stage
  receive : w'.receive = w.receive
  send : w'.send = w.send
  pStash : w'.pStash = w.pStash
  writes : w'.writes = w.writes

theorem Delivered.same (delivered : Delivered w rv) (same : Same w w') : Delivered w' rv := by
  refine ⟨?_, ?_⟩
  · rw [same.writes, same.replyBufSize]
    exact delivered.one
  · rw [same.writes, same.caller]
    exact delivered.caller

theorem Armed.same (armed : Armed w) (same : Same w w') : Armed w' := by
  refine ⟨?_, ?_, ?_, ?_⟩
  · rw [same.pStash, same.caller]
    exact armed.thread
  · rw [same.pStash, same.replyBufSize]
    exact armed.size
  · rw [same.pStash, same.writes, same.caller, same.replyBufSize]
    exact armed.held
  · rw [same.receive, same.send]
    exact armed.named

theorem ExchangeOk.same (ok : ExchangeOk w) (same : Same w w') : ExchangeOk w' := by
  unfold ExchangeOk at ok ⊢
  rw [same.stage]
  split at ok
  · rwa [same.pStash, same.writes, same.receive, same.send]
  · rwa [same.pStash, same.writes, same.receive, same.send]
  · exact ok.same same
  · exact ok.same same
  · rwa [same.pStash, same.writes]
  · exact ⟨same.pStash.trans ok.1, ok.2.same same⟩
  · obtain ⟨stash, delivered, receive, send⟩ := ok
    exact ⟨same.pStash.trans stash, delivered.same same, same.receive.trans receive,
      same.send.trans send⟩

theorem ok_of_armed (armed : Armed w)
    (stage : (∃ todo, w.stage = .sending todo) ∨ ∃ rv, w.stage = .disarming rv) : ExchangeOk w := by
  unfold ExchangeOk
  rcases stage with ⟨todo, stage⟩ | ⟨rv, stage⟩
  · rw [stage]
    exact armed
  · rw [stage]
    exact armed

theorem caller_of_nil (nothing : w.writes = []) :
    ∀ x ∈ w.writes, x.path = .stash → x.thread = w.caller := by
  intro x inside
  rw [nothing] at inside
  cases inside

theorem Armed.caller (armed : Armed w) : ∀ x ∈ w.writes, x.path = .stash → x.thread = w.caller := by
  rcases armed.held with ⟨-, nothing⟩ | ⟨-, m, one, -⟩
  · exact caller_of_nil nothing
  · intro x inside _
    rw [one, List.mem_singleton] at inside
    rw [inside]

theorem ExchangeOk.caller (ok : ExchangeOk w) :
    ∀ x ∈ w.writes, x.path = .stash → x.thread = w.caller := by
  unfold ExchangeOk at ok
  split at ok
  · exact caller_of_nil ok.2.1
  · exact caller_of_nil ok.2.1
  · exact ok.caller
  · exact ok.caller
  · exact caller_of_nil ok.2
  · exact ok.2.caller
  · exact ok.2.1.caller

theorem inlineReply_iff : w.inlineReply thread m = true ↔ m.bare = true ∧ w.pStash.buf = true ∧
    w.pStash.thread = some thread ∧ w.pStash.rv = .nomsg ∧ w.pDead = false ∧
      m.size ≤ w.pStash.size := by
  simp [Exchange.inlineReply, and_assoc]

theorem inlineReply_disarmed (disarmed : w.pStash = .disarmed) :
    w.inlineReply thread m = false := by
  simp [Exchange.inlineReply, disarmed, Stash.disarmed]

theorem Armed.reply (armed : Armed w) (inline : w.inlineReply thread m = true) :
    Armed { w with
      pStash := { w.pStash with rv := .ok }, writes := ⟨thread, .stash, m⟩ :: w.writes } := by
  obtain ⟨-, -, same, empty, -, fits⟩ := inlineReply_iff.mp inline
  cases armed.thread.symm.trans same
  have nothing : w.writes = [] := by
    rcases armed.held with ⟨-, nothing⟩ | ⟨full, -⟩
    · exact nothing
    · exact absurd (empty.symm.trans full) (by decide)
  refine ⟨armed.thread, armed.size, .inr ⟨rfl, m, ?_, armed.size ▸ fits⟩, armed.named⟩
  rw [nothing]

theorem ExchangeOk.send (ok : ExchangeOk w) : ExchangeOk (machMsgSend w thread m) := by
  unfold machMsgSend
  split
  next inline =>
    have closed : w.pStash ≠ .disarmed := fun disarmed =>
      absurd (inline.symm.trans (inlineReply_disarmed disarmed)) (by decide)
    unfold ExchangeOk at ok
    split at ok
    · exact absurd ok.1 closed
    · exact absurd ok.1 closed
    next todo stage => exact ok_of_armed (ok.reply inline) (.inl ⟨todo, stage⟩)
    next rv stage => exact ok_of_armed (ok.reply inline) (.inr ⟨rv, stage⟩)
    · exact absurd ok.1 closed
    · exact absurd ok.1 closed
    · exact absurd ok.1 closed
  · exact ok.same ⟨rfl, rfl, rfl, rfl, rfl, rfl, rfl⟩

theorem sendXlateDesc_spec {d : Disposition} (done : sendXlateDesc w d = some w') :
    w'.caller = w.caller ∧ w'.replyBufSize = w.replyBufSize ∧ w'.pStash = w.pStash ∧
      w'.writes = w.writes := by
  cases d <;> simp only [sendXlateDesc, ite_none_right_eq_some, some.injEq, reduceCtorEq]
    at done <;>
    obtain ⟨-, rfl⟩ := done <;> exact ⟨rfl, rfl, rfl, rfl⟩

/-- What the caller has after the send: a reply in the buffer, an error, or still nothing. -/
theorem Armed.disarm (armed : Armed w) (stage : Stage)
    (after : afterSend rv w.pStash.rv = stage) :
    ExchangeOk { w with pStash := .disarmed, stage := stage } := by
  subst after
  unfold afterSend
  have mine := armed.caller
  split
  next failed => exact ⟨rfl, fun fine => absurd fine failed, mine⟩
  next =>
  split
  next inline =>
    refine ⟨rfl, fun _ => ?_, mine⟩
    rcases armed.held with ⟨empty, -⟩ | ⟨-, m, one, fits⟩
    · exact absurd (empty.symm.trans inline) (by decide)
    · exact ⟨_, one, fits⟩
  next other =>
    rcases armed.held with ⟨-, nothing⟩ | ⟨full, -⟩
    · exact ⟨rfl, nothing⟩
    · exact absurd full other

theorem ExchangeOk.receive (disarmed : w.pStash = .disarmed) (nothing : w.writes = [])
    (stage : w.stage = .receiving)
    (done : machMsgRecvTimed w met = some w') : ExchangeOk w' := by
  -- an error returns with an untouched buffer
  have failed : ∀ (rv : Rv) (queue : List Reply), rv ≠ .ok →
      ExchangeOk { w with pQueue := queue, stage := .deallocating rv } := fun rv queue bad =>
    ⟨disarmed, fun fine => absurd fine bad, caller_of_nil nothing⟩
  unfold machMsgRecvTimed at done
  split at done
  · cases done
    exact failed .right _ (by decide)
  next =>
  split at done
  · cases done
    exact failed .dead _ (by decide)
  next =>
  split at done
  next reply rest _ =>
    split at done
    · cases done
      exact failed .toosmall _ (by decide)
    next fits =>
    cases done
    refine ⟨disarmed, fun _ => ⟨_, congrArg _ nothing, Nat.le_of_not_lt fits⟩,
      fun x inside byStash => ?_⟩
    rw [nothing, List.mem_singleton] at inside
    rw [inside]
  next rest rv _ =>
    split at done
    · cases done
    next bad =>
      cases done
      exact failed rv _ bad
  · cases done
    unfold ExchangeOk
    rw [stage]
    exact ⟨disarmed, nothing⟩
  next rv _ =>
  split at done
  · cases done
  next bad =>
    cases done
    exact failed rv _ bad

theorem ExchangeOk.rpc (ok : ExchangeOk w) (done : machMsgRpc w met = some w')
    (keeps : keepsName w (.rpc met) w' = true) :
    ExchangeOk w' := by
  unfold machMsgRpc at done
  unfold ExchangeOk at ok
  cases stage : w.stage with
  | called =>
    simp only [stage] at ok done
    obtain ⟨disarmed, nothing, receive, send⟩ := ok
    have refused : ∀ rv : Rv, rv ≠ .ok → ExchangeOk { w with stage := .returned rv } :=
      fun rv bad =>
      ⟨disarmed, ⟨fun fine => absurd fine bad, caller_of_nil nothing⟩, receive, send⟩
    split at done
    · cases done
      exact refused .inval (by decide)
    next =>
    split at done
    · cases done
      exact refused .nomem (by decide)
    · cases done
      exact ⟨disarmed, nothing, rfl⟩
  | allocated =>
    simp only [stage] at ok done
    cases done
    exact ⟨rfl, rfl, .inl ⟨rfl, ok.2.1⟩, ok.2.2⟩
  | sending todo =>
    simp only [stage] at ok done
    have armed : ∀ stage', Armed { w with stage := stage' } := fun _ => { ok with }
    split at done
    · cases done
      exact armed _
    · cases done
      exact armed _
    next d rest =>
    split at done
    next w₁ translated =>
      cases done
      obtain ⟨caller, size, stash, writes⟩ := sendXlateDesc_spec translated
      refine ⟨stash ▸ caller ▸ ok.thread, stash ▸ size ▸ ok.size, ?_, keeps⟩
      rw [caller, size, stash, writes]
      exact ok.held
    · cases done
      exact armed _
  | disarming rv =>
    simp only [stage] at ok done
    cases done
    have kept : w.referenced = true := by
      simp only [Exchange.referenced, ok.named, Bool.true_or]
    exact ok.disarm _ (by rw [kept]; rfl)
  | receiving =>
    simp only [stage] at ok done
    exact ExchangeOk.receive ok.1 ok.2 stage done
  | deallocating rv =>
    simp only [stage] at ok done
    cases done
    exact ⟨ok.1, ⟨ok.2.one, ok.2.caller⟩, rfl, rfl⟩
  | returned =>
    simp only [stage] at done
    cases done

theorem next_cases (done : next w e = some w') :
    (∃ met, e = .rpc met ∧ machMsgRpc w met = some w') ∨ (∃ thread m, w' = machMsgSend w thread m) ∨
      Same w w' := by
  cases e with
  | rpc met => exact .inl ⟨met, rfl, done⟩
  | send thread m =>
    obtain ⟨-, happens⟩ := ite_none_right_eq_some.mp done
    exact .inr (.inl ⟨thread, m, (some.inj happens).symm⟩)
  | enqueue k accepted =>
    obtain ⟨m, -, rfl⟩ := map_eq_some_iff.mp done
    exact .inr (.inr ⟨rfl, rfl, rfl, rfl, rfl, rfl, rfl⟩)
  | copy | drop | take | destroy =>
    obtain ⟨-, happens⟩ := ite_none_right_eq_some.mp done
    cases happens
    exact .inr (.inr ⟨rfl, rfl, rfl, rfl, rfl, rfl, rfl⟩)

theorem ExchangeOk.next (ok : ExchangeOk w) (done : next w e = some w')
    (keeps : keepsName w e w' = true) : ExchangeOk w' := by
  rcases next_cases done with ⟨met, rfl, called⟩ | ⟨thread, m, rfl⟩ | same
  · exact ok.rpc called keeps
  · exact ok.send
  · exact ok.same same

theorem next_returned (stage : w.stage = .returned rv) (disarmed : w.pStash = .disarmed)
    (done : next w e = some w') :
    w'.stage = .returned rv ∧ w'.pStash = .disarmed ∧ w'.writes = w.writes := by
  rcases next_cases done with ⟨met, rfl, called⟩ | ⟨thread, m, rfl⟩ | same
  · simp only [machMsgRpc, stage] at called
    cases called
  · unfold machMsgSend
    rw [inlineReply_disarmed disarmed]
    exact ⟨stage, disarmed, rfl⟩
  · exact ⟨same.stage.trans stage, same.pStash.trans disarmed, same.writes⟩

end Steps

/-! ### Whole calls -/

variable {caller replyBufSize : Nat} {request : List Disposition} {w : Exchange} {rv : Rv}

/-- Along every run in which the reply name keeps a right until the stash is disarmed: only the
caller writes through the stash; a call that returns leaves the reply name free and the stash
disarmed, with one reply that fits in the buffer if it returns `MACH_MSG_OK`; and nothing is written
after that. -/
theorem rpc_one_reply
    (run : Runs next (keepsName · · · = true) (start caller replyBufSize request) w) :
    (∀ x ∈ w.writes, x.path = .stash → x.thread = w.caller) ∧
    (w.stage = .returned rv → (rv = .ok → ∃ x, w.writes = [x] ∧ x.reply.size ≤ w.replyBufSize) ∧
      w.receive = false ∧ w.send = false ∧ w.pStash = .disarmed ∧
      ∀ later, Runs next (fun _ _ _ => True) w later → later.stage = .returned rv ∧
        later.writes = w.writes) := by
  have ok := run.invariant (P := ExchangeOk) ⟨rfl, rfl, rfl, rfl⟩ fun _ _ _ ok done keeps =>
    ok.next done keeps
  refine ⟨ok.caller, fun stage => ?_⟩
  unfold ExchangeOk at ok
  simp only [stage] at ok
  obtain ⟨disarmed, delivered, receive, send⟩ := ok
  refine ⟨delivered.one, receive, send, disarmed, fun later more => ?_⟩
  have after := more.invariant (P := fun x => x.stage = .returned rv ∧ x.pStash = .disarmed ∧
    x.writes = w.writes)
    ⟨stage, disarmed, rfl⟩ fun s e s' before done _ => (by
      obtain ⟨still, quiet, same⟩ := next_returned before.1 before.2.1 done
      exact ⟨still, quiet, same.trans before.2.2⟩)
  exact ⟨after.1, after.2.2⟩

/-- A server on another processor replies twice while the send is still going on. -/
theorem rpc_one_reply_server : ∃ w, Runs next (keepsName · · · = true) (start 1 64 [.makeSend]) w ∧
    w.stage = .returned .ok ∧ w.writes = [⟨1, .queue, ⟨24, true⟩⟩] ∧ w.receive = false ∧
      w.send = false := by
  obtain ⟨w, run, returned, writes⟩ :
    ∃ w, Runs next (keepsName · · · = true) (start 1 64 [.makeSend]) w ∧
      w.stage = .returned .ok ∧ w.writes = [⟨1, .queue, ⟨24, true⟩⟩] :=
    Runs.exists_of_follow [.rpc none, .rpc none, .rpc none, .send 2 ⟨24, true⟩, .send 2 ⟨32, false⟩,
      .enqueue 1 true,
      .enqueue 0 true, .rpc none, .rpc none, .rpc none, .rpc none] (by decide +kernel)
  obtain ⟨-, receive, send, -⟩ := (rpc_one_reply run).2 returned
  exact ⟨w, run, returned, writes, receive, send⟩

/-- The request moves SEND and RECEIVE of its own reply name; the server, which gets both, drops all
it has. The disarm then works on freed memory, and where that reads zero the call returns
`MACH_MSG_OK` without a reply. -/
theorem moved_reply_port_freed :
    ∃ w, Runs next (fun _ _ _ => True) (start 1 64 [.makeSend, .moveSend, .moveReceive]) w ∧
    w.stage = .returned .ok ∧ w.referenced = false ∧ w.writes = [] :=
  Runs.exists_of_follow [.rpc none, .rpc none, .rpc none, .rpc none, .rpc none, .rpc none, .drop,
    .drop, .destroy,
    .rpc (some .ok), .rpc none] (by decide +kernel)

end Style9.Mach.Rpc
