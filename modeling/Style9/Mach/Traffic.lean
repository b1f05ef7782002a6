import Style9.Mach.PortCalls

/-!
# What a step does to a port

`Traffic` says once what a step of any call can do to the messages: append one, take the head, put
one back, deliver or destroy the one in hand, empty the queue of a port that dies, or nothing.
`Effect` adds what it can do to the receive right, to the waiter list, to the wakes and to the sets
that list the port.
-/
namespace Style9.Mach

open Style9.Lib List Option Bool

/-! ### In hand -/

/-- The message a receive has taken off the queue, and whether it fits the buffer. -/
def RecvStage.holding (bufSize : Nat) : RecvStage → Option (Mail × Bool)
  | .deliver m _ => some (m, m.mSize ≤ bufSize)
  | _ => none

@[inherit_doc RecvStage.holding]
def SetRecvStage.holding (bufSize : Nat) : SetRecvStage → Option (Mail × Bool)
  | .deliver m _ => some (m, m.mSize ≤ bufSize)
  | _ => none

/-- The message a call has in hand. -/
def PortWork.holding : PortWork → Option (Mail × Bool)
  | .recv c => c.stage.holding c.bufSize
  | .setRecv c => c.stage.holding c.bufSize
  | _ => none

/-- The messages are as they were. -/
structure Unmoved (q q' : PortState) : Prop where
  log : q'.log = q.log
  queue : q'.pQueue = q.pQueue
  dead : q'.pDead = q.pDead

/-- What one step does to the queue, to its history and to the message in hand. -/
inductive Traffic (q q' : PortState) : Option (Mail × Bool) → Option (Mail × Bool) → Prop
  | calm (hand : Option (Mail × Bool)) (calm : Unmoved q q') : Traffic q q' hand hand
  | queued (m : Mail) (live : q.pDead = false) (numbered : m.serial = q.queued.length)
      (log : q'.log = .queued m :: q.log) (queue : q'.pQueue = q.pQueue ++ [m])
      (dead : q'.pDead = q.pDead) : Traffic q q' none none
  | dequeued (m : Mail) (into : SpaceId) (fits : Bool)
      (log : q'.log = .dequeued m into fits q.receive :: q.log) (queue : q.pQueue = m :: q'.pQueue)
      (dead : q'.pDead = q.pDead) : Traffic q q' none (some (m, fits))
  | returned (m : Mail) (log : q'.log = .putBack m :: q.log) (queue : q'.pQueue = m :: q.pQueue)
      (dead : q'.pDead = q.pDead) : Traffic q q' (some (m, false)) none
  | delivered (m : Mail) (log : q'.log = .delivered m :: q.log) (queue : q'.pQueue = q.pQueue)
      (dead : q'.pDead = q.pDead) : Traffic q q' (some (m, true)) none
  | destroyed (m : Mail) (calm : Unmoved q q') : Traffic q q' (some (m, true)) none
  | died (hand : Option (Mail × Bool)) (dead : q'.pDead = true) (queue : q'.pQueue = []) :
      Traffic q q' hand hand

/-! ### What a call relies on -/

/-- The receive goes on by a name it has looked up. -/
def RecvStage.looks : RecvStage → Bool
  | .look => true
  | .relook _ false => true
  | _ => false

def PortWork.looks : PortWork → Option (SpaceId × Name)
  | .recv c => if c.stage.looks then some (c.space, c.name) else none
  | _ => none

/-- The set an insert is about to put the port on, and the name it found the port by. -/
def PortWork.lists : PortWork → Option (SetName × Name)
  | .set c => if !c.removes && (c.stage = .first || c.stage = .second) then some (c.set, c.portName)
    else none
  | _ => none

def PortWork.parked : PortWork → Option (SpaceId × Name)
  | .recv c => if c.stage = .parked then some (c.space, c.name) else none
  | _ => none

def PortWork.owes : PortWork → List ThreadId
  | .send c =>
    match c.stage with
    | .wake w _ => [w]
    | _ => []
  | .drop c =>
    match c.stage with
    | .leaveDiverted _ waiters => waiters
    | .wakeDiverted waiters => waiters
    | .wakeDead _ waiters => waiters
    | _ => []
  | .wakeUnsent waiters => waiters
  | _ => []

/-- The call is going to take every thread off the waiter list. -/
def PortWork.detaches : PortWork → Bool
  | .drop c => c.stage = .divert || c.stage = .die
  | _ => false

/-- The `port_deref` has the right in its hands. -/
def DropStage.falls : DropStage → Bool
  | .divert | .leaveDiverted _ _ | .wakeDiverted _ | .post | .die => true
  | _ => false

def PortWork.falls : PortWork → Bool
  | .drop c => c.stage.falls
  | _ => false

/-! ### Effects -/

/-- What one step of a thread does. -/
structure Effect (me : ThreadId) (q q' : PortState) (w w' : PortWork) : Prop where
  traffic : Traffic q q' w.holding w'.holding
  right : q'.receive = q.receive ∨ q'.receive = .carried ∨ (q'.receive = .falling ∧ w'.detaches) ∨
    w.falls ∨
    ∀ sp name, q.receive ≠ .named sp name
  falls : w'.falls → (w.falls ∧ q'.receive = q.receive) ∨
    (q.receive ≠ .falling ∧ q'.receive = .falling)
  stays : q'.receive = q.receive ∨ w.falls ∨ q.receive ≠ .falling
  members : ∀ set ∈ q'.psMembers, set ∈ q.psMembers ∨ ∃ name, w.lists = some (set, name)
  waiters : ∀ t ≠ me, t ∈ q.pWaiters → t ∈ q'.pWaiters ∨ t ∈ w'.owes
  pending : ∀ t ≠ me, t ∈ q.wakePending → t ∈ q'.wakePending
  owed : ∀ t ∈ w.owes, t ∈ w'.owes ∨ t ∈ q'.wakePending
  parks : ∀ x, w'.parked = some x → me ∈ q'.pWaiters ∧ w.looks = some x ∧ q.pDead = false ∧
    q'.receive = q.receive
  detach : w.detaches → w'.detaches ∨ ∀ t ∈ q.pWaiters, t ∈ w'.owes
  looks : ∀ x, w'.looks = some x → w.looks = some x ∨ q.pDead = true ∨ q'.receive = .named x.1 x.2
  lists : ∀ x, w'.lists = some x → w.lists = some x ∨ q'.receive = .named x.1.space x.2
  log : ∀ m into fits holder, .dequeued m into fits holder ∈ q'.log →
    .dequeued m into fits holder ∈ q.log ∨
    holder = q.receive ∧ q.pQueue ≠ [] ∧
      ((∃ name, w.looks = some (into, name)) ∨ q.pDead = true ∨ ∃ set ∈ q.psMembers,
        set.space = into)

/-- The port is as it was but for the thread itself, the queue and a wake. -/
structure Steady (me : ThreadId) (q q' : PortState) : Prop where
  receive : q'.receive = q.receive
  members : q'.psMembers ⊆ q.psMembers
  waiters : ∀ t ≠ me, t ∈ q.pWaiters → t ∈ q'.pWaiters
  pending : ∀ t ≠ me, t ∈ q.wakePending → t ∈ q'.wakePending
  log : ∀ m into fits holder, .dequeued m into fits holder ∈ q'.log →
    .dequeued m into fits holder ∈ q.log

/-- The messages are as they were, too. -/
structure Still (me : ThreadId) (q q' : PortState) : Prop extends Unmoved q q' where
  receive : q'.receive = q.receive
  members : q'.psMembers ⊆ q.psMembers
  waiters : ∀ t ≠ me, t ∈ q.pWaiters → t ∈ q'.pWaiters
  pending : ∀ t ≠ me, t ∈ q.wakePending → t ∈ q'.wakePending

variable {q q' q₁ q₂ q₃ : PortState} {chance : Chance} {self : ThreadId} {w w' : PortWork}
  {bufSize : Nat} {m : Mail}

theorem Traffic.live {hand hand' : Option (Mail × Bool)} (traffic : Traffic q q' hand hand')
    (live : q'.pDead = false) :
    q.pDead = false := by
  cases traffic with
  | calm _ calm => exact calm.dead.symm.trans live
  | queued _ _ _ _ _ dead => exact dead.symm.trans live
  | dequeued _ _ _ _ _ dead | returned _ _ _ dead | delivered _ _ _ dead =>
    exact dead.symm.trans live
  | destroyed _ calm => exact calm.dead.symm.trans live
  | died _ dead _ => exact absurd (dead.symm.trans live) (by decide)

/-- A step that takes nothing away from the others, for a call that detaches no waiters. -/
theorem Steady.effect (steady : Steady self q q') (traffic : Traffic q q' w.holding w'.holding)
    (owed : ∀ t ∈ w.owes, t ∈ w'.owes ∨ t ∈ q'.wakePending)
    (parked : w'.parked = none) (detaches : w.detaches → w'.detaches) (falls : w'.falls → w.falls)
    (looks : ∀ x, w'.looks = some x → w.looks = some x ∨ q.pDead = true ∨
      q.receive = .named x.1 x.2)
    (lists : ∀ x, w'.lists = some x → w.lists = some x ∨ q.receive = .named x.1.space x.2) :
    Effect self q q' w w' where
  traffic := traffic
  right := .inl steady.receive
  falls inside := .inl ⟨falls inside, steady.receive⟩
  stays := .inl steady.receive
  members set listed := .inl (steady.members listed)
  waiters t other listed := .inl (steady.waiters t other listed)
  pending := steady.pending
  owed := owed
  parks x here := by rw [parked] at here; cases here
  detach going := .inl (detaches going)
  looks x here := steady.receive ▸ looks x here
  lists x here := steady.receive ▸ lists x here
  log m into fits holder there := .inl (steady.log m into fits holder there)

namespace Still

theorem refl (q : PortState) : Still self q q :=
  ⟨⟨rfl, rfl, rfl⟩, rfl, fun _ h => h, fun _ _ h => h, fun _ _ h => h⟩

theorem trans (first : Still self q₁ q₂) (second : Still self q₂ q₃) : Still self q₁ q₃ where
  log := second.log.trans first.log
  queue := second.queue.trans first.queue
  dead := second.dead.trans first.dead
  receive := second.receive.trans first.receive
  members _ listed := first.members (second.members listed)
  waiters t other listed := second.waiters t other (first.waiters t other listed)
  pending t other woken := second.pending t other (first.pending t other woken)

theorem steady (still : Still self q q') : Steady self q q' :=
  ⟨still.receive, still.members, still.waiters, still.pending,
    fun _ _ _ _ there => still.log ▸ there⟩

theorem unbindWaiter (q : PortState) : Still self q (q.unbindWaiter self) :=
  { refl q with waiters := fun _ other listed => (mem_erase_of_ne other).mpr listed }

theorem wake (q : PortState) (t : ThreadId) : Still self q (q.wake t) :=
  { refl q with pending := fun _ _ woken => Finset.mem_insert_of_mem woken }

theorem owed_wake {t u : ThreadId} {rest : List ThreadId} (owed : u ∈ t :: rest) :
    u ∈ rest ∨ u ∈ (q.wake t).wakePending := by
  rcases mem_cons.mp owed with rfl | later
  · exact .inr (Finset.mem_insert_self u _)
  · exact .inl later

theorem leaveSet {set : Option SetName} : Still self q (q.leaveSet set) := by
  cases set with
  | none => exact refl q
  | some set => exact { refl q with members := fun _ => mem_of_mem_erase }

theorem unpark {timeout : Timeout} {r : PortState × Unparked}
    (ended : unpark chance self timeout q = some r) :
    Still self q r.1 := by
  unfold Mach.unpark at ended
  split at ended
  · cases ended
    exact refl q
  · split at ended <;> cases ended
    exact refl q
  · split at ended <;> cases ended
    exact { refl q with pending := fun _ other woken => Finset.mem_erase.mpr ⟨other, woken⟩ }

section

variable (still : Still self q q') (hand : w'.holding = w.holding)
  (owed : ∀ t ∈ w.owes, t ∈ w'.owes ∨ t ∈ q'.wakePending)
include still hand owed

theorem effect (parked : w'.parked = none) (detaches : w.detaches → w'.detaches)
    (falls : w'.falls → w.falls)
    (looks : ∀ x, w'.looks = some x → w.looks = some x ∨ q.pDead = true ∨
      q.receive = .named x.1 x.2)
    (lists : ∀ x, w'.lists = some x → w.lists = some x ∨ q.receive = .named x.1.space x.2) :
    Effect self q q' w w' :=
  still.steady.effect (hand ▸ .calm _ still.toUnmoved) owed parked detaches falls looks lists

theorem effect_of_rest
    (detaches : w.detaches = false) (parked : w'.parked = none) (falls : w'.falls = false)
    (looks : w'.looks = none)
    (lists : w'.lists = none) : Effect self q q' w w' :=
  still.effect hand owed parked (by simp [detaches]) (by simp [falls]) (by simp [looks])
    (by simp [lists])

end

end Still

theorem Effect.transfer {place : ReceiveRight} (hand : w'.holding = w.holding)
    (right : place = .carried ∨ (place = .falling ∧ w'.detaches) ∨
      ∀ sp name, q.receive ≠ .named sp name)
    (falls : w'.falls → q.receive ≠ .falling ∧ place = .falling)
    (stays : w.falls ∨ q.receive ≠ .falling)
    (owes : w.owes = []) (parked : w'.parked = none) (detaches : w.detaches → w'.detaches)
    (looks : w'.looks = none)
    (lists : w'.lists = none) : Effect self q { q with receive := place } w w' where
  traffic := hand ▸ .calm _ ⟨rfl, rfl, rfl⟩
  right := .inr (right.imp_right (.imp_right .inr))
  falls inside := .inr (falls inside)
  stays := .inr stays
  members _ listed := .inl listed
  waiters _ _ listed := .inl listed
  pending _ _ woken := woken
  owed := by simp [owes]
  parks := by simp [parked]
  detach going := .inl (detaches going)
  looks := by simp [looks]
  lists := by simp [lists]
  log _ _ _ _ there := .inl there

theorem Effect.detached (traffic : Traffic q q' w.holding w'.holding)
    (right : q'.receive = q.receive ∨ w.falls)
    (falls : w'.falls → w.falls ∧ q'.receive = q.receive) (members : q'.psMembers = q.psMembers)
    (pending : q'.wakePending = q.wakePending) (log : q'.log = q.log) (took : q.pWaiters ⊆ w'.owes)
    (owes : w.owes = [])
    (parked : w'.parked = none) (looks : w'.looks = none) (lists : w'.lists = none) :
    Effect self q q' w w' where
  traffic := traffic
  right := right.imp_right fun mine => .inr (.inr (.inl mine))
  falls inside := .inl (falls inside)
  stays := right.imp_right .inl
  members _ listed := .inl (members ▸ listed)
  waiters _ _ listed := .inr (took listed)
  pending _ _ woken := pending ▸ woken
  owed := by simp [owes]
  parks := by simp [parked]
  detach _ := .inr fun _ listed => took listed
  looks := by simp [looks]
  lists := by simp [lists]
  log _ _ _ _ there := .inl (log ▸ there)

/-- A message taken off the queue, by a receive of the holder or of a set that lists the port. -/
theorem Effect.dequeue {into : SpaceId} {sendWaiter : Option ThreadId}
    (still : Still self q q₁) (taken : q₁.dequeue into bufSize = some (m, sendWaiter, q'))
    (mine : (∃ name, w.looks = some (into, name)) ∨ q.pDead = true ∨ ∃ set ∈ q.psMembers,
      set.space = into)
    (hand : w.holding = none) (hand' : w'.holding = some (m, decide (m.mSize ≤ bufSize)))
    (owes : w.owes = [])
    (detaches : w.detaches = false) (parked : w'.parked = none) (falls : w'.falls = false)
    (looks : w'.looks = none)
    (lists : w'.lists = none) : Effect self q q' w w' := by
  unfold PortState.dequeue at taken
  split at taken
  · cases taken
  next rest queue =>
  cases taken
  rw [still.queue] at queue
  exact
    { traffic := by
        rw [hand, hand']
        exact .dequeued m into _ (by rw [← still.receive, ← still.log]) queue still.dead
      right := .inl still.receive
      falls := by simp [falls]
      stays := .inl still.receive
      members := fun _ listed => .inl (still.members listed)
      waiters := fun t other listed => .inl (still.waiters t other listed)
      pending := still.pending
      owed := by simp [owes]
      parks := by simp [parked]
      detach := by simp [detaches]
      looks := by simp [looks]
      lists := by simp [lists]
      log := fun m' into' fits holder there => by
        rcases mem_cons.mp there with here | earlier
        · cases here
          exact .inr ⟨still.receive, by simp [queue], mine⟩
        · exact .inl (still.log ▸ earlier) }

/-! ### Deliveries -/

theorem Steady.deliver : Steady self q (q.deliver chance bufSize m).1 := by
  unfold PortState.deliver
  split
  · exact { (Still.refl q).steady with log := fun _ _ _ _ there => by simpa using there }
  split
  · exact (Still.refl q).steady
  · exact { (Still.refl q).steady with log := fun _ _ _ _ there => by simpa using there }

theorem PortState.deliver_traffic :
    Traffic q (q.deliver chance bufSize m).1 (some (m, m.mSize ≤ bufSize)) none := by
  unfold deliver
  split
  next small =>
    rw [decide_eq_false (Nat.not_le.mpr small)]
    exact .returned m rfl rfl rfl
  next fits =>
  rw [decide_eq_true (Nat.not_lt.mp fits)]
  split
  · exact .destroyed m ⟨rfl, rfl, rfl⟩
  · exact .delivered m rfl rfl rfl

/-! ### Sends -/

namespace SendCall

variable {c : SendCall} {r : PortState × SendStage} {rv : Rv}

theorem giveUp_still : Still self q (giveUp q rv).1 := by
  unfold giveUp
  split <;> exact { Still.refl q with }

theorem reserve_still : Still self q (reserve chance self q c).1 := by
  unfold reserve
  split
  · exact giveUp_still
  split
  · exact { Still.refl q with }
  split
  · exact giveUp_still
  split
  · exact giveUp_still
  · exact { Still.refl q with }

theorem enqueue_moves (self : ThreadId) (c : SendCall) :
    Traffic q (enqueue q c).1 none none ∧ Steady self q (enqueue q c).1 := by
  have less : Still self q (giveSlot q c) := { Still.refl q with }
  unfold enqueue
  dsimp only
  split
  · exact ⟨.calm none less.toUnmoved, less.steady⟩
  next live =>
  split
  · exact ⟨.calm none less.toUnmoved, less.steady⟩
  · refine ⟨.queued _ (eq_false_iff.mpr live) rfl rfl rfl rfl,
      { less.steady with log := fun _ _ _ _ there => ?_ }⟩
    simpa [PortState.append, giveSlot] using there

theorem owes_after (c : SendCall) (rv : Rv) (t : Option ThreadId) :
    (PortWork.send { c with stage := .after rv t }).owes = t.toList := by
  cases t <;> rfl

theorem act_effect (c : SendCall) (acted : act chance self q c = some r) :
    Effect self q r.1 (.send c) (.send { c with stage := r.2 }) := by
  unfold act at acted
  obtain ⟨mSize, kind, timeout, stage⟩ := c
  -- a send that is not about to wake anyone can stop owing
  have plain : ∀ {c : SendCall} {r : PortState × SendStage}, (PortWork.send c).owes = [] →
    Still self q r.1 →
      Effect self q r.1 (.send c) (.send { c with stage := r.2 }) := fun nobody still =>
    still.effect rfl (by simp [nobody]) rfl nofun nofun nofun nofun
  cases stage with
  | reserve =>
    cases acted
    exact plain rfl reserve_still
  | parked =>
    obtain ⟨r, ended, rfl⟩ := map_eq_some_iff.mp acted
    exact plain (r := (r.1, .unparked r.2)) rfl (.unpark ended)
  | unparked how =>
    have unlinked : Still self q (q.unbindSendWaiter self) := { Still.refl q with }
    cases how <;> cases acted <;> refine plain rfl ?_
    · exact unlinked.trans reserve_still
    · exact unlinked.trans reserve_still
    · exact unlinked.trans giveUp_still
  | build =>
    dsimp only at acted
    split at acted <;> cases acted <;> exact plain (r := (_, _)) rfl { Still.refl q with }
  | enqueue =>
    cases acted
    obtain ⟨traffic, steady⟩ := enqueue_moves self _
    exact steady.effect traffic nofun rfl nofun nofun nofun nofun
  | wakeSet set =>
    dsimp only at acted
    split at acted <;> cases acted <;> exact plain (r := (_, _)) rfl { Still.refl q with }
  | wakePort =>
    cases acted
    refine { traffic := .calm none ⟨rfl, rfl, rfl⟩, right := .inl rfl, falls := nofun
             stays := .inl rfl, members := fun _ listed => .inl listed
             waiters := fun t _ listed => ?_, pending := fun _ _ woken => woken, owed := nofun
             parks := nofun, detach := nofun, looks := nofun, lists := nofun
             log := fun _ _ _ _ there => .inl there }
    -- the head of the list is the thread to wake
    rw [owes_after]
    cases waiters : q.pWaiters with
    | nil => rw [waiters] at listed; cases listed
    | cons head rest =>
    rw [waiters] at listed
    rcases mem_cons.mp listed with rfl | later
    · exact .inr (mem_singleton_self t)
    · exact .inl later
  | wake t rv =>
    cases acted
    exact (Still.wake q t).effect rfl (fun _ owed =>
      .inr ((Still.owed_wake owed).resolve_left not_mem_nil)) rfl nofun nofun
      nofun nofun
  | done rv => cases acted

end SendCall

/-! ### Receives -/

theorem PortWork.looks_recv {c : RecvCall} {x : SpaceId × Name} :
    (PortWork.recv c).looks = some x ↔ c.stage.looks = true ∧ x = (c.space, c.name) := by
  rw [looks, ite_none_right_eq_some, Option.some.injEq]
  exact and_congr_right fun _ => eq_comm

namespace RecvCall

variable {c : RecvCall} {r : PortState × RecvStage} {stage : RecvStage}

theorem still_effect (still : Still self q q')
    (hand : stage.holding c.bufSize = c.stage.holding c.bufSize)
    (parked : stage ≠ .parked)
    (looks : stage.looks = true → c.stage.looks = true ∨ q.pDead = true ∨ c.names q = true) :
    Effect self q q' (.recv c) (.recv { c with stage := stage }) := by
  refine still.effect hand nofun (if_neg parked) nofun nofun (fun x here => ?_) nofun
  obtain ⟨looking, rfl⟩ := PortWork.looks_recv.mp here
  rcases looks looking with before | dead | named
  · exact .inl (PortWork.looks_recv.mpr ⟨before, rfl⟩)
  · exact .inr (.inl dead)
  · exact .inr (.inr (of_decide_eq_true named))

theorem take_effect {none : PortState × RecvStage} (still : Still self q q₁)
    (looking : c.stage.looks = true ∨ q.pDead = true) (empty : c.stage.holding c.bufSize = .none)
    (otherwise : Effect self q none.1 (.recv c) (.recv { c with stage := none.2 })) :
    Effect self q (c.take q₁ none).1 (.recv c) (.recv { c with stage := (c.take q₁ none).2 }) := by
  unfold take
  split
  next found =>
    refine .dequeue still found ?_ empty rfl rfl rfl rfl rfl rfl rfl
    exact looking.imp (fun looks => ⟨c.name, PortWork.looks_recv.mpr ⟨looks, rfl⟩⟩) .inl
  · exact otherwise

theorem act_effect (c : RecvCall) (acted : act chance self q c = some r) :
    Effect self q r.1 (.recv c) (.recv { c with stage := r.2 }) := by
  unfold act at acted
  have unlinked : Still self q (q.unbindWaiter self) := .unbindWaiter q
  obtain ⟨space, name, bufSize, timeout, polls, stage⟩ := c
  cases stage with
  | resolve =>
    cases acted
    split
    next named => exact still_effect (.refl q) rfl nofun fun _ => .inr (.inr named)
    · exact still_effect (.refl q) rfl nofun nofun
  | look =>
    dsimp only at acted
    split at acted
    · cases acted
      exact take_effect (.refl q) (.inl rfl) rfl (still_effect (.refl q) rfl nofun nofun)
    split at acted <;> cases acted
    · exact still_effect (.refl q) rfl nofun nofun
    next live =>
    refine take_effect (.refl q) (.inl rfl) rfl ?_
    split
    · exact still_effect (.refl q) rfl nofun nofun
    -- the thread parks on a port that its task holds
    refine { traffic := .calm none ⟨rfl, rfl, rfl⟩, right := .inl rfl, falls := nofun
             stays := .inl rfl, members := fun _ listed => .inl listed
             waiters := fun _ _ listed => .inl (mem_append_left _ listed)
             pending := fun _ _ woken => woken, owed := nofun, parks := fun x here => ?_
             detach := nofun, looks := nofun, lists := nofun
             log := fun _ _ _ _ there => .inl there }
    cases here
    exact ⟨mem_append_right _ (mem_singleton_self _), rfl, eq_false_iff.mpr live, rfl⟩
  | parked =>
    obtain ⟨r, ended, rfl⟩ := map_eq_some_iff.mp acted
    split <;> exact still_effect (.unpark ended) rfl nofun nofun
  | retiring =>
    cases acted
    exact still_effect unlinked rfl nofun nofun
  | recheck timedOut =>
    cases acted
    refine still_effect (.refl q) rfl nofun fun looks => .inr (.inr ?_)
    cases named : RecvCall.names q ⟨space, name, bufSize, timeout, polls, .recheck timedOut⟩ with
    | true => rfl
    | false =>
      rw [named] at looks
      cases looks
  | relook timedOut moved =>
    dsimp only at acted
    split at acted
    · cases acted
      exact still_effect unlinked rfl nofun nofun
    next stays =>
    have mine : (RecvStage.relook timedOut moved).looks = true ∨ q.pDead = true := by
      cases moved with
      | false => exact .inl rfl
      | true => exact .inr (by simpa [PortState.unbindWaiter] using stays)
    split at acted <;> cases acted
    · exact take_effect unlinked mine rfl (still_effect unlinked rfl nofun nofun)
    · exact still_effect unlinked rfl nofun fun _ => mine.imp_right .inl
  | deliver m sendWaiter =>
    cases acted
    cases sendWaiter <;>
      exact Steady.deliver.effect PortState.deliver_traffic nofun rfl nofun nofun nofun nofun
  | wake t rv =>
    cases acted
    exact still_effect (.wake q t) rfl nofun nofun
  | done rv | retired => cases acted

end RecvCall

/-! ### Sets and the right itself -/

theorem SetRecvCall.act_effect (c : SetRecvCall) {r : PortState × SetRecvStage}
    (acted : c.act chance self q = some r) :
    Effect self q r.1 (.setRecv c) (.setRecv { c with stage := r.2 }) := by
  unfold act at acted
  obtain ⟨set, bufSize, timeout, stage⟩ := c
  have plain : ∀ {c : SetRecvCall} {r : PortState × SetRecvStage}, Still self q r.1 →
      r.2.holding c.bufSize = c.stage.holding c.bufSize →
      Effect self q r.1 (.setRecv c) (.setRecv { c with stage := r.2 }) := fun still hand =>
    still.effect hand nofun rfl nofun nofun nofun nofun
  have same : Still self q q := .refl q
  have unlinked : Still self q (q.unbindSetWaiter set self) := { same with }
  cases stage with
  | scan =>
    dsimp only at acted
    split at acted
    · cases acted
      exact plain (r := (_, _)) same rfl
    split at acted
    next member =>
      split at acted <;> cases acted
      next found =>
        exact .dequeue same found (.inr (.inr ⟨set, member, rfl⟩)) rfl rfl rfl rfl rfl rfl rfl rfl
      · exact plain (r := (_, _)) same rfl
    · cases acted
      exact plain (r := (_, _)) same rfl
  | park =>
    dsimp only at acted
    split at acted
    · cases acted
      exact plain (r := (_, _)) same rfl
    split at acted <;> cases acted
    · exact plain (r := (_, _)) same rfl
    · exact plain (r := (_, _)) { same with } rfl
  | parked =>
    obtain ⟨r, ended, rfl⟩ := map_eq_some_iff.mp acted
    split <;> exact plain (r := (r.1, _)) (.unpark ended) rfl
  | retiring =>
    cases acted
    exact plain (r := (_, _)) unlinked rfl
  | unlink timedOut =>
    cases acted
    cases timedOut <;> exact plain (r := (_, _)) unlinked rfl
  | deliver m sendWaiter =>
    cases acted
    cases sendWaiter <;>
      exact Steady.deliver.effect PortState.deliver_traffic nofun rfl nofun nofun nofun nofun
  | wake t rv =>
    cases acted
    exact plain (r := (_, _)) (.wake q t) rfl
  | done rv | retired => cases acted

theorem SetCall.act_effect (c : SetCall) {r : PortState × SetStage} (acted : c.act q = some r) :
    Effect self q r.1 (.set c) (.set { c with stage := r.2 }) := by
  unfold act at acted
  obtain ⟨set, portName, removes, stage⟩ := c
  cases stage with
  | resolve =>
    cases acted
    split
    next named =>
      refine (Still.refl q).effect rfl nofun rfl nofun nofun nofun fun x here => .inr ?_
      simp only [PortWork.lists, ite_none_right_eq_some] at here
      cases here.2
      exact named
    · exact (Still.refl q).effect rfl nofun rfl nofun nofun nofun (by simp [PortWork.lists])
  | first =>
    dsimp only at acted
    split at acted
    next removes =>
      split at acted <;> cases acted
      · exact Still.effect { Still.refl q with members := fun _ => mem_of_mem_erase } rfl nofun rfl
          nofun nofun nofun
          (by simp [PortWork.lists, removes])
      · exact (Still.refl q).effect rfl nofun rfl nofun nofun nofun (by simp [PortWork.lists])
    next inserts =>
    split at acted <;> cases acted
    · exact (Still.refl q).effect rfl nofun rfl nofun nofun nofun (by simp [PortWork.lists])
    · refine Still.effect { Still.refl q with } rfl nofun rfl nofun nofun nofun fun x here =>
        .inl ?_
      simpa [PortWork.lists] using here
  | second =>
    dsimp only at acted
    split at acted <;> cases acted
    · exact Still.effect { Still.refl q with } rfl nofun rfl nofun nofun nofun
        (by simp [PortWork.lists])
    next inserts =>
    refine { traffic := .calm none ⟨rfl, rfl, rfl⟩, right := .inl rfl, falls := nofun
             stays := .inl rfl, members := fun set listed => ?_
             waiters := fun _ _ listed => .inl listed, pending := fun _ _ woken => woken
             owed := nofun, parks := nofun, detach := nofun, looks := nofun
             lists := by simp [PortWork.lists], log := fun _ _ _ _ there => .inl there }
    rcases mem_cons.mp listed with rfl | before
    · exact .inr ⟨portName, by simp [PortWork.lists, inserts]⟩
    · exact .inl before
  | done rv => cases acted

theorem MoveCall.act_effect (c : MoveCall) {r : PortState × MoveStage} (acted : c.act q = some r) :
    Effect self q r.1 (.move c) (.move { c with stage := r.2 }) := by
  unfold act at acted
  have same : ∀ stage, Effect self q q (.move c) (.move { c with stage := stage }) := fun stage =>
    (Still.refl q).effect rfl nofun rfl nofun nofun nofun nofun
  generalize c.stage = place at acted
  cases place with
  | resolve | check =>
    cases acted
    exact same _
  | unbind =>
    dsimp only at acted
    split at acted <;> cases acted
    next named =>
      exact .transfer rfl (.inl rfl) nofun (.inr (by simp [named])) rfl rfl nofun rfl rfl
    · exact same _
  | done rv => cases acted

theorem DropCall.act_effect (c : DropCall) {r : PortState × DropStage}
    (acted : c.act chance q = some r) :
    Effect self q r.1 (.drop c) (.drop { c with stage := r.2 }) := by
  unfold act at acted
  obtain ⟨space, name, stage⟩ := c
  cases stage with
  | unbind =>
    dsimp only at acted
    split at acted <;> cases acted
    next named =>
      have placed : q.receive ≠ .falling := by simp [named]
      exact .transfer rfl (.inr (.inl ⟨rfl, rfl⟩)) (fun _ => ⟨placed, rfl⟩) (.inr placed) rfl rfl
        (fun _ => rfl) rfl rfl
    · exact (Still.refl q).effect rfl nofun rfl nofun nofun nofun nofun
  | divert =>
    dsimp only at acted
    split at acted <;> cases acted
    · exact .detached (.calm none ⟨rfl, rfl, rfl⟩) (.inl rfl) (fun _ => ⟨rfl, rfl⟩) rfl rfl rfl
        (List.Subset.refl _) rfl
        rfl rfl rfl
    · exact Still.effect { Still.refl q with } rfl nofun rfl (fun _ => rfl) (fun _ => rfl) nofun
        nofun
  | leaveDiverted set waiters =>
    cases acted
    exact Still.leaveSet.effect rfl (fun _ owed => .inl owed) rfl
      nofun (fun _ => rfl) nofun nofun
  | wakeDiverted waiters =>
    cases waiters with
    | nil =>
      cases acted
      exact (Still.refl q).effect rfl nofun rfl nofun
        (fun _ => rfl) nofun nofun
    | cons t rest =>
      cases acted
      exact (Still.wake q t).effect rfl (fun _ => Still.owed_wake) rfl nofun (fun _ => rfl)
        nofun nofun
  | post =>
    dsimp only at acted
    split at acted <;> cases acted
    · exact (Still.refl q).effect rfl nofun rfl (fun _ => rfl) (fun _ => rfl) nofun nofun
    · exact .transfer rfl (.inl rfl) nofun (.inl rfl) rfl rfl nofun
        rfl rfl
  | die =>
    cases acted
    exact .detached (.died none rfl rfl) (.inr rfl) nofun rfl rfl rfl (subset_append_left _ _)
      rfl rfl rfl rfl
  | wakeDead set waiters =>
    cases waiters with
    | nil =>
      cases acted
      exact (Still.refl q).effect rfl nofun rfl nofun nofun nofun nofun
    | cons t rest =>
      cases acted
      exact (Still.wake q t).effect rfl (fun _ => Still.owed_wake) rfl nofun nofun nofun nofun
  | leaveDead set =>
    cases acted
    exact Still.leaveSet.effect rfl nofun rfl nofun nofun nofun nofun
  | done rv => cases acted

theorem PortWork.step_effect (stepped : w.step chance self q = some (q', w')) :
    Effect self q q' w w' := by
  cases w with
  | send c | recv c | setRecv c | set c | move c | drop c =>
    obtain ⟨r, acted, made⟩ := map_eq_some_iff.mp stepped
    cases made
    exact c.act_effect acted
  | accept space name =>
    rw [step] at stepped
    split at stepped
    next carried =>
      have placed : q.receive ≠ .falling := by simp [carried]
      have unnamed : ∀ sp name, q.receive ≠ .named sp name := by simp [carried]
      split at stepped <;> cases stepped
      · exact .transfer rfl (.inr (.inr unnamed)) (fun _ => ⟨placed, rfl⟩) (.inr placed) rfl rfl
          (absurd · false_ne_true) rfl rfl
      · exact .transfer rfl (.inr (.inr unnamed)) (absurd · false_ne_true) (.inr placed) rfl rfl
          (absurd · false_ne_true) rfl rfl
    · cases stepped
  | unsent =>
    rw [step] at stepped
    split at stepped <;> cases stepped
    next alone =>
      simp only [and_eq_true, List.isEmpty_iff] at alone
      exact .detached (.died none rfl alone.1.2) (.inl rfl) (absurd · false_ne_true) rfl rfl rfl
        (List.Subset.refl _) rfl rfl rfl rfl
    · exact (Still.refl q).effect_of_rest rfl (by simp [owes]) rfl rfl rfl rfl rfl
  | wakeUnsent waiters =>
    cases waiters with
    | nil =>
      cases stepped
      exact (Still.refl q).effect_of_rest rfl (by simp [owes]) rfl rfl rfl rfl rfl
    | cons t rest =>
      cases stepped
      exact (Still.wake q t).effect_of_rest rfl (fun _ => Still.owed_wake) rfl rfl rfl rfl rfl
  | watch space name =>
    cases stepped
    split <;> exact (Still.refl q).effect_of_rest rfl (by simp [owes]) rfl rfl rfl rfl rfl
  | arm =>
    cases stepped
    exact Still.effect_of_rest { Still.refl q with } rfl (by simp [owes]) rfl rfl rfl rfl rfl
  | idle => cases stepped

end Style9.Mach
