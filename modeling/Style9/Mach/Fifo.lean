import Mathlib.Data.Fin.VecNotation
import Style9.Mach.Traffic

/-!
# The queue of a port is first in, first out

The queue behaves like a FIFO in which a receive with too small a buffer never happened, as long as
no message is taken while another receive holds one that it is going to put back: such a receive
gives up the lock in between, and the message it puts at the head may be older or younger than what
is there by then.
-/
namespace Style9.Mach

open Style9.Lib List Multiset Nat

variable {q q' : PortState}

/-! ### The order -/

/-- The message in hand, as one that will go back or as one that will not. -/
def handOf : Option (Mail × Bool) → Multiset Mail × Multiset Mail
  | some (m, false) => ({m}, 0)
  | some (m, true) => (0, {m})
  | none => (0, 0)

/-- The messages appended are those that were taken to be kept, one that some receive is about to
put back, and those in the queue, in this order; what was delivered and what is on its way was
taken. -/
structure InOrder (q : PortState) (hands : Multiset Mail × Multiset Mail) : Prop where
  order : ∃ back : List Mail, back.length ≤ 1 ∧ (back : Multiset Mail) = hands.1 ∧
    q.queued = q.taken ++ (back ++ q.pQueue)
  numbered : q.queued.map Mail.serial = List.range q.queued.length
  kept : (q.delivered : Multiset Mail) + hands.2 ≤ (q.taken : Multiset Mail)

section

variable {e : PortEvent}

theorem PortState.queued_of_log (log : q'.log = e :: q.log) : q'.queued = q.queued ++ e.adds := by
  simp [queued, log]

theorem PortState.taken_of_log (log : q'.log = e :: q.log) : q'.taken = q.taken ++ e.takes := by
  simp [taken, log]

theorem PortState.delivered_of_log (log : q'.log = e :: q.log) :
    q'.delivered = q.delivered ++ e.gives := by
  simp [delivered, log]

end

namespace InOrder

variable {hands rest : Multiset Mail × Multiset Mail} {hand hand' : Option (Mail × Bool)}

theorem of_unmoved (inv : InOrder q hands) (calm : Unmoved q q') : InOrder q' hands := by
  have queued : q'.queued = q.queued := by rw [PortState.queued, calm.log, PortState.queued]
  have taken : q'.taken = q.taken := by rw [PortState.taken, calm.log, PortState.taken]
  have delivered : q'.delivered = q.delivered := by
    rw [PortState.delivered, calm.log, PortState.delivered]
  refine ⟨?_, ?_, ?_⟩
  · rw [queued, taken, calm.queue]
    exact inv.order
  · rw [queued]
    exact inv.numbered
  · rw [delivered, taken]
    exact inv.kept

theorem of_event {e : PortEvent} (inv : InOrder q hands) (back : List Mail)
    (log : q'.log = e :: q.log)
    (short : back.length ≤ 1) (inHand : (back : Multiset Mail) = (handOf hand' + rest).1)
    (order : q.queued ++ e.adds = q.taken ++ (e.takes ++ (back ++ q'.pQueue)))
    (numbered : e.adds.map Mail.serial = List.range' q.queued.length e.adds.length)
    (kept : (q.delivered : Multiset Mail) + ((e.gives : Multiset Mail) + (handOf hand' + rest).2) ≤
      (q.taken : Multiset Mail) + (e.takes : Multiset Mail)) :
    InOrder q' (handOf hand' + rest) := by
  refine ⟨⟨back, short, inHand, ?_⟩, ?_, ?_⟩
  · rw [PortState.queued_of_log log, PortState.taken_of_log log, order, append_assoc]
  · have joined : range' 0 q.queued.length ++ range' (0 + q.queued.length) e.adds.length = _ :=
      range'_append_1
    rw [zero_add] at joined
    rw [PortState.queued_of_log log, map_append, inv.numbered, numbered, length_append,
      range_eq_range', range_eq_range', joined]
  · rw [PortState.delivered_of_log log, PortState.taken_of_log log, ← coe_add, ← coe_add, add_assoc]
    exact kept

/-- A step of one call keeps the order, if no other call stands ready to put a message back when it
takes one. -/
theorem step (inv : InOrder q (handOf hand + rest)) (traffic : Traffic q q' hand hand')
    (live : q'.pDead = false)
    (alone : hand = none → hand' ≠ none → rest.1 = 0) : InOrder q' (handOf hand' + rest) := by
  obtain ⟨back, short, inHand, order⟩ := inv.order
  have kept := inv.kept
  cases traffic with
  | calm _ calm => exact inv.of_unmoved calm
  | queued m live serial log queue dead =>
    refine inv.of_event back log short inHand ?_ ?_ ?_
    · rw [order, queue]
      simp [PortEvent.adds, PortEvent.takes]
    · simp [PortEvent.adds, serial]
    · simpa [PortEvent.gives, PortEvent.takes] using kept
  | dequeued m into fits log queue dead =>
    have none := alone rfl (by simp)
    have empty : back = [] := by simpa [handOf, none] using inHand
    rw [empty, queue] at order
    cases fits with
    | false =>
      -- the message only left for a while
      refine inv.of_event [m] log le_rfl (by simp [handOf, none]) ?_ (by simp [PortEvent.adds]) ?_
      · simpa [PortEvent.adds, PortEvent.takes] using order
      · simpa [PortEvent.gives, PortEvent.takes, handOf] using kept
    | true =>
    refine inv.of_event [] log (zero_le _) (by simp [handOf, none]) ?_ (by simp [PortEvent.adds]) ?_
    · simpa [PortEvent.adds, PortEvent.takes] using order
    · rw [show (handOf (some (m, true)) + rest).2 = rest.2 + {m} from add_comm _ _]
      have others : (q.delivered : Multiset Mail) + rest.2 ≤ q.taken := by simpa [handOf] using kept
      simpa [PortEvent.gives, PortEvent.takes, add_assoc] using add_le_add others (le_refl {m})
  | returned m log queue dead =>
    have none : rest.1 = 0 := by
      have size : back.length = Multiset.card rest.1 + 1 := by
        simpa [handOf] using congrArg Multiset.card inHand
      exact card_eq_zero.mp (by omega)
    have whole : back = [m] := by
      have same : (back : Multiset Mail) = ([m] : List Mail) := by simpa [handOf, none] using inHand
      exact perm_singleton.mp (coe_eq_coe.mp same)
    rw [whole] at order
    refine inv.of_event [] log (zero_le _) (by simp [handOf, none]) ?_ (by simp [PortEvent.adds]) ?_
    · simpa [PortEvent.adds, PortEvent.takes, queue] using order
    · simpa [PortEvent.gives, PortEvent.takes, handOf] using kept
  | delivered m log queue dead =>
    refine inv.of_event back log short inHand ?_ (by simp [PortEvent.adds]) ?_
    · simpa [PortEvent.adds, PortEvent.takes, queue] using order
    · simpa [PortEvent.gives, PortEvent.takes, handOf] using kept
  | destroyed m calm =>
    refine of_unmoved ⟨⟨back, short, inHand, order⟩, inv.numbered, le_trans ?_ kept⟩ calm
    exact add_le_add le_rfl (add_le_add (Multiset.zero_le _) le_rfl)
  | died _ dead _ => exact absurd (dead.symm.trans live) (by decide)

end InOrder

/-! ### Runs -/

/-- The call is about to put a message back. -/
def PortWork.returns (w : PortWork) : Bool := w.holding.any fun held => !held.2

variable {n : Nat} {s s' : PortRun n}

/-- A step takes a message off the queue only when no call is about to put one back. -/
def Uncrossed (s : PortRun n) (e : Fin n × Chance) (s' : PortRun n) : Prop :=
  (s.pc e.1).holding = none → (s'.pc e.1).holding ≠ none → ∀ j, (s.pc j).returns = false

instance (s : PortRun n) (e : Fin n × Chance) (s' : PortRun n) : Decidable (Uncrossed s e s') := by
  unfold Uncrossed
  infer_instance

def hands (w : PortWork) : Multiset Mail × Multiset Mail := handOf w.holding

def Ordered (q : PortState) (held : Multiset Mail × Multiset Mail) : Prop :=
  q.pDead = false → InOrder q held

theorem hands_fst_of_returns {w : PortWork} (keeps : w.returns = false) : (hands w).1 = 0 := by
  unfold hands
  unfold PortWork.returns at keeps
  rcases held : w.holding with _ | ⟨m, _ | _⟩ <;> rw [held] at keeps
  · rfl
  · cases keeps
  · rfl

theorem hands_fresh {w : PortWork} (fresh : w.fresh = true) : hands w = 0 := by
  unfold hands
  cases w with
  | recv c =>
    have place := of_decide_eq_true fresh
    rw [PortWork.holding, place]
    rfl
  | setRecv c =>
    have place := of_decide_eq_true fresh
    rw [PortWork.holding, place]
    rfl
  | _ => rfl

theorem Ordered.step {e : Fin n × Chance} (ordered : Ordered s.shared (s.total hands))
    (taken : portNext s e = some s')
    (uncrossed : Uncrossed s e s') : Ordered s'.shared (s'.total hands) := by
  obtain ⟨w', stepped, moved⟩ := Threads.next_eq_some_iff.mp taken
  have traffic := (PortWork.step_effect stepped).traffic
  have here : s'.pc e.1 = w' := by rw [moved, Function.update_self]
  rw [Threads.total_eq hands s e.1] at ordered
  rw [Threads.total_update hands moved]
  intro live
  refine (ordered (traffic.live live)).step traffic live fun empty full => ?_
  -- what the others hold is nothing that will go back
  unfold Uncrossed at uncrossed
  rw [here] at uncrossed
  have keep := uncrossed empty full
  unfold Threads.rest
  rw [Prod.fst_sum]
  exact Finset.sum_eq_zero fun j _ => hands_fst_of_returns (keep j)

/-- In every run in which no message is taken while a receive is about to put one back, as long as
the port lives: no message is delivered twice, the messages delivered were taken in the order in
which they were appended, and what a receive with too small a buffer leaves is the queue as it would
be without it. -/
theorem delivery_in_order {s₀ : PortRun n} (begins : s₀.Begins) (run : Runs portNext Uncrossed s₀ s)
    (live : s.shared.pDead = false) :
    s.shared.delivered.Nodup ∧ s.shared.delivered ⊆ s.shared.taken ∧
      s.shared.taken <+: s.shared.queued ∧
      s.shared.queued.Nodup ∧
      (∀ i m, (s.pc i).holding = some (m, false) →
        s.shared.queued = s.shared.taken ++ m :: s.shared.pQueue) ∧
      ((∀ i, (s.pc i).returns = false) → s.shared.queued = s.shared.taken ++ s.shared.pQueue) := by
  have start : Ordered s₀.shared (s₀.total hands) := by
    obtain ⟨⟨space, name, wakes, created⟩, fresh⟩ := begins
    have none : s₀.total hands = 0 := Finset.sum_eq_zero fun i _ => hands_fresh (fresh i)
    rw [none, created]
    exact fun _ => ⟨⟨[], zero_le _, rfl, rfl⟩, rfl, le_rfl⟩
  have inv := run.invariant (P := fun s => Ordered s.shared (s.total hands)) start
    (fun s e s' ordered taken uncrossed => ordered.step taken uncrossed) live
  obtain ⟨back, short, inHand, order⟩ := inv.order
  have distinct : s.shared.queued.Nodup := by
    refine List.Nodup.of_map Mail.serial ?_
    rw [inv.numbered]
    exact nodup_range
  have first : s.shared.taken <+: s.shared.queued := ⟨_, order.symm⟩
  have given := (Multiset.le_add_right _ _).trans inv.kept
  refine ⟨?_, ?_, first, distinct, fun i m held => ?_, fun keep => ?_⟩
  · exact (coe_nodup.mp (nodup_of_le given (coe_nodup.mpr (distinct.sublist first.sublist))))
  · exact fun m delivered => mem_coe.mp (mem_of_le given (mem_coe.mpr delivered))
  · -- at most one message is to be put back, so it is this one
    have mine : m ∈ back := by
      rw [← mem_coe, inHand, Threads.total_eq hands s i, Prod.fst_add, mem_add]
      left
      rw [hands, held]
      exact Multiset.mem_singleton_self m
    obtain ⟨other, rfl⟩ : ∃ other, back = [other] :=
      length_eq_one_iff.mp (le_antisymm short (length_pos_of_mem mine))
    obtain rfl := List.mem_singleton.mp mine
    exact order
  have empty : back = [] := by
    rw [Threads.total, Prod.fst_sum, Finset.sum_eq_zero fun i _ => hands_fst_of_returns (keep i)]
      at inHand
    exact (coe_eq_zero back).mp inHand
  rw [empty] at order
  exact order

/-! ### Two receives that put back -/

def sendOf (mSize : Nat) : PortWork := .send ⟨mSize, .bounded, .forever, .reserve⟩

/-- A poll of the name the port has in `PortState.created 1 1`. -/
def pollOf (bufSize : Nat) : PortWork := .recv ⟨1, 1, bufSize, .none, true, .resolve⟩

def smallThenLarge : PortRun 4 :=
  ⟨.created 1 1, ![sendOf 40, sendOf 30, pollOf 32, .recv ⟨1, 1, 64, .forever, false, .resolve⟩]⟩

/-- The second message comes while the poll has the first one in hand. -/
theorem delivery_in_order_two :
    ∃ s, Runs portNext Uncrossed smallThenLarge s ∧ s.shared.pDead = false ∧
    s.shared.delivered = [⟨0, 40⟩] ∧ s.shared.pQueue = [⟨1, 30⟩] ∧
      s.shared.taken <+: s.shared.queued := by
  obtain ⟨s, run, live, delivered, queue⟩ : ∃ s, Runs portNext Uncrossed smallThenLarge s ∧
    s.shared.pDead = false ∧
      s.shared.delivered = [⟨0, 40⟩] ∧ s.shared.pQueue = [⟨1, 30⟩] :=
    Runs.exists_of_follow (goes [0, 0, 0, 0, 2, 2, 1, 1, 1, 1, 2, 3, 3, 3]) (by decide +kernel)
  have begins : smallThenLarge.Begins := ⟨⟨1, 1, ∅, rfl⟩, by decide⟩
  exact ⟨s, run, live, delivered, queue, (delivery_in_order begins run live).2.2.1⟩

def smallSmall : PortRun 6 :=
  ⟨.created 1 1, ![sendOf 40, sendOf 40, pollOf 32, pollOf 32, pollOf 64, pollOf 64]⟩

/-- Two polls with small buffers take one message each and put them back in the order in which they
took them. The queue is then the other way round, and so are the deliveries. -/
theorem messages_change_places :
    smallSmall.Begins ∧ ∃ s, Runs portNext (fun _ _ _ => True) smallSmall s ∧
    s.shared.pDead = false ∧ s.shared.queued = [⟨0, 40⟩, ⟨1, 40⟩] ∧
      s.shared.taken = [⟨1, 40⟩, ⟨0, 40⟩] ∧
    s.shared.delivered = [⟨1, 40⟩, ⟨0, 40⟩] :=
  ⟨⟨⟨1, 1, ∅, rfl⟩, by decide⟩, Runs.exists_of_follow
    (goes [0, 0, 0, 0, 1, 1, 1, 1, 2, 2, 3, 3, 2, 3, 4, 4, 4, 5, 5, 5]) (by decide +kernel)⟩

end Style9.Mach
