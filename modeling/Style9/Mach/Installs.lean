import Style9.Lib.Threads

/-!
# A name before its reference

`space_install` writes the entry under the lock of the space and takes the reference after it has
given the lock up; `space_install_set` does the same for a set. Meanwhile other threads can look the
name up, drop it or take rights off it. The state is that of the name and of the object it stands
for, and a step is one section under a lock. `p_refs` is the sum of the counts and of what keeps the
port in memory besides, and is not part of it.
-/
namespace Style9.Mach.Installs

open Style9.Lib List

/-- The bits of `pe_rights`. -/
inductive Kind where
  | receive
  | send
  | sendOnce
  | portSet
  deriving DecidableEq

instance : Fintype Kind := ⟨{.receive, .send, .sendOnce, .portSet}, fun k => by cases k <;> simp⟩

abbrev Mask : Type := Kind → Bool

inductive Notice where
  | noSenders
  | deadName
  deriving DecidableEq

/-- The rights under the name, none if it is free; `p_has_receive`, `p_send_count`,
`p_send_once_count` and `ps_refs`; the references that messages and other names hold; and what has
been posted. -/
structure NameState where
  peRights : Mask
  counts : Kind → Nat
  elsewhere : Kind → Nat
  posted : List Notice

/-- Where a call stands: between the two sections of an install, or with rights it has taken off
the entry and not dropped yet, before and after `port_destroyed_divert`. -/
inductive NameCall where
  | idle
  | ref (rights : Mask)
  | divert (rights : Mask)
  | deref (rights : Mask)
  | faulted
  deriving DecidableEq

/-- The call an idle thread makes; or whether the receive right is wanted elsewhere, and whether the
end of the senders has to be reported. -/
inductive Choice where
  | spaceInstall (rights : Mask)
  | spaceLookup
  | portDeallocate
  | portModRefs (right : Mask)
  | answer (yes : Bool)

def Choice.yes : Choice → Bool
  | .answer yes => yes
  | _ => false

def empty (r : Mask) : Bool := decide (∀ k, r k = false)

/-- A call up to the end of its section under `ps_lock`. An install finds another name if this one
is in use. -/
def begin (w : NameState) : Choice → Option (NameState × NameCall)
  | .spaceInstall rights =>
    if empty rights then some (w, .idle)
    else if empty w.peRights then some ({ w with peRights := rights }, .ref rights)
    else none
  | .spaceLookup => some (w, .idle)
  | .portDeallocate =>
    some (if empty w.peRights then (w, .idle)
    else ({ w with peRights := fun _ => false }, .divert w.peRights))
  | .portModRefs right =>
    some (if w.peRights .portSet || empty fun k => w.peRights k && right k then (w, .idle)
    else ({ w with peRights := fun k => w.peRights k && !right k },
      .divert fun k => k != .portSet && right k))
  | .answer _ => none

/-- What `port_deref` posts with these counts left. -/
def notices (counts : Kind → Nat) (rights : Mask) (armed : Bool) : List Notice :=
  (if rights .receive then [.deadName] else []) ++
    if (rights .send || rights .sendOnce) && counts .send == 0 && counts .sendOnce == 0 &&
        counts .receive != 0 && armed then
      [.noSenders]
    else []

/-- A second receive right stops the machine; a count that is zero already faults. -/
def step (choice : Choice) (w : NameState) : NameCall → Option (NameState × NameCall)
  | .idle => begin w choice
  | .ref rights =>
    if rights .receive && w.counts .receive != 0 then none
    else some ({ w with counts := fun k => w.counts k + (rights k).toNat }, .idle)
  | .divert rights =>
    some (if rights .receive && choice.yes then
      ({ w with elsewhere := fun k => w.elsewhere k + if k = .receive then 1 else 0 },
        .deref fun k => if k = .receive then false else rights k)
    else (w, .deref rights))
  | .deref rights =>
    some (if ∃ k, rights k = true ∧ w.counts k = 0 then (w, .faulted)
    else
      let counts := fun k => w.counts k - (rights k).toNat
      ({ w with counts := counts, posted := notices counts rights choice.yes ++ w.posted }, .idle))
  | .faulted => none

abbrev State (n : Nat) : Type := Threads n NameState NameCall

def next {n : Nat} (s : State n) (e : Fin n × Choice) : Option (State n) :=
  Threads.next (step e.2) s e.1

/-- References a call still has to drop, less those it still has to take. -/
def NameCall.owes : NameCall → Kind → Int
  | .ref r, k => -(r k).toNat
  | .divert r, k | .deref r, k => (r k).toNat
  | .idle, _ | .faulted, _ => 0

/-- The name is there and its reference is not. -/
def NameCall.early : NameCall → Bool
  | .ref _ => true
  | _ => false

/-- A step after which nobody finds the name before its reference: an install goes on to take it. -/
def turn {n : Nat} (s : State n) (e : Fin n × Choice) : Option (State n) :=
  (next s e).bind fun s' => if (s'.pc e.1).early then next s' e else some s'

/-- No more is taken off the entry than it has. -/
def orderly {n : Nat} (s : State n) (e : Fin n × Choice) : Bool :=
  match s.pc e.1, e.2 with
  | .idle, .portModRefs right => decide (∀ k, right k = true → s.shared.peRights k = true)
  | _, _ => true

/-- No call has faulted, and the counts are what is named, held elsewhere and owed. -/
structure Sound {n : Nat} (s : State n) : Prop where
  fine : ∀ i, s.pc i ≠ .faulted
  single : s.shared.counts .receive ≤ 1
  paid : ∀ k, (s.shared.counts k : Int) =
    s.shared.elsewhere k + (s.shared.peRights k).toNat + s.total NameCall.owes k

variable {n : Nat} {s s' : State n} {e : Fin n × Choice} {w w' : NameState} {a b : NameCall}
  {c : Choice}
  {k : Kind} {rights : Mask} {notice : Notice}

def Late (s : State n) : Prop := ∀ j, (s.pc j).early = false

theorem begin_paid (taken : begin w c = some (w', b))
    (inside : ∀ right, c = .portModRefs right → ∀ k, right k = true → w.peRights k = true) :
    (w'.counts k : Int) - w'.elsewhere k - (w'.peRights k).toNat - b.owes k =
      w.counts k - w.elsewhere k - (w.peRights k).toNat := by
  cases c with
  | spaceInstall rights =>
    simp only [begin] at taken
    split_ifs at taken with nothing free <;> cases taken
    · simp [NameCall.owes]
    · simp only [empty, decide_eq_true_eq] at free
      simp [NameCall.owes, free k]
  | spaceLookup =>
    cases taken
    simp [NameCall.owes]
  | portDeallocate =>
    simp only [begin] at taken
    split_ifs at taken <;> cases taken
    · simp [NameCall.owes]
    · simp [NameCall.owes]
  | portModRefs right =>
    simp only [begin] at taken
    split_ifs at taken with stays <;> cases taken
    · simp [NameCall.owes]
    have held := inside right rfl k
    simp only [Bool.or_eq_true, not_or, Bool.not_eq_true] at stays
    by_cases port : k = .portSet
    · simp [NameCall.owes, port, stays.1]
    · cases here : right k <;> simp [NameCall.owes, here] at held ⊢
      simp [held, bne_iff_ne.mpr port]
  | answer yes => cases taken

theorem step_paid (taken : step c w a = some (w', b)) (fine : b ≠ .faulted)
    (inside : ∀ right, a = .idle → c = .portModRefs right →
      ∀ k, right k = true → w.peRights k = true) :
    (w'.counts k : Int) - w'.elsewhere k - (w'.peRights k).toNat - b.owes k =
      w.counts k - w.elsewhere k - (w.peRights k).toNat - a.owes k := by
  cases a with
  | idle => simpa [NameCall.owes] using begin_paid (k := k) taken fun right => inside right rfl
  | ref rights =>
    simp only [step] at taken
    split_ifs at taken
    cases taken
    simp only [NameCall.owes]
    omega
  | divert rights =>
    simp only [step] at taken
    split_ifs at taken with wanted <;> cases taken
    · simp only [Bool.and_eq_true] at wanted
      by_cases here : k = .receive
      · simp only [NameCall.owes, here, wanted.1, if_true, Bool.toNat_true, Bool.toNat_false]
        omega
      · simp [NameCall.owes, here]
    · rfl
  | deref rights =>
    simp only [step] at taken
    split_ifs at taken with short <;> cases taken
    · exact absurd rfl fine
    have enough : (rights k).toNat ≤ w.counts k := by
      cases here : rights k with
      | false => exact Nat.zero_le _
      | true => exact Nat.pos_of_ne_zero fun zero => short ⟨k, here, zero⟩
    simp only [NameCall.owes]
    omega
  | faulted => cases taken

/-- Only a drop of references can fault, and only it posts. -/
theorem step_cases (taken : step c w a = some (w', b)) :
    (∃ rights, a = .deref rights ∧ ((∃ k, rights k = true ∧ w.counts k = 0) ∨
      b = .idle ∧ (∀ k, w'.counts k = w.counts k - (rights k).toNat) ∧
        w'.posted = notices w'.counts rights c.yes ++ w.posted)) ∨
    b ≠ .faulted ∧ w'.posted = w.posted ∧ (w.counts .receive ≤ 1 → w'.counts .receive ≤ 1) := by
  cases a with
  | deref rights =>
    simp only [step] at taken
    split_ifs at taken with short <;> cases taken
    · exact .inl ⟨rights, rfl, .inl short⟩
    · exact .inl ⟨rights, rfl, .inr ⟨rfl, fun _ => rfl, rfl⟩⟩
  | idle =>
    right
    cases c <;> simp only [step, begin] at taken
    all_goals try split_ifs at taken
    all_goals cases taken
    all_goals exact ⟨nofun, rfl, id⟩
  | ref rights =>
    right
    simp only [step] at taken
    split_ifs at taken with twice
    cases taken
    refine ⟨nofun, rfl, fun single => ?_⟩
    cases here : rights .receive <;> simp_all
  | divert rights =>
    right
    simp only [step] at taken
    split_ifs at taken <;> cases taken
    all_goals exact ⟨nofun, rfl, id⟩
  | faulted => cases taken

theorem owes_nonneg (late : a.early = false) : 0 ≤ a.owes k := by
  cases a <;> simp_all [NameCall.owes, NameCall.early]

theorem Sound.named_le (sound : Sound s) (late : Late s) (k : Kind) :
    s.shared.elsewhere k + (s.shared.peRights k).toNat ≤ s.shared.counts k := by
  have paid := sound.paid k
  have owed : 0 ≤ s.total NameCall.owes k := by
    unfold Threads.total
    rw [Finset.sum_apply]
    exact Finset.sum_nonneg fun j _ => owes_nonneg (late j)
  omega

/-- Outside the window of an install, the counts cover what a call owes. -/
theorem Sound.covers (sound : Sound s) (late : Late s) (i : Fin n) (k : Kind) :
    (s.pc i).owes k ≤ s.shared.counts k := by
  have paid := sound.paid k
  have others : 0 ≤ s.rest NameCall.owes i k := by
    unfold Threads.rest
    rw [Finset.sum_apply]
    exact Finset.sum_nonneg fun j _ => owes_nonneg (late j)
  rw [Threads.total_eq NameCall.owes s i, Pi.add_apply] at paid
  omega

theorem Sound.enough (sound : Sound s) (late : Late s) (here : s.pc e.1 = .deref rights) :
    ¬ ∃ k, rights k = true ∧ s.shared.counts k = 0 := by
  rintro ⟨k, mine, zero⟩
  have covered := sound.covers late e.1 k
  rw [here, NameCall.owes, mine, zero, Bool.toNat_true] at covered
  omega

/-- A step keeps the counts, if references are dropped only outside the window of an install. -/
theorem Sound.kept (sound : Sound s) (moved : next s e = some s') (met : orderly s e = true)
    (late : ∀ rights, s.pc e.1 = .deref rights → Late s) : Sound s' := by
  obtain ⟨b, taken, pcs⟩ := Threads.next_eq_some_iff.mp moved
  have ⟨fine, single⟩ : b ≠ .faulted ∧ s'.shared.counts .receive ≤ 1 := by
    rcases step_cases taken with ⟨rights, here, short | ⟨rfl, counts, -⟩⟩ | ⟨fine, -, single⟩
    · exact absurd short (sound.enough (late rights here) here)
    · have before := sound.single
      have after := counts .receive
      exact ⟨nofun, by omega⟩
    · exact ⟨fine, single sound.single⟩
  have inside : ∀ right, s.pc e.1 = .idle → e.2 = .portModRefs right →
      ∀ k, right k = true → s.shared.peRights k = true := by
    intro right idle call
    simpa [orderly, idle, call] using met
  refine ⟨fun j => ?_, single, fun k => ?_⟩
  · rw [pcs, Function.update_apply]
    split
    · exact fine
    · exact sound.fine j
  have paid := sound.paid k
  have kept := step_paid (k := k) taken fine inside
  rw [Threads.total_eq NameCall.owes s e.1, Pi.add_apply] at paid
  rw [Threads.total_update NameCall.owes pcs, Pi.add_apply]
  omega

theorem Late.of_others (late : Late s) (moved : next s e = some s')
    (own : (s'.pc e.1).early = false) : Late s' := by
  obtain ⟨b, -, pcs⟩ := Threads.next_eq_some_iff.mp moved
  intro j
  by_cases mine : j = e.1
  · rw [mine, own]
  · rw [pcs, Function.update_of_ne mine]
    exact late j

/-- The rights that have to be gone when it is posted. -/
def Notice.about : Notice → List Kind
  | .noSenders => [.send, .sendOnce]
  | .deadName => [.receive]

theorem mem_notices {counts : Kind → Nat} {armed : Bool}
    (post : notice ∈ notices counts rights armed)
    (single : rights .receive = true → counts .receive = 0) : ∀ k ∈ notice.about, counts k = 0 := by
  rcases mem_append.mp post with dead | senders
  · split_ifs at dead with dropped
    · cases mem_singleton.mp dead
      simpa [Notice.about] using single dropped
    · cases dead
  split_ifs at senders with gone
  · cases mem_singleton.mp senders
    simp only [Bool.and_eq_true, beq_iff_eq] at gone
    simp [Notice.about, gone]
  · cases senders

/-- What a step posts is about rights that are named no more. -/
theorem Sound.posts (sound : Sound s) (moved : next s e = some s') (met : orderly s e = true)
    (late : ∀ rights, s.pc e.1 = .deref rights → Late s) (post : notice ∈ s'.shared.posted) :
    notice ∈ s.shared.posted ∨ ∀ k ∈ notice.about, s'.shared.peRights k = false := by
  have sound' := sound.kept moved met late
  obtain ⟨b, taken, pcs⟩ := Threads.next_eq_some_iff.mp moved
  rcases step_cases taken with ⟨rights, here, short | ⟨rfl, counts, posted⟩⟩ | ⟨-, posted, -⟩
  · exact absurd short (sound.enough (late rights here) here)
  · rw [posted, mem_append] at post
    rcases post with new | old
    · right
      intro k about
      have gone : s'.shared.counts k = 0 := by
        refine mem_notices new (fun dropped => ?_) k about
        have before := sound.single
        have after := counts .receive
        rw [dropped, Bool.toNat_true] at after
        omega
      have covered :=
        sound'.named_le ((late rights here).of_others moved (by simp [pcs, NameCall.early])) k
      cases named : s'.shared.peRights k with
      | false => rfl
      | true => simp [named, gone] at covered
    · exact .inl old
  · exact .inl (posted ▸ post)

/-- The two sections of an install, or the one of anything else. -/
theorem turn_kept (sound : Sound s) (late : Late s) (moved : turn s e = some s')
    (met : orderly s e = true) : Sound s' ∧ Late s' ∧ ∀ notice ∈ s'.shared.posted,
      notice ∈ s.shared.posted ∨ ∀ k ∈ notice.about, s'.shared.peRights k = false := by
  obtain ⟨t, first, second⟩ := Option.bind_eq_some_iff.mp moved
  have sound' := sound.kept first met fun _ _ => late
  split at second
  next early =>
    obtain ⟨rights, ref⟩ : ∃ rights, t.pc e.1 = .ref rights := by
      cases here : t.pc e.1 <;> simp_all [NameCall.early]
    have apart : ∀ rights, t.pc e.1 = .deref rights → Late t :=
      fun _ here => by cases ref.symm.trans here
    have met' : orderly t e = true := by simp [orderly, ref]
    obtain ⟨b, taken, pcs⟩ := Threads.next_eq_some_iff.mp second
    obtain ⟨rfl, named, posted⟩ : b = .idle ∧ s'.shared.peRights = t.shared.peRights ∧
        s'.shared.posted = t.shared.posted := by
      rw [ref, step] at taken
      split_ifs at taken
      obtain ⟨shared, idle⟩ := Prod.mk.inj (Option.some.inj taken)
      exact ⟨idle.symm, by rw [← shared], by rw [← shared]⟩
    refine ⟨sound'.kept second met' apart, fun j => ?_, fun notice post => ?_⟩
    · by_cases mine : j = e.1
      · rw [mine, pcs, Function.update_self]
        rfl
      obtain ⟨_, -, pcs'⟩ := Threads.next_eq_some_iff.mp first
      rw [pcs, Function.update_of_ne mine, pcs', Function.update_of_ne mine]
      exact late j
    · rw [named]
      exact sound.posts first met (fun _ _ => late) (posted ▸ post)
  next done =>
    cases second
    exact ⟨sound', late.of_others first (Bool.eq_false_of_not_eq_true done),
      fun notice post => sound.posts first met (fun _ _ => late) post⟩

/-- As long as an install takes its reference before anybody else finds the name, and no more is
taken off the entry than it has: the counts include the entry in every state, no count falls below
zero, what is posted is about rights that are not named, and when all calls are done the counts are
what is named and held elsewhere. -/
theorem published_name_paid (n : Nat) (s₀ s : State n) (idle : ∀ i, s₀.pc i = .idle)
    (single : s₀.shared.counts .receive ≤ 1)
    (paid : ∀ k, s₀.shared.counts k = s₀.shared.elsewhere k + (s₀.shared.peRights k).toNat)
    (run : Runs turn (fun s e _ => orderly s e = true) s₀ s) : (∀ i, s.pc i ≠ .faulted) ∧
    (∀ k, s.shared.elsewhere k + (s.shared.peRights k).toNat ≤ s.shared.counts k) ∧
    (∀ e s', turn s e = some s' → orderly s e = true → ∀ notice ∈ s'.shared.posted,
      notice ∈ s.shared.posted ∨ ∀ k ∈ notice.about, s'.shared.peRights k = false) ∧
    ((∀ i, s.pc i = .idle) →
      ∀ k, s.shared.counts k = s.shared.elsewhere k + (s.shared.peRights k).toNat) := by
  obtain ⟨sound, late⟩ : Sound s ∧ Late s := by
    refine run.invariant (P := fun s => Sound s ∧ Late s) ?_ fun _ _ _ kept moved met => ?_
    · refine ⟨⟨fun i => ?_, single, fun k => ?_⟩, fun i => ?_⟩
      · rw [idle i]
        nofun
      · simp [Threads.total, idle, NameCall.owes, paid]
      · rw [idle i]
        rfl
    · obtain ⟨sound, late, -⟩ := turn_kept kept.1 kept.2 moved met
      exact ⟨sound, late⟩
  refine ⟨sound.fine, sound.named_le late,
    fun e s' moved met => (turn_kept sound late moved met).2.2, fun done k => ?_⟩
  have total := sound.paid k
  simp only [Threads.total, done, NameCall.owes, Finset.sum_apply, Finset.sum_const_zero] at total
  omega

/-- A port nobody else has a right to, and two threads. -/
def fresh : State 2 := ⟨⟨fun _ => false, fun _ => 0, fun _ => 0, []⟩, fun _ => .idle⟩

/-- The first thread installs rights to receive and to send; the second takes the send right off the
name and then drops it. -/
def passed : List (Fin 2 × Choice) :=
  [(0, .spaceInstall fun k => k == .receive || k == .send), (1, .spaceLookup),
    (1, .portModRefs (· == .send)), (1, .answer false), (1, .answer true),
    (1, .portDeallocate), (1, .answer false), (1, .answer false)]

theorem published_name_paid_later : ∃ s : State 2,
    Runs turn (fun s e _ => orderly s e = true) fresh s ∧
      s.shared.posted = [.deadName, .noSenders] ∧
      (∀ i, s.pc i ≠ .faulted) ∧
      ∀ k, s.shared.counts k = s.shared.elsewhere k + (s.shared.peRights k).toNat := by
  obtain ⟨s, run, posted, idle⟩ : ∃ s, Runs turn (fun s e _ => orderly s e = true) fresh s ∧
      s.shared.posted = [.deadName, .noSenders] ∧ ∀ i, s.pc i = .idle :=
    Runs.exists_of_follow passed (by decide +kernel)
  obtain ⟨fine, -, -, done⟩ :=
    published_name_paid 2 fresh s (fun _ => rfl) (Nat.zero_le 1) (fun _ => rfl) run
  exact ⟨s, run, posted, fine, done idle⟩

/-- The name is found before the count knows of it, and dropping it then takes the count below
zero. -/
theorem name_dropped_early : ∃ s s' : State 2,
    Runs next (fun _ _ _ => True) fresh s ∧ s.shared.peRights .send = true ∧
      s.shared.counts .send = 0 ∧ Runs next (fun _ _ _ => True) s s' ∧ s'.pc 1 = .faulted := by
  have facts : ((follow next (fun _ _ _ => true) fresh [(0, .spaceInstall (· == .send))]).any
      fun s => s.shared.peRights .send && s.shared.counts .send == 0 &&
        (follow next (fun _ _ _ => true) s
          [(1, .portDeallocate), (1, .answer false), (1, .answer false)]).any
            fun s' => decide (s'.pc 1 = .faulted)) = true := by
    decide +kernel
  obtain ⟨s, first, facts⟩ := (Option.any_eq_true _ _).mp facts
  simp only [Bool.and_eq_true, beq_iff_eq] at facts
  obtain ⟨⟨named, unpaid⟩, facts⟩ := facts
  obtain ⟨s', second, faulted⟩ := (Option.any_eq_true _ _).mp facts
  exact ⟨s, s', .of_follow .start (fun _ _ _ _ => trivial) first, named, unpaid,
    .of_follow .start (fun _ _ _ _ => trivial) second, of_decide_eq_true faulted⟩

end Style9.Mach.Installs
