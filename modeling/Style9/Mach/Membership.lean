import Style9.Mach.Sets

/-!
# Members and their sets

Between its sections a call holds rights it has taken out of the table, a port it has pointed to a
set and not yet linked, or one it has unlinked and not yet cleared. `PortsOk` counts all of these
together with the table and the lists. Inserts and removes can meet in any order; only the calls
that drop a receive right or a set have to find nobody at work on what they drop.
-/
namespace Style9.Mach.Sets

open Style9.Lib Function Nat Option

/-! ### What the table and the threads hold -/

/-- A right, the name of a set, a port that points to a set and is on no list, a port that is on a
list it no longer points to, a set that is taken apart. -/
inductive Token where
  | send (p : PortId)
  | receive (p : PortId)
  | name (set : SetId)
  | limbo (p : PortId) (set : SetId)
  | leaving (p : PortId)
  | torn (set : SetId)
  deriving DecidableEq

/-- How many of each there are. -/
abbrev Tally : Type := Token → Nat

def rightTally (p : PortId) (r : Rights) : Tally
  | .send q => if p = q then r.send.toNat + r.sendOnce.toNat else 0
  | .receive q => if p = q then r.receive.toNat else 0
  | _ => 0

def nameTally (set : SetId) : Tally
  | .name set' => if set = set' then 1 else 0
  | _ => 0

def entryTally : PortEntry → Tally
  | .port p r _ => rightTally p r
  | .set set => nameTally set
  | .dead => 0

def PortSets.named (w : PortSets) : Tally := w.psTable.total fun _ entry => entryTally entry

def Leaving.tally (p : PortId) : Leaving → Tally
  | .divert r => rightTally p r
  | .die _ => 0

def SetWork.tally : SetWork → Tally
  | .insertLink set p, .limbo q set' | .removeClear set p, .limbo q set' =>
    if p = q ∧ set = set' then 1 else 0
  | .divert p r, token | .post p r, token | .deref p r, token => rightTally p r token
  | .lock _ p (.leave _), .leaving q | .walk _ p _ _ (.leave _), .leaving q =>
    if p = q then 1 else 0
  | .lock _ p (.leave why), token | .walk _ p _ _ (.leave why), token | .leaveClear p why, token =>
    why.tally p token
  | .setDeref set, token => nameTally set token
  | .detach set _, .torn set' => if set = set' then 1 else 0
  | _, _ => 0

/-! ### Members -/

/-- Which ports are on the list of a set, or were when it was taken apart and have not been
detached; and the set a port counts for, which is the one it points to or is leaving. -/
structure Plan where
  lists : SetId → List PortId
  home : PortId → Option SetId

namespace Plan

def rehome (g : Plan) (p : PortId) (home : Option SetId) : Plan :=
  { g with home := update g.home p home }

def relist (g : Plan) (set : SetId) (members : List PortId) : Plan :=
  { g with lists := update g.lists set members }

variable {g : Plan} {p q : PortId} {set set' : SetId} {home : Option SetId} {members : List PortId}

@[simp] theorem home_rehome : (g.rehome p home).home p = home := update_self _ _ _

theorem home_rehome_ne (other : q ≠ p) : (g.rehome p home).home q = g.home q :=
  update_of_ne other _ _

@[simp] theorem lists_rehome : (g.rehome p home).lists = g.lists := rfl

@[simp] theorem lists_relist : (g.relist set members).lists set = members := update_self _ _ _

theorem lists_relist_ne (other : set' ≠ set) : (g.relist set members).lists set' = g.lists set' :=
  update_of_ne other _ _

@[simp] theorem home_relist : (g.relist set members).home = g.home := rfl

theorem ne_of_home (away : g.home p = none) (there : g.home q = some set) : q ≠ p := by
  rintro rfl
  cases away.symm.trans there

theorem home_of_rehome (there : (g.rehome p none).home q = some set) :
    q ≠ p ∧ g.home q = some set := by
  have other := ne_of_home home_rehome there
  rw [home_rehome_ne other] at there
  exact ⟨other, there⟩

theorem place_homed {home home' : PortId → Option SetId} (here : home p = some set)
    (away : home' p = none)
    (others : ∀ q ≠ p, home' q = home q) (q : PortId) (set' : SetId) :
    (if home q = some set' then 1 else 0) = (if home' q = some set' then 1 else 0) + if p = q ∧
      set = set' then 1 else 0 := by
  by_cases same : q = p
  · subst same
    simp [here, away]
  · simp [others q same, Ne.symm same]

end Plan

open Plan

/-- The counters cover what the table and the threads hold, and every port that counts for a set is
on its list or in somebody's hands. -/
structure PortsOk (g : Plan) (w : PortSets) (held : Tally) : Prop where
  refs : ∀ p, w.named (.send p) + held (.send p) + (w.pHasReceive p).toNat ≤ w.pRefs p
  receive : ∀ p, w.named (.receive p) + held (.receive p) ≤ (w.pHasReceive p).toNat
  freed : ∀ p, w.pLive p = false → w.pRefs p = 0
  right : ∀ p set, g.home p = some set → 0 < w.named (.receive p) + held (.receive p) ∨
    0 < held (.leaving p)
  pointed : ∀ p, w.pSet p = if 0 < held (.leaving p) then none else g.home p
  places : ∀ p set, (if g.home p = some set then 1 else 0) =
    (g.lists set).count p + held (.limbo p set)
  homed : ∀ p set, g.home p = some set → w.pLive p = true
  names : ∀ set, w.named (.name set) + held (.name set) = w.psRefs set
  listed : ∀ set, w.psLive set = true → 0 < w.psRefs set →
    Path w.pSetLink (w.psMembersHead set) (g.lists set) none ∧
      w.psMemberCount set = (g.lists set).length
  torn : ∀ set, w.psLive set = true → w.psRefs set = 0 → w.psMemberCount set = 0 ∧
    0 < held (.torn set)
  gone : ∀ set, w.psLive set = false → w.psRefs set = 0 ∧ g.lists set = []

theorem ne_of_live {live : Nat → Bool} {i j : Nat} (here : live i = true) (there : live j = false) :
    j ≠ i := by
  rintro rfl
  cases there.symm.trans here

theorem ne_of_refs {refs : Nat → Nat} {i j : Nat} (some : 0 < refs i) (none : refs j = 0) :
    j ≠ i := by
  rintro rfl
  omega

variable {g g' : Plan} {w w' : PortSets} {held rest held' : Tally} {p q : PortId} {set : SetId}
  {a a' b : SetWork}
  {why : Leaving} {name : Name} {r : Rights}

namespace PortsOk

section

variable (ok : PortsOk g w held)
include ok

theorem alive (there : 0 < w.named (.receive p) + held (.receive p)) :
    w.pLive p = true ∧ w.pHasReceive p = true ∧ 0 < w.pRefs p := by
  have refs := ok.refs p
  have receive := ok.receive p
  have held : w.pHasReceive p = true := by
    by_contra gone
    simp only [Bool.not_eq_true] at gone
    rw [gone, Bool.toNat_false] at receive
    omega
  refine ⟨?_, held, by omega⟩
  by_contra gone
  have none := ok.freed p (by simpa using gone)
  omega

theorem setAlive (there : 0 < w.named (.name set) + held (.name set)) :
    w.psLive set = true ∧ 0 < w.psRefs set := by
  have names := ok.names set
  refine ⟨?_, by omega⟩
  by_contra gone
  have none := (ok.gone set (by simpa using gone)).1
  omega

theorem home_of_mem (listed : p ∈ g.lists set) : g.home p = some set := by
  have one := List.one_le_count_iff.mpr listed
  have places := ok.places p set
  by_contra other
  rw [if_neg other] at places
  omega

theorem nodup (set : SetId) : (g.lists set).Nodup := by
  refine List.nodup_iff_count_le_one.mpr fun p => ?_
  have places := ok.places p set
  split at places <;> omega

theorem limbo (there : 0 < held (.limbo p set)) :
    g.home p = some set ∧ ∀ set', p ∉ g.lists set' := by
  have places := ok.places p set
  have home : g.home p = some set := by
    by_contra other
    rw [if_neg other] at places
    omega
  refine ⟨home, fun set' listed => ?_⟩
  have same := some.inj (home.symm.trans (ok.home_of_mem listed))
  have count := List.one_le_count_iff.mpr listed
  rw [← same] at count
  rw [if_pos home] at places
  omega

theorem unlisted (home : g.home p = none) (set : SetId) : p ∉ g.lists set := fun listed =>
  absurd (home.symm.trans (ok.home_of_mem listed)) (by simp)

end

end PortsOk

/-! ### What a call relies on -/

def SetWork.drops : SetWork → Option PortId
  | .divert p _ | .leaveClear p _ | .post p _ | .deref p _ | .lock _ p (.leave _) | .walk _ p _ _
    (.leave _) =>
    some p
  | .finish p last => if last then some p else none
  | _ => none

/-- The set whose list a call has for itself, by the lock or because the set is gone. -/
def SetWork.grips : SetWork → Option SetId
  | .walk set _ _ _ _ | .detach set _ => some set
  | _ => none

def PortSets.HasSet (w : PortSets) (set : SetId) : Prop := 0 < w.named (.name set)

def PortSets.HasReceive (w : PortSets) (p : PortId) : Prop := 0 < w.named (.receive p)

/-- A port points to the set it counts for, and that set has a name. -/
def PortSets.Stands (w : PortSets) (g : Plan) (p : PortId) : Prop :=
  w.pSet p = g.home p ∧ ∀ set, g.home p = some set → w.HasSet set

/-- The walk has met some members and none of them was the port. -/
def Walking (g : Plan) (w : PortSets) (set : SetId) (p : PortId)
    (prev cur : Option PortId) : Prop :=
  w.psLock set = true ∧ ∃ pre post, g.lists set = pre ++ post ∧ p ∉ pre ∧ prev = pre.getLast? ∧
    Path w.pSetLink (w.psMembersHead set) pre cur ∧ Path w.pSetLink cur post none

def Leaving.Ok (w : PortSets) (p : PortId) : Leaving → Prop
  | .divert r => r.receive = true
  | .die last => w.pHasReceive p = false ∧ (last = true → w.pRefs p = 0)

theorem Leaving.Ok.congr (fine : why.Ok w p)
    (same : w'.pRefs p = w.pRefs p ∧ w'.pHasReceive p = w.pHasReceive p) : why.Ok w' p := by
  cases why with
  | divert r => exact fine
  | die last =>
    refine ⟨same.2.trans fine.1, fun isLast => ?_⟩
    rw [same.1]
    exact fine.2 isLast

def Own (g : Plan) (w : PortSets) : SetWork → Prop
  | .idle | .extractScan _ | .setDeref _ => True
  | .insertPort set _ | .removePort set _ => w.HasSet set
  | .insertMark set p | .insertLink set p | .lock set p .remove => w.HasSet set ∧ w.HasReceive p
  | .walk set p prev cur .remove => w.HasSet set ∧ w.HasReceive p ∧ Walking g w set p prev cur
  | .removeClear _ p | .extractRead p => w.HasReceive p
  | .divert p r => w.pLive p = true ∧ r.receive = true ∧ w.Stands g p
  | .deref p r => w.pLive p = true ∧ r ≠ .empty ∧ (r.receive = true → w.Stands g p)
  | .lock set p (.leave why) => w.HasSet set ∧ w.pLive p = true ∧ g.home p = some set ∧ why.Ok w p
  | .walk set p prev cur (.leave why) =>
    w.HasSet set ∧ w.pLive p = true ∧ g.home p = some set ∧ why.Ok w p ∧ Walking g w set p prev cur
  | .leaveClear p why => w.pLive p = true ∧ g.home p = none ∧ why.Ok w p
  | .post p r => w.pLive p = true ∧ g.home p = none ∧ r.receive = true
  | .finish p last =>
    last = true → w.pLive p = true ∧ w.pRefs p = 0 ∧ w.pHasReceive p = false ∧ g.home p = none
  | .detach set cur =>
    w.psLive set = true ∧ w.psRefs set = 0 ∧ Path w.pSetLink cur (g.lists set) none
  | .faulted => False

/-- Of two calls that drop references of one port, neither drops the receive right; no two have one
list for themselves. -/
def Apart (a b : SetWork) : Prop :=
  (∀ p, a.drops = some p → b.drops = some p → a.destroys = false ∧ b.destroys = false) ∧
    ∀ set, a.grips = some set → b.grips ≠ some set

theorem Apart.symm (apart : Apart a b) : Apart b a :=
  ⟨fun p first second => (apart.1 p second first).symm, fun set first second =>
    apart.2 set second first⟩

theorem no_drops (drops : a'.drops = none) (grips : a'.grips = none) (b : SetWork) : Apart a' b :=
  ⟨fun _ some => absurd (drops.symm.trans some) (by simp),
    fun _ some => absurd (grips.symm.trans some) (by simp)⟩

theorem Own.withdrawn (ok : PortsOk g w held) (own : Own g w b) (mine : b.tally ≤ held)
    (drops : b.drops = some p)
    (destroys : b.destroys = true) : ¬w.HasReceive p := by
  intro there
  have receive := ok.receive p
  have named : 0 < w.named (.receive p) := there
  -- the call holds the right, or the port has lost it
  have twice : 0 < b.tally (.receive p) → False := by
    intro one
    have more : b.tally (.receive p) ≤ held (.receive p) := mine (.receive p)
    have top := Bool.toNat_le (w.pHasReceive p)
    omega
  have lost : w.pHasReceive p = false → False := by
    intro none
    rw [none, Bool.toNat_false] at receive
    omega
  have leaving : ∀ why : Leaving, why.Ok w p → why.tally p (.receive p) = b.tally (.receive p) →
      False := by
    intro why fine same
    cases why with
    | divert r =>
      have fine : r.receive = true := fine
      exact twice (by simp [← same, Leaving.tally, rightTally, fine])
    | die last => exact lost fine.1
  cases b with
  | divert q r =>
    cases drops
    exact twice (by simp [SetWork.tally, rightTally, own.2.1])
  | deref q r =>
    cases drops
    have receive : r.receive = true := destroys
    exact twice (by simp [SetWork.tally, rightTally, receive])
  | post q r =>
    cases drops
    exact twice (by simp [SetWork.tally, rightTally, own.2.2])
  | leaveClear q why =>
    cases drops
    exact leaving why own.2.2 rfl
  | lock set q purpose =>
    cases purpose with
    | remove => cases drops
    | leave why =>
      cases drops
      exact leaving why own.2.2.2 rfl
  | walk set q prev cur purpose =>
    cases purpose with
    | remove => cases drops
    | leave why =>
      cases drops
      exact leaving why own.2.2.2.1 rfl
  | finish q last =>
    have isLast := destroys
    subst isLast
    cases drops
    exact lost (own rfl).2.2.1
  | _ => cases drops

theorem nonempty_of_receive (receive : r.receive = true) : r ≠ .empty := by
  rintro rfl
  cases receive

theorem sends_of_nonempty (nonempty : r ≠ .empty) (mild : r.receive = false) :
    0 < r.send.toNat + r.sendOnce.toNat := by
  by_contra none
  apply nonempty
  obtain ⟨receive, send, once⟩ := r
  cases mild
  cases send <;> cases once <;> simp at none
  rfl

theorem Own.holds (own : Own g w b) (drops : b.drops = some p) (mild : b.destroys = false) :
    0 < b.tally (.send p) := by
  cases b with
  | divert q r => cases mild.symm.trans own.2.1
  | deref q r =>
    obtain rfl : q = p := some.inj drops
    change 0 < if q = q then r.send.toNat + r.sendOnce.toNat else 0
    rw [if_pos rfl]
    exact sends_of_nonempty own.2.1 mild
  | lock set q purpose | walk set q prev cur purpose =>
    cases purpose with
    | remove => cases drops
    | leave why => cases mild
  | leaveClear q why | post q r => cases mild
  | finish q last =>
    have isLast := mild
    subst isLast
    cases drops
  | _ => cases drops

/-! ### What a step leaves alone -/

/-- What the other calls can count on in a step of a call that stands at `a`. -/
structure Frame (a : SetWork) (g g' : Plan) (w w' : PortSets) : Prop where
  table : w'.psTable = w.psTable
  live : ∀ p, w'.pLive p = w.pLive p ∨ (a.drops = some p ∧ a.destroys = true)
  rights : ∀ p, (w'.pRefs p = w.pRefs p ∧ w'.pHasReceive p = w.pHasReceive p) ∨ a.drops = some p
  home : ∀ p, (g'.home p = g.home p ∧ w'.pSet p = w.pSet p) ∨
    (a.drops = some p ∧ a.destroys = true) ∨ w.HasReceive p ∨
    ∃ set, g.home p = some set ∧ w.psRefs set = 0
  lock : ∀ set, w.psLock set = true → a.grips ≠ some set → w'.psLock set = true
  refs : ∀ set, w.psRefs set = 0 → a.grips ≠ some set → w'.psLive set = w.psLive set ∧
    w'.psRefs set = 0
  chain : ∀ set, w.psLock set = true ∨ w.psRefs set = 0 → a.grips ≠ some set →
    w'.psMembersHead set = w.psMembersHead set ∧ g'.lists set = g.lists set ∧
      ∀ q ∈ g.lists set, w'.pSetLink q = w.pSetLink q

theorem Frame.refl (a : SetWork) (g : Plan) (w : PortSets) : Frame a g g w w where
  table := rfl
  live _ := .inl rfl
  rights _ := .inl ⟨rfl, rfl⟩
  home _ := .inl ⟨rfl, rfl⟩
  lock _ locked _ := locked
  refs _ none _ := ⟨rfl, none⟩
  chain _ _ _ := ⟨rfl, rfl, fun _ _ => rfl⟩

theorem Frame.locking (taken : Bool) (mine : taken = true ∨ a.grips = some set) :
    Frame a g g w (w.lock set taken) :=
  { Frame.refl a g w with
    lock := fun set' locked other => by
      simp only [PortSets.lock, update_apply]
      split
      next same => exact mine.resolve_right fun grips => other (same ▸ grips)
      · exact locked }

namespace Frame

variable (frame : Frame a g g' w w')
include frame

theorem hasSet (there : w.HasSet set) : w'.HasSet set := by
  unfold PortSets.HasSet PortSets.named at there ⊢
  rwa [frame.table]

theorem hasReceive (there : w.HasReceive p) : w'.HasReceive p := by
  unfold PortSets.HasReceive PortSets.named at there ⊢
  rwa [frame.table]

theorem stands (same : g'.home p = g.home p ∧ w'.pSet p = w.pSet p) (stands : w.Stands g p) :
    w'.Stands g' p := by
  refine ⟨(same.2.trans stands.1).trans same.1.symm, fun set home => ?_⟩
  exact frame.hasSet (stands.2 set (same.1.symm.trans home))

theorem walking {prev cur : Option PortId} (apart : a.grips ≠ some set)
    (walking : Walking g w set p prev cur) :
    Walking g' w' set p prev cur := by
  obtain ⟨locked, pre, post, split, fresh, last, before, after⟩ := walking
  obtain ⟨head, lists, links⟩ := frame.chain set (.inl locked) apart
  rw [split] at links
  refine ⟨frame.lock set locked apart, pre, post, lists.trans split, fresh, last, ?_, ?_⟩
  · rw [head]
    exact before.congr fun q member => links q (List.mem_append_left post member)
  · exact after.congr fun q member => links q (List.mem_append_right pre member)

theorem kept (ok : PortsOk g w held) (own : Own g w b) (mine : b.tally ≤ held) (apart : Apart a b)
    (drops : b.drops = some p) (destroys : b.destroys = true)
    (named : ∀ set, g.home p = some set → w.HasSet set) :
    w'.pLive p = w.pLive p ∧ w'.pRefs p = w.pRefs p ∧ w'.pHasReceive p = w.pHasReceive p ∧
      g'.home p = g.home p ∧ w'.pSet p = w.pSet p := by
  have other : a.drops ≠ some p := fun same =>
    absurd ((apart.1 p same drops).2.symm.trans destroys) Bool.false_ne_true
  have withdrawn := own.withdrawn ok mine drops destroys
  obtain ⟨refs, receive⟩ := (frame.rights p).resolve_right other
  refine ⟨(frame.live p).resolve_right fun h => other h.1, refs, receive, ?_⟩
  rcases frame.home p with same | mine | there | ⟨set, home, none⟩
  · exact same
  · exact absurd mine.1 other
  · exact absurd there withdrawn
  · have some := (ok.setAlive (Nat.add_pos_left (named set home) _)).2
    omega

end Frame

theorem named_of_home (home : g.home p = some set) (named : w.HasSet set) (set' : SetId)
    (there : g.home p = some set') :
    w.HasSet set' := by
  cases home.symm.trans there
  exact named

theorem named_of_none (home : g.home p = none) (set : SetId) (there : g.home p = some set) :
    w.HasSet set :=
  absurd (home.symm.trans there) (by simp)

theorem Own.stable (frame : Frame a g g' w w') (ok : PortsOk g w held) (own : Own g w b)
    (mine : b.tally ≤ held)
    (apart : Apart a b) : Own g' w' b := by
  have free : ∀ set, b.grips = some set → a.grips ≠ some set :=
    fun set grips same => apart.2 set same grips
  cases b with
  | idle | extractScan _ | setDeref _ => trivial
  | insertPort set _ | removePort set _ => exact frame.hasSet own
  | insertMark set p | insertLink set p => exact ⟨frame.hasSet own.1, frame.hasReceive own.2⟩
  | removeClear _ p | extractRead p => exact frame.hasReceive own
  | lock set p purpose =>
    cases purpose with
    | remove => exact ⟨frame.hasSet own.1, frame.hasReceive own.2⟩
    | leave why =>
      obtain ⟨live, refs, receive, home, -⟩ :=
        frame.kept ok own mine apart rfl rfl (named_of_home own.2.2.1 own.1)
      exact ⟨frame.hasSet own.1, live.trans own.2.1, home.trans own.2.2.1,
        own.2.2.2.congr ⟨refs, receive⟩⟩
  | walk set p prev cur purpose =>
    cases purpose with
    | remove =>
      exact ⟨frame.hasSet own.1, frame.hasReceive own.2.1, frame.walking (free set rfl) own.2.2⟩
    | leave why =>
      obtain ⟨live, refs, receive, home, -⟩ :=
        frame.kept ok own mine apart rfl rfl (named_of_home own.2.2.1 own.1)
      exact ⟨frame.hasSet own.1, live.trans own.2.1, home.trans own.2.2.1,
        own.2.2.2.1.congr ⟨refs, receive⟩, frame.walking (free set rfl) own.2.2.2.2⟩
  | divert p r =>
    obtain ⟨live, -, -, same⟩ := frame.kept ok own mine apart rfl own.2.1 own.2.2.2
    exact ⟨live.trans own.1, own.2.1, frame.stands same own.2.2⟩
  | deref p r =>
    by_cases receive : r.receive = true
    · obtain ⟨live, -, -, same⟩ := frame.kept ok own mine apart rfl receive (own.2.2 receive).2
      exact ⟨live.trans own.1, own.2.1, fun _ => frame.stands same (own.2.2 receive)⟩
    -- the port is freed only by a call that excludes this one
    refine ⟨?_, own.2.1, fun yes => absurd yes receive⟩
    rcases frame.live p with same | ⟨drops, destroys⟩
    · exact same.trans own.1
    · cases (apart.1 p drops rfl).1.symm.trans destroys
  | leaveClear p why =>
    obtain ⟨live, refs, receive, home, -⟩ :=
      frame.kept ok own mine apart rfl rfl (named_of_none own.2.1)
    exact ⟨live.trans own.1, home.trans own.2.1, own.2.2.congr ⟨refs, receive⟩⟩
  | post p r =>
    obtain ⟨live, -, -, home, -⟩ := frame.kept ok own mine apart rfl rfl (named_of_none own.2.1)
    exact ⟨live.trans own.1, home.trans own.2.1, own.2.2⟩
  | finish p last =>
    rintro rfl
    obtain ⟨alive, none, lost, homeless⟩ := own rfl
    obtain ⟨live, refs, receive, home, -⟩ :=
      frame.kept ok own mine apart rfl rfl (named_of_none homeless)
    exact ⟨live.trans alive, refs.trans none, receive.trans lost, home.trans homeless⟩
  | detach set cur =>
    obtain ⟨live, none, path⟩ := own
    obtain ⟨-, lists, links⟩ := frame.chain set (.inr none) (free set rfl)
    obtain ⟨live', none'⟩ := frame.refs set none (free set rfl)
    refine ⟨live'.trans live, none', ?_⟩
    rw [lists]
    exact path.congr links
  | faulted => exact own

/-! ### One step -/

/-- A thread stands at `a`, and what the others hold is in `rest`. -/
structure Setting (g : Plan) (w : PortSets) (a : SetWork) (rest : Tally) : Prop where
  ok : PortsOk g w (a.tally + rest)
  own : Own g w a
  others : ∀ token, 0 < rest token → ∃ b, Own g w b ∧ b.tally ≤ rest ∧ 0 < b.tally token ∧ Apart a b

/-- The step keeps the account, leaves the thread with what it relies on and the others with
theirs. -/
def Carried (g : Plan) (w : PortSets) (rest : Tally) (a : SetWork) (w' : PortSets)
    (a' : SetWork) : Prop :=
  ∃ g', PortsOk g' w' (a'.tally + rest) ∧ Own g' w' a' ∧ Frame a g g' w w' ∧
    ∀ b, Own g w b → b.tally ≤ rest → Apart a b → Apart a' b

theorem leaving_tally (there : 0 < b.tally (.leaving p)) :
    b.drops = some p ∧ b.destroys = true := by
  cases b with
  | lock set q purpose | walk set q prev cur purpose =>
    cases purpose with
    | remove => cases there
    | leave why =>
    simp only [SetWork.tally] at there
    split at there
    next same =>
      subst same
      exact ⟨rfl, rfl⟩
    · cases there
  | leaveClear q why => cases why <;> cases there
  | _ => cases there

theorem limbo_tally (there : 0 < b.tally (.limbo p set)) :
    b = .insertLink set p ∨ b = .removeClear set p := by
  cases b with
  | insertLink set' q | removeClear set' q =>
    simp only [SetWork.tally] at there
    split at there
    next same =>
      obtain ⟨rfl, rfl⟩ := same
      simp
    · cases there
  | lock set q purpose | walk set q prev cur purpose =>
    cases purpose with
    | remove => cases there
    | leave why => cases why <;> cases there
  | leaveClear q why => cases why <;> cases there
  | _ => cases there

theorem Own.limbo_receive (own : Own g w b) (there : 0 < b.tally (.limbo p set)) :
    w.HasReceive p := by
  rcases limbo_tally there with rfl | rfl
  · exact own.2
  · exact own

namespace Setting

variable (setting : Setting g w a rest)
include setting

theorem hasSet_alive (there : w.HasSet set) : w.psLive set = true ∧ 0 < w.psRefs set :=
  setting.ok.setAlive (Nat.add_pos_left there _)

theorem hasReceive_alive (there : w.HasReceive p) : w.pLive p = true :=
  (setting.ok.alive (Nat.add_pos_left there _)).1

theorem not_leaving_of_receive (there : w.HasReceive p) : rest (.leaving p) = 0 := by
  by_contra leaving
  obtain ⟨b, own, mine, inside, -⟩ := setting.others _ (pos_of_ne_zero leaving)
  obtain ⟨drops, destroys⟩ := leaving_tally inside
  exact own.withdrawn setting.ok (fun token => (mine token).trans (le_add_left _ _)) drops
    destroys there

theorem not_leaving_of_destroys (drops : a.drops = some p) (destroys : a.destroys = true) :
    rest (.leaving p) = 0 := by
  by_contra leaving
  obtain ⟨b, -, -, inside, apart⟩ := setting.others _ (pos_of_ne_zero leaving)
  cases (apart.1 p drops (leaving_tally inside).1).1.symm.trans destroys

theorem not_limbo_of_destroys (drops : a.drops = some p) (destroys : a.destroys = true)
    (set : SetId) :
    rest (.limbo p set) = 0 := by
  by_contra limbo
  obtain ⟨b, own, -, inside, -⟩ := setting.others _ (pos_of_ne_zero limbo)
  exact setting.own.withdrawn setting.ok (fun token => le_add_right _ _) drops destroys
    (own.limbo_receive inside)

theorem stay (tally : a'.tally = a.tally) (own : Own g w a')
    (drops : ∀ p, a'.drops = some p → a.drops = some p ∧ (a'.destroys = true → a.destroys = true))
    (grips : ∀ set, a'.grips = some set → a.grips = some set) : Carried g w rest a w a' := by
  refine ⟨g, ?_, own, .refl a g w,
    fun b _ _ apart => ⟨fun p first second => ?_, fun set first => ?_⟩⟩
  · rw [tally]
    exact setting.ok
  · obtain ⟨before, harder⟩ := drops p first
    obtain ⟨mild, mild'⟩ := apart.1 p before second
    refine ⟨?_, mild'⟩
    by_contra destroys
    rw [harder (by simpa using destroys)] at mild
    cases mild
  · exact apart.2 set (grips set first)

theorem quiet (own : Own g w a') (tally : a'.tally = a.tally) (drops : a'.drops = none)
    (grips : a'.grips = none) :
    Carried g w rest a w a' :=
  setting.stay tally own (fun _ some => absurd (drops.symm.trans some) (by simp)) fun _ some =>
    absurd (grips.symm.trans some) (by simp)

end Setting

/-! ### Walks -/

section Walks

variable {purpose : Purpose} {prev cur : Option PortId}

theorem own_walk_iff : Own g w (.walk set p prev cur purpose) ↔
    Own g w (.lock set p purpose) ∧ Walking g w set p prev cur := by
  cases purpose with
  | remove | leave why => simp [Own, and_assoc]

theorem Own.ungripped (own : Own g w b) (free : w.psLock set = false) (some : 0 < w.psRefs set) :
    b.grips ≠ Option.some set := by
  intro grips
  cases b with
  | walk set' q prev cur purpose =>
    cases grips
    cases free.symm.trans (own_walk_iff.mp own).2.1
  | detach set' cur =>
    cases grips
    exact absurd own.2.1 (ne_of_gt some)
  | _ => cases grips

theorem Own.lock_hasSet (own : Own g w (.lock set p purpose)) : w.HasSet set := by
  cases purpose with
  | remove | leave why => exact own.1

theorem walk_tally :
    (SetWork.walk set p prev cur purpose).tally = (SetWork.lock set p purpose).tally := by
  funext token
  cases purpose <;> cases token <;> rfl

theorem walk_drops :
    (SetWork.walk set p prev cur purpose).drops = (SetWork.lock set p purpose).drops ∧
    (SetWork.walk set p prev cur purpose).destroys = (SetWork.lock set p purpose).destroys := by
  cases purpose <;> exact ⟨rfl, rfl⟩

theorem PortsOk.lock (ok : PortsOk g w held) (set : SetId) (taken : Bool) :
    PortsOk g (w.lock set taken) held := { ok with }

theorem Leaving.Ok.lock (fine : why.Ok w p) (taken : Bool) : why.Ok (w.lock set taken) p :=
  fine.congr ⟨rfl, rfl⟩

theorem Own.lock_taken (own : Own g w (.lock set p purpose)) (taken : Bool) :
    Own g (w.lock set taken) (.lock set p purpose) := by
  cases purpose with
  | remove => exact own
  | leave why => exact ⟨own.1, own.2.1, own.2.2.1, own.2.2.2.lock taken⟩

theorem Setting.lock (setting : Setting g w (.lock set p purpose) rest)
    (free : w.psLock set = false) :
    Carried g w rest (.lock set p purpose) (w.lock set true)
      (.walk set p none (w.psMembersHead set) purpose) := by
  obtain ⟨live, some⟩ := setting.hasSet_alive setting.own.lock_hasSet
  have walking : Walking g (w.lock set true) set p none (w.psMembersHead set) :=
    ⟨by simp [PortSets.lock], [], g.lists set, rfl, by simp, rfl, rfl,
      (setting.ok.listed set live some).1⟩
  refine ⟨g, ?_, own_walk_iff.mpr ⟨setting.own.lock_taken true, walking⟩, .locking true (.inl rfl),
    fun b own _ apart => ⟨?_, ?_⟩⟩
  · rw [walk_tally]
    exact setting.ok.lock set true
  · rw [walk_drops.1, walk_drops.2]
    exact apart.1
  · rintro _ ⟨⟩
    exact own.ungripped free some

theorem Setting.pass (setting : Setting g w (.walk set p prev (some q) purpose) rest)
    (other : q ≠ p) :
    Carried g w rest (.walk set p prev (some q) purpose) w
      (.walk set p (some q) (w.pSetLink q) purpose) := by
  obtain ⟨own, locked, pre, post, split, fresh, -, before, after⟩ := own_walk_iff.mp setting.own
  cases post with
  | nil => cases after
  | cons x post =>
  cases after.1
  have walking : Walking g w set p (some q) (w.pSetLink q) := by
    refine ⟨locked, pre ++ [q], post, ?_, ?_, by simp, before.append ⟨rfl, rfl⟩, after.2⟩
    · simpa using split
    · simpa [fresh] using Ne.symm other
  refine setting.stay ?_ (own_walk_iff.mpr ⟨own, walking⟩) (fun r drops => ?_) fun _ grips => grips
  · rw [walk_tally, walk_tally]
  · rw [walk_drops.1] at drops
    rw [walk_drops.1, walk_drops.2, walk_drops.2]
    exact ⟨drops, id⟩

theorem Setting.leaver_listed (setting : Setting g w (.walk set p prev cur (.leave why)) rest) :
    p ∈ g.lists set := by
  have places := setting.ok.places p set
  rw [if_pos setting.own.2.2.1] at places
  have none : (SetWork.tally (.walk set p prev cur (.leave why)) + rest) (.limbo p set) = 0 := by
    rw [Pi.add_apply, setting.not_limbo_of_destroys rfl rfl set]
    cases why <;> rfl
  exact List.one_le_count_iff.mp (by omega)

theorem Setting.miss (setting : Setting g w (.walk set p prev none purpose) rest) :
    Carried g w rest (.walk set p prev none purpose) (w.lock set false) (purpose.missed p) := by
  obtain ⟨-, -, pre, post, split, fresh, -, -, after⟩ := own_walk_iff.mp setting.own
  have all : g.lists set = pre := by
    cases post with
    | nil => simpa using split
    | cons x post => cases after.1
  cases purpose with
  | leave why => exact absurd setting.leaver_listed (all ▸ fresh)
  | remove =>
    exact ⟨g, setting.ok.lock set false, trivial, .locking false (.inr rfl),
      fun b _ _ _ => no_drops rfl rfl b⟩

def PortSets.unlink (w : PortSets) (set : SetId) (p : PortId) (prev : Option PortId) : PortSets :=
  let links := bypass w.pSetLink (w.psMembersHead set) (w.pSetLink p) prev
  (({ w with pSetLink := links.2 }).list set links.1 (w.psMemberCount set - 1)).lock set false

section Unlink

variable {pre post : List PortId} (ok : PortsOk g w held) (named : w.HasSet set)
  (split : g.lists set = pre ++ p :: post)
    (before : Path w.pSetLink (w.psMembersHead set) pre (some p))
  (after : Path w.pSetLink (w.pSetLink p) post none)
include ok split

theorem unlink_outside {q : PortId} {set' : SetId} (other : set' ≠ set)
    (listed : q ∈ g.lists set') :
    (w.unlink set p pre.getLast?).pSetLink q = w.pSetLink q := by
  cases last : pre.getLast? with
  | none => rfl
  | some y =>
  refine update_of_ne ?_ _ _
  rintro rfl
  have member : q ∈ g.lists set := by
    rw [split]
    exact List.mem_append_left _ (List.mem_of_getLast? last)
  exact other (some.inj ((ok.home_of_mem listed).symm.trans (ok.home_of_mem member)))

include named before after

theorem unlink_listed (set' : SetId) (live : w.psLive set' = true) (some : 0 < w.psRefs set') :
    Path (w.unlink set p pre.getLast?).pSetLink ((w.unlink set p pre.getLast?).psMembersHead set')
      ((g.relist set (pre ++ post)).lists set') none ∧
    (w.unlink set p pre.getLast?).psMemberCount set' =
      ((g.relist set (pre ++ post)).lists set').length := by
  obtain ⟨path, count⟩ := ok.listed set' live some
  by_cases same : set' = set
  · subst same
    have nodup := ok.nodup set'
    rw [split] at nodup count
    simp only [PortSets.unlink, PortSets.list, PortSets.lock, update_self, lists_relist]
    refine ⟨before.bypass nodup after, ?_⟩
    simp only [List.length_append, List.length_cons] at count ⊢
    omega
  · rw [lists_relist_ne same]
    simp only [PortSets.unlink, PortSets.list, PortSets.lock, update_of_ne same]
    exact ⟨path.congr fun q member => unlink_outside ok split same member, count⟩

omit split before after in
theorem unlink_torn (last : Option PortId) (set' : SetId) (live : w.psLive set' = true)
    (none : w.psRefs set' = 0) :
    (w.unlink set p last).psMemberCount set' = 0 ∧ 0 < held (.torn set') := by
  have other := ne_of_refs (ok.setAlive (Nat.add_pos_left named _)).2 none
  simp only [PortSets.unlink, PortSets.list, PortSets.lock, update_of_ne other]
  exact ok.torn set' live none

omit split before after in
theorem unlink_gone (members : List PortId) (set' : SetId) (dead : w.psLive set' = false) :
    w.psRefs set' = 0 ∧ (g.relist set members).lists set' = [] := by
  have live := (ok.setAlive (Nat.add_pos_left named _)).1
  have other := ne_of_live live dead
  rw [lists_relist_ne other]
  exact ok.gone set' dead

omit ok named before after in
theorem unlink_count (q : PortId) (set' : SetId) : (g.lists set').count q =
    ((g.relist set (pre ++ post)).lists set').count q + if p = q ∧ set = set' then 1 else 0 := by
  by_cases same : set' = set
  · subst same
    rw [lists_relist, split]
    simp only [List.count_append, List.count_cons, and_true, beq_iff_eq]
    omega
  · rw [lists_relist_ne same, if_neg fun both => same both.2.symm, add_zero]

end Unlink

theorem Setting.hit (setting : Setting g w (.walk set p prev (some p) purpose) rest) :
    prev.all w.pLive = true ∧
    Carried g w rest (.walk set p prev (some p) purpose) (w.unlink set p prev)
      (purpose.found set p) := by
  obtain ⟨own, locked, pre, post, split, fresh, rfl, before, after⟩ := own_walk_iff.mp setting.own
  cases post with
  | nil => cases after
  | cons x post =>
  obtain ⟨rfl, after⟩ : p = x ∧ _ := ⟨some.inj after.1, after.2⟩
  have ok := setting.ok
  have named := own.lock_hasSet
  have members : ∀ q ∈ pre, q ∈ g.lists set := fun q member => split ▸ List.mem_append_left _ member
  refine ⟨?_, ?_⟩
  · cases last : pre.getLast? with
    | none => rfl
    | some y => exact ok.homed y set (ok.home_of_mem (members y (List.mem_of_getLast? last)))
  have listed := unlink_listed ok named split before after
  have torn := unlink_torn (p := p) ok named pre.getLast?
  have gone := unlink_gone ok named (pre ++ post)
  have frame : ∀ home : PortId → Option SetId,
    (∀ q, home q = g.home q ∨ q = p ∧ purpose ≠ .remove) →
      Frame (.walk set p pre.getLast? (some p) purpose) g ⟨(g.relist set (pre ++ post)).lists,
        home⟩ w
        (w.unlink set p pre.getLast?) := by
    intro home kept
    have locking := Frame.locking (a := .walk set p pre.getLast? (some p) purpose) (g := g) (w := w)
      false (.inr rfl)
    refine { locking with
      home := fun q => (kept q).imp (fun same => ⟨same, rfl⟩) fun here => .inl ?_
      chain := ?_ }
    · obtain ⟨rfl, leaves⟩ := here
      cases purpose with
      | remove => exact absurd rfl leaves
      | leave why => exact ⟨rfl, rfl⟩
    intro set' _ other
    have away : set' ≠ set := fun same => other (congrArg some same.symm)
    refine ⟨?_, lists_relist_ne away, fun q member => unlink_outside ok split away member⟩
    simp only [PortSets.unlink, PortSets.list, PortSets.lock, update_of_ne away]
  cases purpose with
  | remove =>
    -- the port still points to the set and is on no list
    refine ⟨g.relist set (pre ++ post), ?_, own.2, frame g.home fun _ => .inl rfl,
      fun b _ _ _ => no_drops rfl rfl b⟩
    refine ⟨ok.refs, ok.receive, ok.freed, ok.right, ok.pointed, fun q set' => ?_, ok.homed,
      ok.names, listed, torn,
      gone⟩
    have places := ok.places q set'
    rw [unlink_count split q set'] at places
    rw [home_relist]
    dsimp only [Pi.add_apply, SetWork.tally, Purpose.found] at places ⊢
    omega
  | leave why =>
  -- the port counts for no set any more
  have none := setting.not_leaving_of_destroys rfl rfl
  have home := own.2.2.1
  refine ⟨(g.relist set (pre ++ post)).rehome p Option.none, ?_, ⟨own.2.1, home_rehome, own.2.2.2⟩,
    frame _ fun q => ?_, fun b _ _ apart => ⟨apart.1, fun _ none => (by cases none)⟩⟩
  · have kept : ∀ q ≠ p,
      (SetWork.tally (.walk set p pre.getLast? (some p) (.leave why)) + rest) (.leaving q) =
        (SetWork.tally (.leaveClear p why) + rest) (.leaving q) := by
      intro q other
      change (if p = q then 1 else 0) + rest _ = why.tally p (.leaving q) + rest _
      rw [if_neg (Ne.symm other)]
      cases why <;> rfl
    refine ⟨ok.refs, ok.receive, ok.freed, fun q set' away => ?_, fun q => ?_, fun q set' => ?_,
      fun q set' away => ok.homed q set' (home_of_rehome away).2, ok.names, listed, torn, gone⟩
    · obtain ⟨other, away⟩ := home_of_rehome away
      exact (ok.right q set' away).imp_right (kept q other ▸ ·)
    · have pointed := ok.pointed q
      by_cases same : q = p
      · subst same
        rw [if_pos (by simp [SetWork.tally])] at pointed
        rw [home_rehome, ite_self]
        exact pointed
      · rw [kept q same] at pointed
        rw [home_rehome_ne same]
        exact pointed
    have places := ok.places q set'
    rw [unlink_count split q set'] at places
    rw [lists_rehome]
    have counted := place_homed home (home_rehome (g := g.relist set (pre ++ post)))
      (fun _ other => home_rehome_ne other) q set'
    dsimp only [Pi.add_apply, SetWork.tally, Purpose.found] at places ⊢
    omega
  · by_cases same : q = p
    · exact .inr ⟨same, fun remove => (by cases remove)⟩
    · exact .inl (home_rehome_ne same)

end Walks

/-! ### Inserts and removes -/

theorem Frame.point (set : Option SetId)
    (whose : (a.drops = some p ∧ a.destroys = true) ∨ w.HasReceive p)
    (home : Option SetId) : Frame a g (g.rehome p home) w (w.point p set) where
  __ := Frame.refl a g w
  home q := by
    by_cases same : q = p
    · subst same
      exact .inr (whose.imp_right .inl)
    · exact .inl ⟨home_rehome_ne same, update_of_ne same _ _⟩

theorem Frame.link (frame : Frame a g g' w w') (outside : ∀ set, p ∉ g.lists set)
    (next : Option PortId) :
    Frame a g g' w (w'.link p next) where
  __ := frame
  chain set free other := by
    obtain ⟨head, lists, links⟩ := frame.chain set free other
    refine ⟨head, lists, fun q listed => ?_⟩
    have away : q ≠ p := fun same => outside set (same ▸ listed)
    exact (update_of_ne away _ _).trans (links q listed)

theorem PortsOk.link (ok : PortsOk g w held) (outside : ∀ set, p ∉ g.lists set)
    (next : Option PortId) :
    PortsOk g (w.link p next) held :=
  { ok with
    listed := fun set live some => (ok.listed set live some).imp_left fun path =>
      path.update (outside set) next }

theorem PortsOk.pointed_point {home set : Option SetId} (ok : PortsOk g w held)
    (same : ∀ q, held' (.leaving q) = held (.leaving q))
    (here : set = if 0 < held (.leaving p) then none else home)
    (q : PortId) : (w.point p set).pSet q = if 0 < held' (.leaving q) then none
      else (g.rehome p home).home q := by
  rw [same]
  by_cases mine : q = p
  · subst mine
    rw [home_rehome, ← here]
    exact update_self _ _ _
  · rw [home_rehome_ne mine]
    exact (update_of_ne mine _ _).trans (ok.pointed q)

theorem Setting.mark (setting : Setting g w (.insertMark set p) rest) (free : w.pSet p = none) :
    Carried g w rest (.insertMark set p) (w.point p (some set)) (.insertLink set p) := by
  have ok := setting.ok
  have none := setting.not_leaving_of_receive setting.own.2
  have homeless : g.home p = Option.none := by
    have pointed := ok.pointed p
    rw [if_neg (by change ¬0 < 0 + rest _; omega)] at pointed
    exact pointed.symm.trans free
  refine ⟨g.rehome p (some set), ?_, setting.own, .point _ (.inr setting.own.2) _,
    fun b _ _ _ => no_drops rfl rfl b⟩
  refine { ok with
    right := fun q set' home => ?_
    pointed :=
      ok.pointed_point (fun _ => rfl) (if_neg (by change ¬0 < 0 + rest (.leaving p); omega)).symm
    places := fun q set' => ?_
    homed := fun q set' home => ?_ }
  · by_cases same : q = p
    · subst same
      exact .inl (Nat.add_pos_left setting.own.2 _)
    · rw [home_rehome_ne same] at home
      exact ok.right q set' home
  · have places := ok.places q set'
    have counted := place_homed (home_rehome : (g.rehome p (some set)).home p = _) homeless
      (fun _ other => (home_rehome_ne other).symm) q set'
    dsimp only [Pi.add_apply, SetWork.tally, lists_rehome] at places ⊢
    omega
  by_cases same : q = p
  · subst same
    exact setting.hasReceive_alive setting.own.2
  · rw [home_rehome_ne same] at home
    exact ok.homed q set' home

theorem Setting.link (setting : Setting g w (.insertLink set p) rest)
    (free : w.psLock set = false) :
    Carried g w rest (.insertLink set p)
      ((w.link p (w.psMembersHead set)).list set (some p) (w.psMemberCount set + 1)) .idle := by
  obtain ⟨live, some⟩ := setting.hasSet_alive setting.own.1
  have limbo : 0 < (SetWork.tally (.insertLink set p) + rest) (.limbo p set) := by
    simp [SetWork.tally]
  obtain ⟨-, outside⟩ := setting.ok.limbo limbo
  have ok := setting.ok.link outside (w.psMembersHead set)
  refine ⟨g.relist set (p :: g.lists set), ?_, trivial, ?_, fun b _ _ _ => no_drops rfl rfl b⟩
  · refine { ok with
      places := fun q set' => ?_
      listed := fun set' live' some' => ?_
      torn := fun set' live' none => ?_
      gone := fun set' dead => ?_ }
    · have places := ok.places q set'
      rw [home_relist]
      dsimp only [Pi.add_apply, SetWork.tally] at places ⊢
      by_cases same : set' = set
      · subst same
        rw [lists_relist, List.count_cons]
        simp only [and_true, beq_iff_eq] at places ⊢
        omega
      · rw [lists_relist_ne same]
        rw [if_neg fun both : p = q ∧ _ => same both.2.symm] at places
        exact places
    · obtain ⟨path, count⟩ := ok.listed set' live' some'
      by_cases same : set' = set
      · subst same
        rw [lists_relist]
        simp only [PortSets.list, update_self]
        refine ⟨⟨rfl, ?_⟩, congrArg (· + 1) count⟩
        simp only [PortSets.link, update_self] at path ⊢
        exact path
      · rw [lists_relist_ne same]
        simp only [PortSets.list, update_of_ne same]
        exact ⟨path, count⟩
    · have other := ne_of_refs some none
      simp only [PortSets.list, update_of_ne other]
      exact ok.torn set' live' none
    · have other := ne_of_live live dead
      rw [lists_relist_ne other]
      exact ok.gone set' dead
  have frame := (Frame.refl (.insertLink set p) g w).link outside (w.psMembersHead set)
  refine { frame with chain := fun set' busy apart => ?_ }
  have other : set' ≠ set := by
    rintro rfl
    rcases busy with locked | none
    · cases free.symm.trans locked
    · omega
  obtain ⟨head, lists, links⟩ := frame.chain set' busy apart
  exact ⟨(update_of_ne other _ _).trans head, (lists_relist_ne other).trans lists, links⟩

theorem Setting.clear (setting : Setting g w (.removeClear set p) rest) :
    Carried g w rest (.removeClear set p) ((w.point p none).link p none) .idle := by
  have ok := setting.ok
  have limbo : 0 < (SetWork.tally (.removeClear set p) + rest) (.limbo p set) := by
    simp [SetWork.tally]
  obtain ⟨home, outside⟩ := ok.limbo limbo
  refine ⟨g.rehome p none, PortsOk.link (g := g.rehome p none) ?_ outside none, trivial,
    (Frame.point none (.inr setting.own) none).link outside none, fun b _ _ _ => no_drops rfl rfl b⟩
  refine { ok with
    right := fun q set' home => ?_
    pointed := ok.pointed_point (fun _ => rfl) (ite_self none).symm
    places := fun q set' => ?_
    homed := fun q set' home => ?_ }
  · exact ok.right q set' (home_of_rehome home).2
  · have places := ok.places q set'
    have counted := place_homed home home_rehome (fun _ other => home_rehome_ne other) q set'
    dsimp only [Pi.add_apply, SetWork.tally, lists_rehome] at places ⊢
    omega
  · exact ok.homed q set' (home_of_rehome home).2

/-! ### A receive right dropped -/

theorem Apart.next (apart : Apart a b) (drops : a'.drops = a.drops)
    (destroys : a'.destroys = a.destroys)
    (grips : a'.grips = none) : Apart a' b := by
  refine ⟨?_, fun _ some => absurd (grips.symm.trans some) (by simp)⟩
  rw [drops, destroys]
  exact apart.1

theorem Frame.unpoint (drops : a.drops = some p) (destroys : a.destroys = true) :
    Frame a g g w (w.point p none) := by
  have same : g.rehome p (g.home p) = g := congrArg (Plan.mk g.lists) (update_eq_self p g.home)
  have frame := Frame.point (g := g) (w := w) none (.inl ⟨drops, destroys⟩) (g.home p)
  rwa [same] at frame

def leavingTally (p : PortId) : Tally
  | .leaving q => if q = p then 1 else 0
  | _ => 0

theorem PortsOk.unpoint (ok : PortsOk g w held) (p : PortId) :
    PortsOk g (w.point p none) (held + leavingTally p) :=
  { ok with
    right := fun q set home => (ok.right q set home).imp_right fun some => Nat.add_pos_left some _
    pointed := fun q => by
      change _ = if 0 < held (.leaving q) + (if q = p then 1 else 0) then none else _
      by_cases here : q = p
      · subst here
        rw [if_pos rfl]
        exact update_self _ _ _
      · rw [if_neg here]
        exact (update_of_ne here _ _).trans (ok.pointed q) }

theorem PortsOk.unpoint_none (ok : PortsOk g w held) (home : g.home p = none) :
    PortsOk g (w.point p none) held :=
  { ok with
    pointed := fun q => by
      by_cases here : q = p
      · subst here
        rw [home, ite_self]
        exact update_self _ _ _
      · exact (update_of_ne here _ _).trans (ok.pointed q) }

theorem leaving_added (p : PortId) (set : SetId) (r : Rights) (rest : Tally) :
    SetWork.tally (.lock set p (.leave (.divert r))) + rest =
      rightTally p r + rest + leavingTally p := by
  funext token
  cases token with
  | leaving q =>
    simp only [Pi.add_apply, SetWork.tally, rightTally, leavingTally, eq_comm (a := p)]
    omega
  | _ => rfl

theorem Setting.divert (setting : Setting g w (.divert p r) rest) :
    Carried g w rest (.divert p r) (w.point p none) (leave p (.divert r) (w.pSet p)) := by
  obtain ⟨live, receive, points, named⟩ := setting.own
  have frame : Frame (.divert p r) g g w (w.point p none) := .unpoint rfl receive
  rw [points]
  cases home : g.home p with
  | none =>
    refine ⟨g, setting.ok.unpoint_none home, ⟨live, home, receive⟩, frame, fun b _ _ apart => ?_⟩
    exact apart.next rfl receive.symm rfl
  | some set =>
    refine ⟨g, ?_, ⟨named set home, live, home, receive⟩, frame,
      fun b _ _ apart => apart.next rfl receive.symm rfl⟩
    exact leaving_added p set r rest ▸ setting.ok.unpoint p

theorem Setting.unlinkSelf (setting : Setting g w (.leaveClear p why) rest) :
    Carried g w rest (.leaveClear p why) (w.link p none) (why.then p) := by
  obtain ⟨live, home, fine⟩ := setting.own
  have outside := setting.ok.unlisted home
  have frame := (Frame.refl (.leaveClear p why) g w).link outside none
  cases why with
  | divert r =>
    exact ⟨g, setting.ok.link outside none, ⟨live, home, fine⟩, frame,
      fun b _ _ apart => apart.next rfl rfl rfl⟩
  | die last =>
  refine ⟨g, setting.ok.link outside none, fun isLast => ⟨live, fine.2 isLast, fine.1, home⟩, frame,
    fun b _ _ apart => ?_⟩
  cases last with
  | true => exact apart.next rfl rfl rfl
  | false => exact no_drops rfl rfl b

/-- Only rights and names of sets change hands. -/
def Tally.SamePlaces (held held' : Tally) : Prop :=
  (∀ p, held' (.leaving p) = held (.leaving p)) ∧
    (∀ p set, held' (.limbo p set) = held (.limbo p set)) ∧
    ∀ set, held' (.torn set) = held (.torn set)

theorem PortsOk.recount {table : Table Name PortEntry} {pRefs : PortId → Nat}
    {pHasReceive : PortId → Bool}
    (ok : PortsOk g w held) (same : held.SamePlaces held')
    (only : w' = { w with psTable := table, pRefs := pRefs, pHasReceive := pHasReceive })
    (refs : ∀ p, w'.named (.send p) + held' (.send p) + (w'.pHasReceive p).toNat ≤ w'.pRefs p)
    (receive : ∀ p, w'.named (.receive p) + held' (.receive p) ≤ (w'.pHasReceive p).toNat)
    (freed : ∀ p, w.pLive p = false → w'.pRefs p = 0)
    (right : ∀ p set, g.home p = some set → 0 < w'.named (.receive p) + held' (.receive p) ∨
      0 < held (.leaving p))
    (names : ∀ set, w'.named (.name set) + held' (.name set) = w.psRefs set) :
      PortsOk g w' held' := by
  obtain ⟨leaving, limbo, torn⟩ := same
  subst only
  refine ⟨refs, receive, freed, ?_, ?_, ?_, ok.homed, names, ok.listed, ?_, ok.gone⟩
  · simpa only [leaving] using right
  · simpa only [leaving] using ok.pointed
  · simpa only [limbo] using ok.places
  · simpa only [torn] using ok.torn

theorem PortsOk.forget (ok : PortsOk g w held) (home : g.home p = none)
    (less : ∀ token, held' token + (if token = .receive p then 1 else 0) = held token) :
    PortsOk g w held' := by
  have same : ∀ token ≠ .receive p, held' token = held token := fun token other => by
    have less := less token
    rwa [if_neg other] at less
  refine ok.recount ⟨fun _ => same _ (by simp), fun _ _ => same _ (by simp),
    fun _ => same _ (by simp)⟩ rfl (fun q => ?_)
    (fun q => ?_) ok.freed (fun q set there => ?_) fun set => ?_
  · rw [same _ (by simp)]
    exact ok.refs q
  · have receive := ok.receive q
    have less := less (.receive q)
    omega
  · have other := ne_of_home home there
    rw [same _ (by simpa using other)]
    exact ok.right q set there
  · rw [same _ (by simp)]
    exact ok.names set

theorem rightTally_diff (p : PortId) (receive : r.receive = true) (token : Token) :
    rightTally p (r.diff (.only .receive)) token + (if token = .receive p then 1 else 0) =
      rightTally p r token := by
  cases token with
  | receive q => simp [rightTally, Rights.diff, Rights.only, receive, eq_comm (a := q)]
  | _ => simp [rightTally, Rights.diff, Rights.only]

theorem rightTally_empty (p : PortId) : rightTally p .empty = 0 := by
  funext token
  cases token <;> simp [rightTally, Rights.empty]

theorem Setting.posted (setting : Setting g w (.post p r) rest) : Carried g w rest (.post p r) w
    (if r.diff (.only .receive) = .empty then .idle else .deref p (r.diff (.only .receive))) := by
  obtain ⟨live, home, receive⟩ := setting.own
  have less := rightTally_diff p receive
  split
  next empty =>
    rw [empty, rightTally_empty] at less
    refine ⟨g, setting.ok.forget home fun token => ?_, trivial, .refl _ g w,
      fun b _ _ _ => no_drops rfl rfl b⟩
    change 0 + rest token + _ = rightTally p r token + rest token
    rw [← less token, Pi.zero_apply]
    omega
  next some =>
  have mild : (r.diff (.only .receive)).receive = false := by simp [Rights.diff, Rights.only]
  refine ⟨g, setting.ok.forget home fun token => ?_, ⟨live, some, fun yes => ?_⟩, .refl _ g w,
    fun b _ _ apart => ?_⟩
  · change rightTally p _ token + rest token + _ = rightTally p r token + rest token
    rw [← less token]
    omega
  · cases mild.symm.trans yes
  · refine ⟨fun q here there => ⟨mild, (apart.1 q here there).2⟩, fun _ grips => (by cases grips)⟩

theorem deref_tally (p : PortId) (r : Rights) (rest : Tally) (token : Token) :
    0 + rest token + rightTally p r token = rightTally p r token + rest token := by
  rw [zero_add, add_comm]

theorem PortsOk.lower (ok : PortsOk g w held) (live : w.pLive p = true)
    (less : ∀ token, held' token + rightTally p r token = held token)
    (leaving : r.receive = true → ∀ set, g.home p = some set → 0 < held' (.leaving p)) :
    PortsOk g (w.lower p r) held' := by
  have elsewhere : ∀ q ≠ p, held' (.send q) = held (.send q) ∧
      held' (.receive q) = held (.receive q) := by
    intro q other
    have send := less (.send q)
    have receive := less (.receive q)
    simp only [rightTally, if_neg (Ne.symm other)] at send receive
    exact ⟨send, receive⟩
  have send := less (.send p)
  have received := less (.receive p)
  simp only [rightTally, if_true] at send received
  have refs := ok.refs p
  have receive := ok.receive p
  have lost : (w.pHasReceive p && !r.receive).toNat =
      (w.pHasReceive p).toNat - r.receive.toNat := by
    cases w.pHasReceive p <;> cases r.receive <;> rfl
  refine ok.recount ⟨fun q => less (.leaving q), fun q set => less (.limbo q set),
    fun set => less (.torn set)⟩ rfl (fun q => ?_) (fun q => ?_) (fun q dead =>
    ?_) (fun q set home => ?_) fun set => (congrArg _ (less (.name set))).trans (ok.names set)
  · change w.named _ + _ + (update w.pHasReceive p _ q).toNat ≤ update w.pRefs p _ q
    by_cases here : q = p
    · subst here
      rw [update_self, update_self, lost]
      simp only [Rights.size]
      omega
    · rw [update_of_ne here, update_of_ne here, (elsewhere q here).1]
      exact ok.refs q
  · change w.named _ + _ ≤ (update w.pHasReceive p _ q).toNat
    by_cases here : q = p
    · subst here
      rw [update_self, lost]
      omega
    · rw [update_of_ne here, (elsewhere q here).2]
      exact ok.receive q
  · have other := ne_of_live live dead
    exact (update_of_ne other _ _).trans (ok.freed q dead)
  by_cases here : q = p
  · subst here
    cases yes : r.receive with
    | true => exact .inr (less (.leaving q) ▸ leaving yes set home)
    | false =>
      rw [yes] at received
      rw [show held' (.receive q) = held (.receive q) from received]
      exact ok.right q set home
  · rw [(elsewhere q here).2]
    exact ok.right q set home

theorem lower_last (isLast : decide (w.pRefs p - r.size = 0) = true) : (w.lower p r).pRefs p = 0 :=
  (update_self _ _ _).trans (of_decide_eq_true isLast)

theorem Frame.lower (drops : a.drops = some p) : Frame a g g w (w.lower p r) where
  __ := Frame.refl a g w
  rights q := by
    by_cases here : q = p
    · exact .inr (here ▸ drops)
    · exact .inl ⟨update_of_ne here _ _, update_of_ne here _ _⟩

section Deref

variable {r : Rights} (setting : Setting g w (.deref p r) rest)
include setting

theorem Setting.deref_asserts :
    r.size ≤ w.pRefs p ∧ (r.receive = true → w.pHasReceive p = true) := by
  have refs := setting.ok.refs p
  have receive := setting.ok.receive p
  simp only [Pi.add_apply, SetWork.tally, rightTally, if_true] at refs receive
  refine ⟨?_, fun yes => ?_⟩
  · simp only [Rights.size]
    omega
  rw [yes] at receive
  by_contra no
  simp only [Bool.not_eq_true] at no
  rw [no] at receive
  simp at receive

theorem Setting.deref_receive (receive : r.receive = true) : Carried g w rest (.deref p r)
    ((w.lower p r).point p none) (leave p (.die (w.pRefs p - r.size = 0)) (w.pSet p)) := by
  obtain ⟨live, -, stands⟩ := setting.own
  obtain ⟨points, named⟩ := stands receive
  have frame : Frame (.deref p r) g g w ((w.lower p r).point p none) :=
    { Frame.unpoint (a := .deref p r) rfl receive with rights := (Frame.lower (g := g) rfl).rights }
  have lost : (w.lower p r).pHasReceive p = false := by
    simp [PortSets.lower, receive]
  rw [points]
  cases home : g.home p with
  | none =>
    refine ⟨g, ?_, fun isLast => ⟨live, lower_last isLast, lost, home⟩, frame,
      fun b _ _ apart => ?_⟩
    · refine PortsOk.lower (setting.ok.unpoint_none home) live (deref_tally p r rest)
        fun _ set there => ?_
      cases home.symm.trans there
    cases decide (w.pRefs p - r.size = 0) with
    | true => exact apart.next rfl receive.symm rfl
    | false => exact no_drops rfl rfl b
  | some set =>
  refine ⟨g, ?_, ⟨named set home, live, home, lost, lower_last⟩, frame,
    fun b _ _ apart => apart.next rfl receive.symm rfl⟩
  have unpointed :=
    leaving_added p set r rest ▸ setting.ok.unpoint p
  refine PortsOk.lower unpointed live (fun token => ?_) fun _ _ _ => ?_
  · cases token with
    | leaving q => rfl
    | _ => exact deref_tally p r rest _
  · change 0 < (if p = p then 1 else 0) + rest _
    rw [if_pos rfl]
    omega

theorem Setting.deref_send (mild : r.receive = false) : Carried g w rest (.deref p r) (w.lower p r)
    (.finish p (w.pRefs p - r.size = 0)) := by
  obtain ⟨live, -, -⟩ := setting.own
  have ok : PortsOk g (w.lower p r) (SetWork.tally (.finish p (w.pRefs p - r.size = 0)) +
      rest) := by
    exact setting.ok.lower live (deref_tally p r rest) fun yes =>
      absurd (mild.symm.trans yes) Bool.false_ne_true
  have refs := ok.refs p
  refine ⟨g, ok, fun isLast => ⟨live, lower_last isLast, ?_, ?_⟩, .lower rfl,
    fun b own mine apart =>
    ⟨fun q here there => ?_, fun _ none => (by cases none)⟩⟩
  · rw [lower_last isLast] at refs
    cases held : (w.lower p r).pHasReceive p with
    | false => rfl
    | true =>
      rw [held] at refs
      simp at refs
  · -- a port that counts for a set has its receive right somewhere, or a call that drops it
    cases home : g.home p with
    | none => rfl
    | some set =>
    rcases ok.right p set home with there | leaving
    · have alive := (ok.alive there).2.2
      rw [lower_last isLast] at alive
      cases alive
    change 0 < 0 + rest _ at leaving
    obtain ⟨b, -, -, inside, apart⟩ := setting.others _ (Nat.zero_add _ ▸ leaving)
    obtain ⟨drops, destroys⟩ := leaving_tally inside
    cases (apart.1 p rfl drops).2.symm.trans destroys
  change (if decide _ then some p else none) = some q at here
  split at here
  next isLast =>
    cases here
    have harmless := (apart.1 p rfl there).2
    rw [lower_last isLast] at refs
    have holds := own.holds there harmless
    have counted : b.tally (.send p) ≤ rest (.send p) := mine (.send p)
    change w.named (.send p) + (0 + rest (.send p)) + _ ≤ 0 at refs
    omega
  · cases here

end Deref

theorem Setting.free (setting : Setting g w (.finish p true) rest) :
    Carried g w rest (.finish p true) { w with pLive := update w.pLive p false } .idle := by
  obtain ⟨live, none, lost, home⟩ := setting.own rfl
  refine ⟨g, ?_, trivial, ?_, fun b _ _ _ => no_drops rfl rfl b⟩
  · refine { setting.ok with freed := fun q dead => ?_, homed := fun q set there => ?_ }
    · by_cases here : q = p
      · rw [here]
        exact none
      · exact setting.ok.freed q ((update_of_ne here _ _).symm.trans dead)
    have other := ne_of_home home there
    exact (update_of_ne other _ _).trans (setting.ok.homed q set there)
  refine { Frame.refl (.finish p true) g w with live := fun q => ?_ }
  by_cases here : q = p
  · exact .inr ⟨congrArg some here.symm, rfl⟩
  · exact .inl (update_of_ne here _ _)

/-! ### A set taken apart -/

section SetDeref

variable (setting : Setting g w (.setDeref set) rest)
include setting

theorem Setting.setDeref_names :
    w.psLive set = true ∧ w.named (.name set) + (1 + rest (.name set)) = w.psRefs set := by
  have names := setting.ok.names set
  simp only [Pi.add_apply, SetWork.tally, nameTally, if_true] at names
  exact ⟨(setting.ok.setAlive
    (by simp only [Pi.add_apply, SetWork.tally, nameTally, if_true]; omega)).1, names⟩

theorem Setting.setDeref_count (set' : SetId) : w.named (.name set') + rest (.name set') =
    update w.psRefs set (w.psRefs set - 1) set' := by
  have names := setting.ok.names set'
  by_cases same : set' = set
  · subst same
    rw [update_self]
    have names := setting.setDeref_names.2
    omega
  · simp only [Pi.add_apply, SetWork.tally, nameTally, if_neg (Ne.symm same), zero_add] at names
    rw [update_of_ne same]
    exact names

theorem Setting.unname (more : w.psRefs set ≠ 1) : Carried g w rest (.setDeref set)
    { w with psRefs := update w.psRefs set (w.psRefs set - 1) } .idle := by
  have ok := setting.ok
  obtain ⟨live, names⟩ := setting.setDeref_names
  have here : update w.psRefs set (w.psRefs set - 1) set = w.psRefs set - 1 := update_self _ _ _
  have elsewhere : ∀ set' ≠ set, update w.psRefs set (w.psRefs set - 1) set' = w.psRefs set' :=
    fun _ other => update_of_ne other _ _
  have none_iff : ∀ set', update w.psRefs set (w.psRefs set - 1) set' = 0 ↔ w.psRefs set' = 0 := by
    intro set'
    by_cases same : set' = set
    · rw [same, here]
      omega
    · rw [elsewhere set' same]
  refine ⟨g, ?_, trivial, ?_, fun b _ _ _ => no_drops rfl rfl b⟩
  · refine { ok with
      names := fun set' => ?_
      listed := fun set' live' some => ?_
      torn := fun set' live' none => ?_
      gone := fun set' dead => ?_ }
    · exact (congrArg (_ + ·) (zero_add _)).trans (setting.setDeref_count set')
    · exact ok.listed set' live' (pos_of_ne_zero fun none =>
        ne_of_gt some ((none_iff set').mpr none))
    · exact ok.torn set' live' ((none_iff set').mp none)
    · exact ⟨(none_iff set').mpr (ok.gone set' dead).1, (ok.gone set' dead).2⟩
  · exact { Frame.refl (.setDeref set) g w with refs := fun set' none _ =>
      ⟨rfl, (none_iff set').mpr none⟩ }

theorem Setting.tear (free : w.psLock set = false) (last : w.psRefs set = 1) :
    Carried g w rest (.setDeref set)
    (({ w with psRefs := update w.psRefs set (w.psRefs set - 1) }).list set none 0)
    (.detach set (w.psMembersHead set)) := by
  have ok := setting.ok
  obtain ⟨live, names⟩ := setting.setDeref_names
  have here : update w.psRefs set (w.psRefs set - 1) set = 0 := by
    rw [update_self]
    omega
  have elsewhere : ∀ set' ≠ set, update w.psRefs set (w.psRefs set - 1) set' = w.psRefs set' :=
    fun _ other => update_of_ne other _ _
  refine ⟨g, ?_, ⟨live, here, (ok.listed set live (by omega)).1⟩, ?_, fun b own _ _ =>
    ⟨fun _ none => (by cases none), ?_⟩⟩
  · refine { ok with
      names := fun set' => ?_
      listed := fun set' live' some => ?_
      torn := fun set' live' none => ?_
      gone := fun set' dead => ?_ }
    · exact (congrArg (_ + ·) (zero_add _)).trans (setting.setDeref_count set')
    · have other := (ne_of_refs some here).symm
      simp only [PortSets.list, update_of_ne other]
      exact ok.listed set' live' (elsewhere set' other ▸ some)
    · by_cases same : set' = set
      · subst same
        refine ⟨update_self _ _ _, ?_⟩
        change 0 < (if set' = set' then 1 else 0) + rest _
        rw [if_pos rfl]
        omega
      simp only [PortSets.list, update_of_ne same]
      refine (ok.torn set' live' ((elsewhere set' same).symm.trans none)).imp_right fun torn => ?_
      change 0 < 0 + rest _ at torn
      exact Nat.add_pos_right _ (by omega)
    · have other := ne_of_live live dead
      exact ⟨(elsewhere set' other).trans (ok.gone set' dead).1, (ok.gone set' dead).2⟩
  · have away : ∀ set', w.psRefs set' = 0 → set' ≠ set := fun _ => ne_of_refs (by omega)
    refine { Frame.refl (.setDeref set) g w with
      refs := fun set' none _ => ⟨rfl, ?_⟩
      chain := fun set' busy _ => ⟨?_, rfl, fun _ _ => rfl⟩ }
    · exact (elsewhere set' (away set' none)).trans none
    refine update_of_ne ?_ _ _
    rintro rfl
    rcases busy with locked | none
    · cases free.symm.trans locked
    · exact away set' none rfl
  · rintro _ ⟨⟩
    exact own.ungripped free (by omega)

end SetDeref

theorem Setting.detach (setting : Setting g w (.detach set (some p)) rest) : w.pLive p = true ∧
    Carried g w rest (.detach set (some p)) ((w.point p none).link p none)
      (.detach set (w.pSetLink p)) := by
  have ok := setting.ok
  obtain ⟨live, none, path⟩ := setting.own
  cases split : g.lists set with
  | nil =>
    rw [split] at path
    cases path
  | cons x l =>
  rw [split] at path
  obtain ⟨rfl, after⟩ : p = x ∧ _ := ⟨some.inj path.1, path.2⟩
  have home := ok.home_of_mem (split ▸ List.mem_cons_self : p ∈ g.lists set)
  have fresh := (List.nodup_cons.mp (split ▸ ok.nodup set)).1
  have outside : ∀ set' ≠ set, p ∉ g.lists set' := fun set' other listed =>
    other (Option.some.inj ((ok.home_of_mem listed).symm.trans home))
  refine ⟨ok.homed p set home, (g.relist set l).rehome p Option.none, ?_, ?_, ?_, fun b _ _ apart =>
    ⟨fun _ none => (by cases none), apart.2⟩⟩
  · refine { ok with
      right := fun q set' home => ?_
      pointed := ok.pointed_point (fun _ => rfl) (ite_self Option.none).symm
      places := fun q set' => ?_
      homed := fun q set' home => ?_
      listed := fun set' live' some => ?_
      gone := fun set' dead => ?_ }
    · exact ok.right q set' (home_of_rehome home).2
    · have places := ok.places q set'
      rw [unlink_count (show g.lists set = [] ++ p :: l from split) q set', List.nil_append]
        at places
      rw [lists_rehome]
      have counted :=
        place_homed home (home_rehome (g := g.relist set l)) (fun _ other => home_rehome_ne other)
          q set'
      dsimp only [Pi.add_apply, SetWork.tally] at places ⊢
      omega
    · exact ok.homed q set' (home_of_rehome home).2
    · have other := (ne_of_refs some none).symm
      rw [lists_rehome, lists_relist_ne other]
      exact (ok.listed set' live' some).imp_left fun path => path.update (outside set' other) _
    · have other := ne_of_live live dead
      rw [lists_rehome, lists_relist_ne other]
      exact ok.gone set' dead
  · refine ⟨live, none, ?_⟩
    rw [lists_rehome, lists_relist]
    exact after.update fresh _
  refine { Frame.refl (.detach set (some p)) g w with
    home := fun q => ?_
    chain := fun set' _ apart => ?_ }
  · by_cases same : q = p
    · rw [same]
      exact .inr (.inr (.inr ⟨set, home, none⟩))
    · exact .inl ⟨home_rehome_ne same, update_of_ne same _ _⟩
  have other : set' ≠ set := fun same => apart (congrArg some same.symm)
  refine ⟨rfl, lists_relist_ne other, fun q listed => update_of_ne ?_ _ _⟩
  rintro rfl
  exact outside set' other listed

theorem Setting.freeSet (setting : Setting g w (.detach set none) rest) :
    w.psLive set = true ∧ w.psRefs set = 0 ∧
    w.psMemberCount set = 0 ∧
    Carried g w rest (.detach set none) { w with psLive := update w.psLive set false } .idle := by
  have ok := setting.ok
  obtain ⟨live, none, path⟩ := setting.own
  have empty : g.lists set = [] := by
    cases split : g.lists set with
    | nil => rfl
    | cons x l =>
      rw [split] at path
      cases path.1
  have away : ∀ set', update w.psLive set false set' = true →
      set' ≠ set ∧ w.psLive set' = true := by
    intro set' live'
    have other : set' ≠ set := by
      rintro rfl
      cases (update_self _ _ _).symm.trans live'
    exact ⟨other, (update_of_ne other _ _).symm.trans live'⟩
  refine ⟨live, none, (ok.torn set live none).1, g, ?_, trivial, ?_,
    fun b _ _ _ => no_drops rfl rfl b⟩
  · refine { ok with
      listed := fun set' live' some => ?_, torn := fun set' live' none => ?_
      gone := fun set' dead => ?_ }
    · exact ok.listed set' (away set' live').2 some
    · obtain ⟨other, live'⟩ := away set' live'
      refine (ok.torn set' live' none).imp_right fun torn => ?_
      change 0 < (if set = set' then 1 else 0) + rest _ at torn
      rwa [if_neg (Ne.symm other)] at torn
    by_cases same : set' = set
    · rw [same]
      exact ⟨none, empty⟩
    · exact ok.gone set' ((update_of_ne same _ _).symm.trans dead)
  · refine { Frame.refl (.detach set .none) g w with refs := fun set' none apart => ⟨?_, none⟩ }
    have other : set' ≠ set := fun same => apart (congrArg some same.symm)
    exact update_of_ne other _ _

/-! ### A name deallocated -/

theorem drops_about (drops : b.drops = some p) : b.about = some p := by
  cases b with
  | lock set q purpose | walk set q prev cur purpose =>
    cases purpose with
    | remove => cases drops
    | leave why => exact drops
  | divert q r | leaveClear q why | post q r | deref q r | finish q last => exact drops
  | _ => cases drops

theorem limbo_about (there : 0 < b.tally (.limbo p set)) : b.about = some p := by
  rcases limbo_tally there with rfl | rfl <;> rfl

theorem takesApart_of_tally (there : 0 < b.tally (.name set) ∨ 0 < b.tally (.torn set)) :
    b.takesApart = some set := by
  cases b with
  | setDeref set' =>
    simp only [SetWork.tally, nameTally, lt_irrefl, or_false] at there
    split at there
    next same => rw [← same]; rfl
    · cases there
  | detach set' cur =>
    simp only [SetWork.tally, lt_irrefl, false_or] at there
    split at there
    next same => rw [← same]; rfl
    · cases there
  | lock set q purpose | walk set q prev cur purpose =>
    cases purpose with
    | remove => rcases there with h | h <;> cases h
    | leave why => cases why <;> rcases there with h | h <;> cases h
  | leaveClear q why => cases why <;> rcases there with h | h <;> cases h
  | _ => rcases there with h | h <;> cases h

section Deallocate

variable {entry : PortEntry} {name : Name} (setting : Setting g w .idle rest)
  (there : w.psTable.lookup name = some entry)

def PortSets.without (w : PortSets) (name : Name) : PortSets :=
  { w with psTable := w.psTable.erase name }

include there in
theorem named_without (token : Token) :
    (w.without name).named token + entryTally entry token = w.named token :=
  congrFun (Table.total_erase_add (f := fun _ entry => entryTally entry) there) token

include setting there in
theorem Setting.without (tally : a'.tally = entryTally entry) :
    PortsOk g (w.without name) (a'.tally + rest) := by
  have ok := setting.ok
  have moved : ∀ token, (w.without name).named token + (a'.tally + rest) token =
      w.named token + (SetWork.idle.tally + rest) token := by
    intro token
    rw [tally, ← named_without there token]
    change _ + (entryTally entry token + rest token) = _ + _ + (0 + rest token)
    omega
  refine ok.recount ?_ rfl (fun q => ?_) (fun q => ?_) ok.freed (fun q set home => ?_) fun set => ?_
  · rw [tally]
    cases entry <;> exact ⟨fun _ => rfl, fun _ _ => rfl, fun _ => rfl⟩
  · rw [moved]
    exact ok.refs q
  · rw [moved]
    exact ok.receive q
  · rw [moved]
    exact ok.right q set home
  · rw [moved]
    exact ok.names set

include there in
theorem Own.without (own : Own g w b) (spared : b.spared w entry = true) :
    Own g (w.without name) b := by
  have named := named_without there
  have hasSet : ∀ set, b.reaches w = some set → w.HasSet set → (w.without name).HasSet set := by
    intro set reaches some
    have named := named (.name set)
    have none : entryTally entry (.name set) = 0 := by
      cases entry with
      | port p r _ | dead => rfl
      | set set' =>
      have other : b.reaches w ≠ Option.some set' := by simpa [SetWork.spared] using spared
      refine if_neg ?_
      rintro rfl
      exact other reaches
    unfold PortSets.HasSet at some ⊢
    omega
  have hasReceive : ∀ p, b.about = some p → w.HasReceive p → (w.without name).HasReceive p := by
    intro p about some
    have named := named (.receive p)
    have none : entryTally entry (.receive p) = 0 := by
      cases entry with
      | set set' | dead => rfl
      | port q r _ =>
      change (if q = p then r.receive.toNat else 0) = 0
      simp only [SetWork.spared, Bool.and_eq_true, Bool.or_eq_true, decide_eq_true_eq] at spared
      split
      next same =>
        subst same
        have mild := (spared.1.resolve_left fun other => other about).1
        simp only [Bool.not_eq_true'] at mild
        rw [mild]
        rfl
      · rfl
    unfold PortSets.HasReceive at some ⊢
    omega
  have stands : ∀ p r, (b = .divert p r ∨ b = .deref p r) → r.receive = true → w.Stands g p →
      (w.without name).Stands g p := by
    intro p r stage receive stands
    refine ⟨stands.1, fun set home => hasSet set ?_ (stands.2 set home)⟩
    have points := stands.1.trans home
    rcases stage with rfl | rfl
    · exact (if_pos receive).trans points
    · exact (if_pos receive).trans points
  cases b with
  | idle | extractScan _ | setDeref _ => trivial
  | insertPort set _ | removePort set _ => exact hasSet set rfl own
  | insertMark set p | insertLink set p => exact ⟨hasSet set rfl own.1, hasReceive p rfl own.2⟩
  | removeClear _ p | extractRead p => exact hasReceive p rfl own
  | lock set p purpose =>
    cases purpose with
    | remove => exact ⟨hasSet set rfl own.1, hasReceive p rfl own.2⟩
    | leave why => exact ⟨hasSet set rfl own.1, own.2.1, own.2.2.1, own.2.2.2.congr ⟨rfl, rfl⟩⟩
  | walk set p prev cur purpose =>
    cases purpose with
    | remove => exact ⟨hasSet set rfl own.1, hasReceive p rfl own.2.1, own.2.2⟩
    | leave why =>
      exact ⟨hasSet set rfl own.1, own.2.1, own.2.2.1, own.2.2.2.1.congr ⟨rfl, rfl⟩, own.2.2.2.2⟩
  | divert p r => exact ⟨own.1, own.2.1, stands p r (.inl rfl) own.2.1 own.2.2⟩
  | deref p r =>
    exact ⟨own.1, own.2.1, fun receive => stands p r (.inr rfl) receive (own.2.2 receive)⟩
  | leaveClear p why => exact ⟨own.1, own.2.1, own.2.2.congr ⟨rfl, rfl⟩⟩
  | post p r | finish p last | detach set cur | faulted => exact own

include setting there in
theorem Setting.stands {nonempty : r ≠ .empty} (is : entry = .port p r nonempty)
    (receive : r.receive = true)
    (spared : ∀ token, 0 < rest token → ∃ b : SetWork, 0 < b.tally token ∧
      b.spared w entry = true) :
    (w.without name).Stands g p := by
  subst is
  have ok := setting.ok
  have clear : ∀ token, 0 < rest token → ∃ b : SetWork, 0 < b.tally token ∧ b.about ≠ some p ∧
      (w.pSet p = none ∨ b.takesApart ≠ w.pSet p) := by
    intro token some
    obtain ⟨b, inside, fine⟩ := spared token some
    refine ⟨b, inside, ?_⟩
    simpa [SetWork.spared, receive] using fine
  have points : w.pSet p = g.home p := by
    have pointed := ok.pointed p
    split at pointed
    next leaving =>
      obtain ⟨b, inside, other, -⟩ := clear (.leaving p) (leaving.trans_eq (zero_add _))
      exact absurd (drops_about (leaving_tally inside).1) other
    · exact pointed
  refine ⟨points, fun set home => ?_⟩
  have intact : ∀ b : SetWork, (w.pSet p = none ∨ b.takesApart ≠ w.pSet p) →
      b.takesApart ≠ some set := by
    rintro b fine apart
    rw [points, home] at fine
    rcases fine with none | other
    · cases none
    · exact other apart
  -- the port is on the list, so the set is there; it is not taken apart, so it has a name
  have listed : p ∈ g.lists set := by
    have places := ok.places p set
    rw [if_pos home] at places
    by_contra none
    rw [List.count_eq_zero.mpr none] at places
    change 1 = 0 + (0 + rest (.limbo p set)) at places
    obtain ⟨b, inside, other, -⟩ := clear (.limbo p set) (by omega)
    exact other (limbo_about inside)
  have live : w.psLive set = true := by
    by_contra dead
    rw [(ok.gone set (by simpa using dead)).2] at listed
    cases listed
  have some : 0 < w.psRefs set := by
    by_contra none
    obtain ⟨b, inside, -, fine⟩ :=
      clear (.torn set) ((ok.torn set live (by omega)).2.trans_eq (zero_add _))
    exact intact b fine (takesApart_of_tally (.inr inside))
  have names := ok.names set
  have held : rest (.name set) = 0 := by
    by_contra other
    obtain ⟨b, inside, -, fine⟩ := clear (.name set) (pos_of_ne_zero other)
    exact intact b fine (takesApart_of_tally (.inl inside))
  have kept := named_without there (.name set)
  change _ + 0 = _ at kept
  change _ + (0 + rest _) = _ at names
  unfold PortSets.HasSet
  omega

include setting there in
theorem Setting.took (spared : ∀ token, 0 < rest token → ∃ b : SetWork, 0 < b.tally token ∧
    b.spared w entry = true) :
    PortsOk g (w.without name) ((dropped entry).tally + rest) ∧
      Own g (w.without name) (dropped entry) ∧
      ∀ b, b.spared w entry = true → Apart (dropped entry) b := by
  cases entry with
  | dead | set set => exact ⟨setting.without there rfl, trivial, fun b _ => no_drops rfl rfl b⟩
  | port p r nonempty =>
  have meets : ∀ a' : SetWork, a'.drops = some p → a'.destroys = r.receive → a'.grips = none →
      ∀ b : SetWork, b.spared w (.port p r nonempty) = true → Apart a' b := by
    intro a' drops destroys grips b fine
    refine ⟨fun q here both => ?_, fun _ some => absurd (grips.symm.trans some) (by simp)⟩
    cases drops.symm.trans here
    simp only [SetWork.spared, Bool.and_eq_true, Bool.or_eq_true, decide_eq_true_eq] at fine
    have mild := fine.1.resolve_left fun other => other (drops_about both)
    simp only [Bool.not_eq_true'] at mild
    exact ⟨destroys.trans mild.1, mild.2⟩
  simp only [dropped]
  split
  next receive =>
    have ok : PortsOk g (w.without name) (SetWork.tally (.divert p r) + rest) :=
      setting.without there rfl
    refine ⟨ok, ⟨?_, receive, setting.stands there rfl receive spared⟩, meets _ rfl rfl rfl⟩
    refine (ok.alive (p := p) (Nat.add_pos_right _ ?_)).1
    change 0 < (if p = p then r.receive.toNat else 0) + rest _
    rw [if_pos rfl, receive]
    exact Nat.add_pos_left Nat.one_pos _
  next mild =>
  have ok : PortsOk g (w.without name) (SetWork.tally (.deref p r) + rest) :=
    setting.without there rfl
  refine ⟨ok, ⟨?_, nonempty, fun receive => absurd receive mild⟩, meets _ rfl rfl rfl⟩
  by_contra dead
  have none := ok.freed p (by simpa using dead)
  have refs := ok.refs p
  have some := sends_of_nonempty nonempty (by simpa using mild)
  change _ + ((if p = p then r.send.toNat + r.sendOnce.toNat else 0) + rest _) + _ ≤ _ at refs
  rw [if_pos rfl] at refs
  have none : w.pRefs p = 0 := none
  omega

end Deallocate

/-! ### Runs -/

theorem spaceLookup_hasReceive (found : w.spaceLookup name = some p) : w.HasReceive p := by
  unfold PortSets.spaceLookup at found
  split at found
  next q r _ there =>
    split at found
    next receive =>
      cases found
      have named := named_without there (.receive p)
      simp only [entryTally, rightTally, if_true, receive, Bool.toNat_true] at named
      unfold PortSets.HasReceive
      omega
    · cases found
  · cases found

theorem spaceLookupSet_hasSet (found : w.spaceLookupSet name = some set) : w.HasSet set := by
  unfold PortSets.spaceLookupSet at found
  split at found
  next set' there =>
    cases found
    have named := named_without there (.name set)
    simp only [entryTally, nameTally, if_true] at named
    unfold PortSets.HasSet
    omega
  · cases found

theorem guarded_eq_some {good : Bool} {r : PortSets × SetWork} (fine : good = true)
    (taken : guarded good w r = some (w', a')) :
    r = (w', a') := by
  unfold guarded at taken
  rw [if_pos fine] at taken
  exact some.inj taken

theorem locked_eq_some {r : PortSets × SetWork} (live : w.psLive set = true)
    (taken : locked w set r = some (w', a')) :
    w.psLock set = false ∧ r = (w', a') := by
  unfold locked at taken
  rw [live] at taken
  split at taken
  · cases taken
  next free => exact ⟨by simpa using free, guarded_eq_some rfl taken⟩

theorem Setting.walk {prev cur : Option PortId} {purpose : Purpose}
    (setting : Setting g w (.walk set p prev cur purpose) rest)
    (taken : walk w set p prev purpose cur = some (w', a')) :
    Carried g w rest (.walk set p prev cur purpose) w' a' := by
  obtain ⟨own, -, pre, post, split, -, -, -, after⟩ := own_walk_iff.mp setting.own
  have live := (setting.hasSet_alive own.lock_hasSet).1
  cases cur with
  | none =>
    cases guarded_eq_some live taken
    exact setting.miss
  | some cur =>
  have listed : cur ∈ g.lists set := by
    cases post with
    | nil => cases after
    | cons x post =>
      cases after.1
      exact split ▸ List.mem_append_right pre List.mem_cons_self
  have alive := setting.ok.homed cur set (setting.ok.home_of_mem listed)
  simp only [Sets.walk] at taken
  split at taken
  next same =>
    subst same
    obtain ⟨before, carried⟩ := setting.hit
    cases guarded_eq_some (by simp [alive, live, before]) taken
    exact carried
  next other =>
    cases guarded_eq_some alive taken
    exact setting.pass other

theorem Setting.step {choice : Choice} (setting : Setting g w a rest)
    (taken : step choice w a = some (w', a'))
    (keeps : drops w a choice = none) : Carried g w rest a w' a' := by
  cases a with
  | idle =>
    cases choice with
    | answer yes => cases taken
    | call c =>
    have taken := some.inj taken
    cases c with
    | portSetInsert setName portName | portSetRemove setName portName =>
      cases taken
      cases found : w.spaceLookupSet setName with
      | none => exact setting.quiet trivial rfl rfl rfl
      | some set =>
        exact setting.quiet (spaceLookupSet_hasSet found) rfl rfl rfl
    | portSetExtract portName =>
      cases taken
      cases found : w.spaceLookup portName with
      | none => exact setting.quiet trivial rfl rfl rfl
      | some p =>
        exact setting.quiet (spaceLookup_hasReceive found) rfl rfl rfl
    | portDeallocate name =>
    have absent : w.psTable.lookup name = none := keeps
    simp only [begin, absent] at taken
    cases taken
    exact setting.quiet trivial rfl rfl rfl
  | insertPort set portName | removePort set portName =>
    cases some.inj taken
    cases found : w.spaceLookup portName with
    | none => exact setting.quiet trivial rfl rfl rfl
    | some p =>
      exact setting.quiet ⟨setting.own, spaceLookup_hasReceive found⟩ rfl rfl rfl
  | insertMark set p =>
    have taken := guarded_eq_some (setting.hasReceive_alive setting.own.2) taken
    split at taken
    · cases taken
      exact setting.quiet trivial rfl rfl rfl
    next free =>
      cases taken
      exact setting.mark (by simpa using free)
  | insertLink set p =>
    obtain ⟨free, same⟩ := locked_eq_some (setting.hasSet_alive setting.own.1).1 taken
    rw [if_pos (setting.hasReceive_alive setting.own.2)] at same
    cases same
    exact setting.link free
  | removeClear set p =>
    cases guarded_eq_some (setting.hasReceive_alive setting.own) taken
    exact setting.clear
  | lock set p purpose =>
    obtain ⟨free, same⟩ := locked_eq_some (setting.hasSet_alive setting.own.lock_hasSet).1 taken
    cases same
    exact setting.lock free
  | walk set p prev cur purpose => exact setting.walk taken
  | extractRead p =>
    cases guarded_eq_some (setting.hasReceive_alive setting.own) taken
    cases w.pSet p with
    | none | some set => exact setting.quiet trivial rfl rfl rfl
  | extractScan set =>
    cases some.inj taken
    exact setting.quiet trivial rfl rfl rfl
  | divert p r =>
    have taken := guarded_eq_some setting.own.1 taken
    split at taken
    · cases taken
      exact setting.divert
    · cases taken
      exact setting.stay rfl ⟨setting.own.1, nonempty_of_receive setting.own.2.1,
        fun _ => setting.own.2.2⟩ (fun _ here => ⟨here, id⟩)
        fun _ none => (by cases none)
  | leaveClear p why =>
    cases guarded_eq_some setting.own.1 taken
    exact setting.unlinkSelf
  | post p r =>
    cases some.inj taken
    split
    · exact setting.posted
    next =>
    obtain ⟨live, home, receive⟩ := setting.own
    have stands : w.Stands g p := by
      refine ⟨?_, named_of_none home⟩
      rw [setting.ok.pointed p, home, ite_self]
    exact setting.stay rfl ⟨live, nonempty_of_receive receive, fun _ => stands⟩ (fun _ here =>
      ⟨here, fun _ => rfl⟩)
      fun _ none => (by cases none)
  | deref p r =>
    obtain ⟨refs, has⟩ := setting.deref_asserts
    have fine : (w.pLive p && decide (r.size ≤ w.pRefs p) && (!r.receive || w.pHasReceive p)) =
        true := by
      cases receive : r.receive with
      | true => simp [setting.own.1, refs, has receive]
      | false => simp [setting.own.1, refs]
    have taken := guarded_eq_some fine taken
    split at taken
    next receive =>
      cases taken
      exact setting.deref_receive receive
    next mild =>
      cases taken
      exact setting.deref_send (by simpa using mild)
  | finish p last =>
    cases last with
    | true =>
      obtain ⟨live, none, lost, -⟩ := setting.own rfl
      cases guarded_eq_some (by simp [live, none, lost]) taken
      exact setting.free
    | false =>
      cases some.inj taken
      exact setting.quiet trivial rfl rfl rfl
  | setDeref set =>
    obtain ⟨live, names⟩ := setting.setDeref_names
    obtain ⟨free, same⟩ := locked_eq_some live taken
    rw [if_neg (by omega)] at same
    split at same
    next last =>
      cases same
      exact setting.tear free last
    next more =>
      cases same
      exact setting.unname more
  | detach set cur =>
    cases cur with
    | some p =>
      obtain ⟨live, carried⟩ := setting.detach
      cases guarded_eq_some live taken
      exact carried
    | none =>
      obtain ⟨live, none, count, carried⟩ := setting.freeSet
      cases guarded_eq_some (by simp [live, none, count]) taken
      exact carried
  | faulted => cases taken

/-- Some assignment of the ports to the sets explains the state. -/
def Sound {n : Nat} (s : Threads n PortSets SetWork) : Prop :=
  ∃ g, Threads.Sound (PortsOk g) SetWork.tally (Own g) Apart s

theorem Sound.step {n : Nat} {s s' : Threads n PortSets SetWork} {e : Fin n × Choice}
    (sound : Sound s)
    (taken : next s e = some s') (spared : spares s e s' = true) : Sound s' := by
  obtain ⟨i, choice⟩ := e
  obtain ⟨g, sound⟩ := sound
  obtain ⟨a', step, -⟩ := Threads.next_eq_some_iff.mp taken
  have setting : Setting g s.shared (s.pc i) (s.rest SetWork.tally i) := by
    refine ⟨?_, sound.own i, fun token some => ?_⟩
    · have ok := sound.world
      rwa [Threads.total_eq SetWork.tally s i] at ok
    · obtain ⟨j, other, holds⟩ := Threads.exists_of_rest some
      exact ⟨s.pc j, sound.own j, Threads.le_rest s other, holds, sound.apart i j (Ne.symm other)⟩
  have mine : ∀ j ≠ i, (s.pc j).tally ≤ (s.pc i).tally + s.rest SetWork.tally i :=
    fun j other token =>
    (Threads.le_rest s other token).trans (le_add_left _ _)
  cases dropping : drops s.shared (s.pc i) choice with
  | none =>
    obtain ⟨g', ok, own, frame, apart⟩ := setting.step step dropping
    refine ⟨g', sound.kept taken (fun w a' again _ _ => ?_) fun w a' j other again own' apart' _ =>
      ?_⟩
    · cases step.symm.trans again
      exact ⟨ok, own⟩
    · cases step.symm.trans again
      have next := apart _ own' (Threads.le_rest s other) apart'
      exact ⟨own'.stable frame setting.ok (mine j other) apart', next, next.symm⟩
  | some entry =>
  -- the thread was idle and takes a name out of the table
  obtain ⟨name, rfl, idle, there⟩ : ∃ name, choice = .call (.portDeallocate name) ∧ s.pc i = .idle ∧
      s.shared.psTable.lookup name = some entry := by
    unfold drops at dropping
    split at dropping
    next name =>
      split at dropping
      next idle => exact ⟨name, rfl, idle, dropping⟩
      · cases dropping
    · cases dropping
  have spared : ∀ j ≠ i, (s.pc j).spared s.shared entry = true := by
    unfold spares at spared
    rw [dropping] at spared
    simpa using spared
  rw [idle] at setting
  have took := setting.took there fun token some => by
    obtain ⟨j, other, holds⟩ := Threads.exists_of_rest some
    exact ⟨s.pc j, holds, spared j other⟩
  have begun : ∀ {w a'}, Sets.step (.call (.portDeallocate name)) s.shared (s.pc i) = some (w, a') →
      w = s.shared.without name ∧ a' = dropped entry := by
    intro w a' again
    rw [idle] at again
    simp only [Sets.step, begin, there, elim_some, some.injEq, Prod.mk.injEq] at again
    exact ⟨again.1.symm, again.2.symm⟩
  refine ⟨g, sound.kept taken (fun w a' again _ _ => ?_) fun w a' j other again own' _ _ => ?_⟩
  · obtain ⟨rfl, rfl⟩ := begun again
    exact ⟨took.1, took.2.1⟩
  obtain ⟨rfl, rfl⟩ := begun again
  have next := took.2.2 _ (spared j other)
  exact ⟨own'.without there (spared j other), next, next.symm⟩

/-! ### Between calls -/

/-- A state between calls: the pointers and the lists agree, the reference counts cover the names in
the table, and the receive right of every member is in the table. -/
structure PortSets.Settled (w : PortSets) : Prop where
  consistent : w.Consistent
  refs : ∀ p, w.named (.send p) + (w.pHasReceive p).toNat ≤ w.pRefs p
  receive : ∀ p, w.named (.receive p) ≤ (w.pHasReceive p).toNat
  freed : ∀ p, w.pLive p = false → w.pRefs p = 0
  right : ∀ p set, w.pSet p = some set → 0 < w.named (.receive p)
  names : ∀ set, w.named (.name set) = w.psRefs set
  kept : ∀ set, w.psLive set = true ↔ 0 < w.psRefs set

theorem idle_tally : SetWork.idle.tally = 0 := by
  funext token
  cases token <;> rfl

theorem PortSets.Settled.ok (settled : w.Settled) : ∃ g, PortsOk g w 0 := by
  have consistent := settled.consistent
  have some : ∀ set, ∃ members, (w.psLive set = true → w.Lists set members) ∧
      (w.psLive set = false → members = []) := by
    intro set
    cases live : w.psLive set with
    | true =>
      obtain ⟨members, lists⟩ := consistent.lists set live
      exact ⟨members, fun _ => lists, fun dead => (by cases dead)⟩
    | false => exact ⟨[], fun live => (by cases live), fun _ => rfl⟩
  choose lists live dead using some
  have exactly : ∀ p set, p ∈ lists set ↔ w.pSet p = some set := by
    intro p set
    cases alive : w.psLive set with
    | true => exact (consistent.exact set _ alive (live set alive)).2.2 p
    | false =>
      rw [dead set alive]
      refine ⟨fun none => (by cases none), fun points => ?_⟩
      cases alive.symm.trans (consistent.pointers p set points)
  have nodup : ∀ set, (lists set).Nodup := by
    intro set
    cases alive : w.psLive set with
    | true => exact (consistent.exact set _ alive (live set alive)).1
    | false => exact dead set alive ▸ List.nodup_nil
  refine ⟨⟨lists, w.pSet⟩, settled.refs, settled.receive, settled.freed,
    fun p set points => .inl (settled.right p set points), fun p => rfl, fun p set => ?_,
    fun p set points => ?_,
    settled.names, fun set alive _ => ?_, fun set alive none => ?_, fun set gone => ?_⟩
  · change _ = (lists set).count p + 0
    rw [add_zero, List.Nodup.count (nodup set)]
    simp only [exactly]
  · have alive := consistent.pointers p set points
    exact (consistent.alive set _ p alive (live set alive) ((exactly p set).mpr points)).1
  · exact ⟨live set alive, (consistent.exact set _ alive (live set alive)).2.1⟩
  · have more := (settled.kept set).mp alive
    omega
  · refine ⟨?_, dead set gone⟩
    by_contra more
    cases gone.symm.trans ((settled.kept set).mpr (pos_of_ne_zero more))

theorem PortsOk.consistent (ok : PortsOk g w 0) : w.Consistent := by
  have listed : ∀ set, w.psLive set = true →
      w.Lists set (g.lists set) ∧ w.psMemberCount set = (g.lists set).length := by
    intro set live
    refine ok.listed set live (pos_of_ne_zero fun none => ?_)
    exact absurd (ok.torn set live none).2 (lt_irrefl 0)
  have points : ∀ p set, p ∈ g.lists set ↔ w.pSet p = some set := by
    intro p set
    have places : (if g.home p = some set then 1 else 0) = (g.lists set).count p := ok.places p set
    have pointed := ok.pointed p
    rw [pointed, ← List.count_pos_iff, ← places]
    split <;> simp [*]
  have only : ∀ set members, w.psLive set = true → w.Lists set members → members = g.lists set :=
    fun set members live lists => Path.unique lists (listed set live).1
  refine ⟨fun set live => ⟨_, (listed set live).1⟩, fun set members live lists => ?_,
    fun set set' members members' p live live' lists lists' here there => ?_,
    fun set members p live lists here => ?_, fun p set point => ?_⟩
  · rw [only set members live lists]
    exact ⟨ok.nodup set, (listed set live).2, fun p => points p set⟩
  · rw [only set members live lists, points] at here
    rw [only set' members' live' lists', points] at there
    exact some.inj (here.symm.trans there)
  · rw [only set members live lists] at here
    rcases ok.right p set (ok.home_of_mem here) with right | leaving
    · exact ok.alive right
    · exact absurd leaving (lt_irrefl 0)
  by_contra dead
  have gone := (ok.gone set (by simpa using dead)).2
  have member := (points p set).mpr point
  rw [gone] at member
  cases member

/-- Whatever the threads of a task do with their sets, no call runs into freed memory or a failed
assertion, and whenever no call is in progress every pointer and every list agree, as long as a
receive right or a set is dropped only when no other call is at work on it. -/
theorem membership_consistent {n : Nat} {s₀ s : Threads n PortSets SetWork}
    (settled : s₀.shared.Settled)
    (idle : ∀ i, s₀.pc i = .idle) (run : Runs next (fun s e s' => spares s e s' = true) s₀ s) :
    (∀ i, s.pc i ≠ .faulted) ∧ ((∀ i, s.pc i = .idle) → s.shared.Consistent) := by
  have empty : ∀ t : Threads n PortSets SetWork, (∀ i, t.pc i = .idle) →
      t.total SetWork.tally = 0 := by
    intro t quiet
    refine Finset.sum_eq_zero fun i _ => ?_
    rw [quiet i, idle_tally]
  have start : Sound s₀ := by
    obtain ⟨g, ok⟩ := settled.ok
    refine ⟨g, ?_, fun i => ?_, fun i j _ => ?_⟩
    · rw [empty s₀ idle]
      exact ok
    · rw [idle i]
      trivial
    · rw [idle i]
      exact no_drops rfl rfl _
  have sound := run.invariant start fun _ _ _ sound taken spared => sound.step taken spared
  obtain ⟨g, sound⟩ := sound
  refine ⟨fun i fault => ?_, fun quiet => ?_⟩
  · have own := sound.own i
    rw [fault] at own
    exact own
  · have ok := sound.world
    rw [empty s quiet] at ok
    exact ok.consistent

/-- A task with a set at name 1 and the receive right of a port at name 2. -/
def desk (refs : Nat) : PortSets where
  psTable :=
    AList.insert 2 (.port 5 (.only .receive) (nonempty_of_receive rfl)) (AList.insert 1 (.set 7) ∅)
  pLive p := decide (p = 5)
  pRefs p := if p = 5 then refs else 0
  pHasReceive p := decide (p = 5)
  pSet _ := none
  pSetLink _ := none
  psLive set := decide (set = 7)
  psLock _ := false
  psRefs set := if set = 7 then 1 else 0
  psMembersHead _ := none
  psMemberCount _ := 0

theorem desk_settled {refs : Nat} (some : 0 < refs) : (desk refs).Settled := by
  have named : (desk refs).named = rightTally 5 (.only .receive) + (nameTally 7 + 0) := rfl
  have empty : ∀ set members, (desk refs).Lists set members → members = [] := by
    intro set members lists
    cases members with
    | nil => rfl
    | cons p members => cases lists.1
  refine ⟨⟨fun set _ => ⟨[], rfl⟩, fun set members _ lists => ?_,
    fun set set' members members' p _ _ lists _ here => ?_, fun set members p _ lists here => ?_,
    fun p set point => ?_⟩,
    fun p => ?_, fun p => ?_, fun p dead => ?_, fun p set point => ?_, fun set => ?_, fun set => ?_⟩
  · rw [empty set members lists]
    exact ⟨List.nodup_nil, rfl,
      fun p => ⟨fun none => (by cases none), fun point => (by cases point)⟩⟩
  · rw [empty set members lists] at here
    cases here
  · rw [empty set members lists] at here
    cases here
  · cases point
  · rw [named]
    by_cases mine : p = 5
    · subst mine
      simp [rightTally, nameTally, desk, Rights.only]
      omega
    · simp [rightTally, nameTally, desk, Ne.symm mine, mine]
  · rw [named]
    by_cases mine : p = 5
    · subst mine
      simp [rightTally, nameTally, desk, Rights.only]
    · simp [rightTally, nameTally, desk, Ne.symm mine]
  · have other : p ≠ 5 := by simpa [desk] using dead
    simp [desk, other]
  · cases point
  · rw [named]
    by_cases mine : set = 7
    · subst mine
      simp [rightTally, nameTally, desk]
    · simp [rightTally, nameTally, desk, Ne.symm mine, mine]
  · by_cases mine : set = 7 <;> simp [desk, mine]

/-- A remove comes too early for the insert beside it. -/
theorem membership_consistent_desk :
    ∃ s : Threads 2 PortSets SetWork, (∀ i, s.pc i = .idle) ∧ s.shared.pSet 5 = some 7 ∧
    s.shared.Consistent := by
  obtain ⟨s, run, idle, set⟩ : ∃ s : Threads 2 PortSets SetWork,
    Runs next (spares · · · = true) ⟨desk 1, fun _ => .idle⟩ s ∧
      (∀ i, s.pc i = .idle) ∧ s.shared.pSet 5 = some 7 :=
    Runs.exists_of_follow [(0, .call (.portSetInsert 1 2)), (1, .call (.portSetRemove 1 2)),
      (0, .answer true),
      (1, .answer true), (0, .answer true), (1, .answer true), (1, .answer true),
      (0, .answer true)] (by decide +kernel)
  have holds :=
    @membership_consistent 2 ⟨desk 1, fun _ => .idle⟩ s (desk_settled one_pos) (fun _ => rfl) run
  exact ⟨s, idle, set, holds.2 idle⟩

/-- A port is deallocated after an insert has pointed it to the set and before it is linked. Its
death finds nothing on the list; then the insert links it. -/
theorem insert_lists_dead_port : (desk 2).Settled ∧ ∃ s : Threads 2 PortSets SetWork,
    Runs next (fun _ _ _ => True) ⟨desk 2, fun _ => .idle⟩ s ∧ (∀ i, s.pc i = .idle) ∧
      ¬s.shared.Consistent := by
  obtain ⟨s, run, idle, live, head, link, lost⟩ : ∃ s : Threads 2 PortSets SetWork,
      Runs next (fun _ _ _ => True) ⟨desk 2, fun _ => .idle⟩ s ∧ (∀ i, s.pc i = .idle) ∧
      s.shared.psLive 7 = true ∧
      s.shared.psMembersHead 7 = some 5 ∧ s.shared.pSetLink 5 = none ∧
        s.shared.pHasReceive 5 = false :=
    Runs.exists_of_follow [(0, .call (.portSetInsert 1 2)), (0, .answer false), (0, .answer false),
      (1, .call (.portDeallocate 2)), (1, .answer false), (1, .answer false), (1, .answer false),
      (1, .answer false),
      (1, .answer false), (1, .answer false), (0, .answer false)] (by decide +kernel)
  refine ⟨desk_settled Nat.two_pos, s, run, idle, fun fine => ?_⟩
  have lists : s.shared.Lists 7 [5] := ⟨head, link⟩
  have alive := (fine.alive 7 [5] 5 live lists List.mem_cons_self).2.1
  cases lost.symm.trans alive

end Style9.Mach.Sets
