import Style9.Mach.Services

/-!
# Custody of service ports

Every request keeps the books of launchd and bootstrap in agreement with `kernel_space`, as long as
nobody deregisters the label of a service and the reply to a check-in goes to the job. The steps are
put together from a few changes: of one entry of the table, of one cell, and of where the receive
right of a port is that no cell keeps.
-/
namespace Style9.Mach.Services

open Style9.Lib Function List Option Nat Bool

variable {w w' : Bootstrap} {i j : Launchd.CellIndex} {p q : PortId} {n : Name} {label : Bytes}
  {e : Entry} {c : Cell}
  {task : Nat}

/-! ### One change -/

def Bootstrap.Unkept (w : Bootstrap) (p : PortId) : Prop := ∀ i, ¬w.keeps i p

theorem Place.frame (place : Place w i p) (cell : w'.cells i = { w.cells i with lcTaskId := task })
    (table : w'.table = w.table) (away : w'.away p = w.away p) (armed : w'.armed p = w.armed p)
    (client : w'.client p = w.client p) : Place w' i p := by
  cases place with
  | here e named entry port receive gone armed' =>
    refine .here e ?_ ?_ port receive (away.trans gone) (armed.trans armed')
    · rwa [cell]
    · rwa [cell, table]
  | out unnamed gone armed' =>
    refine .out ?_ ?_ (armed.trans armed')
    · rwa [cell]
    · rwa [away, client]
  | back unnamed gone =>
    refine .back ?_ (away.trans gone)
    rwa [cell]

theorem Custody.frame (custody : Custody w i p)
    (cell : w'.cells i = { w.cells i with lcTaskId := task })
    (table : w'.table = w.table) (away : w'.away p = w.away p) (armed : w'.armed p = w.armed p)
    (client : w'.client p = w.client p)
    (registry : ∀ r ∈ w.registry, r.bsName = (w.cells i).lcName → r ∈ w'.registry)
    (below : w.nextPort ≤ w'.nextPort) : Custody w' i p := by
  refine ⟨custody.place.frame cell table away armed client, ?_, ?_, ?_, ?_,
    lt_of_lt_of_le custody.below below⟩
  · rw [table, cell]
    exact custody.only
  · rw [table, cell]
    exact custody.send
  · rw [table, cell]
    exact custody.alone
  · rw [cell]
    exact registry _ custody.registered rfl

/-- One entry of the table changes: the registrations at its name and the cell that has the receive
right there still find what they need, and no other receive right of a kept port appears. -/
theorem ServicesOk.setEntry {v : Option Entry} (ok : ServicesOk w) (named : n ≠ machPortNull)
    (ports : ∀ e, v = some e → e.port < w.nextPort)
    (registered : ∀ r ∈ w.registry, r.bsKname = n → ∃ e, v = some e ∧ e.port = r.port ∧
      e.send = true)
    (received : ∀ i p, w.keeps i p → (w.cells i).lcSvcRecv = n →
      ∃ e, v = some e ∧ e.port = p ∧ e.receive = true ∧
        ((w.cells i).lcSvcRecv ≠ (w.cells i).lcSvcSend → e.send = false))
    (only : ∀ i p e, w.keeps i p → v = some e → e.port = p → e.receive = true →
      n = (w.cells i).lcSvcRecv) :
    ServicesOk (w.setEntry n v) := by
  have same : (w.setEntry n v).table n = v := update_self ..
  have other : ∀ m ≠ n, (w.setEntry n v).table m = w.table m := fun m ne => update_of_ne ne ..
  have registrations : ∀ r ∈ w.registry, ∃ e, (w.setEntry n v).table r.bsKname = some e ∧
    e.port = r.port ∧
      e.send = true := fun r inside => by
    by_cases here : r.bsKname = n
    · rw [here, same]
      exact registered r inside here
    · rw [other _ here]
      exact ok.registered r inside
  refine { ok with
    null := (other _ named.symm).trans ok.null, ports := fun m e entry => ?_
    registered := registrations
    custody := fun i p keeps => ?_ }
  · by_cases here : m = n
    · rw [here, same] at entry
      exact ports e entry
    · rw [other m here] at entry
      exact ok.ports m e entry
  have before := ok.custody i p keeps
  refine ⟨?_, fun m e entry => ?_, registrations _ before.registered, fun e differ entry => ?_,
    before.registered,
    before.below⟩
  · cases before.place with
    | here e₀ recv entry port receive away armed =>
      by_cases here : (w.cells i).lcSvcRecv = n
      · obtain ⟨e', is, port', receive', -⟩ := received i p keeps here
        refine .here e' recv ?_ port' receive' away armed
        change (w.setEntry n v).table (w.cells i).lcSvcRecv = _
        rw [here, same, is]
      · exact .here e₀ recv ((other _ here).trans entry) port receive away armed
    | out unnamed away armed => exact .out unnamed away armed
    | back unnamed away => exact .back unnamed away
  · intro port receive
    by_cases here : m = n
    · rw [here, same] at entry
      exact here.trans (only i p e keeps entry port receive)
    · rw [other m here] at entry
      exact before.only m e entry port receive
  change (w.setEntry n v).table (w.cells i).lcSvcRecv = some e at entry
  by_cases here : (w.cells i).lcSvcRecv = n
  · obtain ⟨e', is, -, -, alone⟩ := received i p keeps here
    rw [here, same, is] at entry
    cases entry
    exact alone differ
  · rw [other _ here] at entry
    exact before.alone e differ entry

theorem ServicesOk.recv_entry (ok : ServicesOk w) (keeps : w.keeps i p) (named : n ≠ machPortNull)
    (recv : (w.cells i).lcSvcRecv = n) :
    ∃ e, w.table n = some e ∧ e.port = p ∧ e.receive = true := by
  cases (ok.custody i p keeps).place with
  | here e _ entry port receive => exact ⟨e, recv ▸ entry, port, receive⟩
  | out unnamed | back unnamed => exact absurd (recv.symm.trans unnamed) named

theorem isFree_iff : w.isFree n = true ↔ n ≠ machPortNull ∧ w.table n = none := by
  simp [Bootstrap.isFree]

theorem ServicesOk.unregistered (ok : ServicesOk w) (empty : w.table n = none) :
    ∀ r ∈ w.registry, r.bsKname ≠ n := by
  intro r inside same
  obtain ⟨e, known, -⟩ := ok.registered r inside
  rw [same, empty] at known
  cases known

theorem ServicesOk.install (ok : ServicesOk w) (free : w.isFree n = true)
    (below : e.port < w.nextPort)
    (unkept : e.receive = true → w.Unkept e.port) : ServicesOk (w.setEntry n (some e)) := by
  obtain ⟨named, empty⟩ := isFree_iff.mp free
  refine ok.setEntry named (fun e' is => some.inj is ▸ below)
    (fun r inside here => absurd here (ok.unregistered empty r inside)) (fun i p keeps here => ?_)
    (fun i p e' keeps is port receive => ?_)
  · obtain ⟨e', entry, -⟩ := ok.recv_entry keeps named here
    rw [empty] at entry
    cases entry
  · cases is
    exact absurd (port ▸ keeps) (unkept receive i)

theorem means_self (port : e.port = p) : w.means e p = w := by
  simp [Bootstrap.means, port]

theorem svcArm_eq (entry : w.table n = some e) (port : e.port = p) (receive : e.receive = true) :
    w.svcArm n i p = ({ w with armed := update w.armed p (some i) }, true) := by
  simp [Bootstrap.svcArm, entry, receive, means_self port, port]

theorem ServicesOk.elsewhere {away : PortId → Option Away}
    {armed : PortId → Option Launchd.CellIndex} (ok : ServicesOk w)
    (place : ∀ i p, w.keeps i p → Place { w with away := away, armed := armed } i p)
    (unborn : ∀ p, w.nextPort ≤ p → away p = none) :
      ServicesOk { w with away := away, armed := armed } := by
  refine { ok with
    unborn := unborn, registered := ok.registered, custody := fun i p keeps => ?_
    owners := ok.owners }
  exact { ok.custody i p keeps with place := place i p keeps }

theorem ServicesOk.relocate (ok : ServicesOk w) (unkept : w.Unkept p) (below : p < w.nextPort)
    (a : Option Away)
    (b : Option Launchd.CellIndex) :
    ServicesOk { w with away := update w.away p a, armed := update w.armed p b } := by
  refine ok.elsewhere (fun i q keeps => ?_) fun q unborn => ?_
  · have other : q ≠ p := fun same => unkept i (same ▸ keeps)
    exact (ok.custody i q keeps).place.frame rfl rfl (update_of_ne other ..)
      (update_of_ne other ..) rfl
  · have other : q ≠ p := fun same => Nat.not_le_of_lt below (same ▸ unborn)
    exact (update_of_ne other ..).trans (ok.unborn q unborn)

theorem ServicesOk.checkedIn (ok : ServicesOk w) (unkept : w.Unkept p) (task : Nat) :
    ServicesOk { w with client := update w.client p task } := by
  refine { ok with
    registered := ok.registered, custody := fun i q keeps => ?_
    owners := ok.owners }
  have other : q ≠ p := fun same => unkept i (same ▸ keeps)
  exact (ok.custody i q keeps).frame rfl rfl rfl rfl (update_of_ne other ..)
    (fun _ inside _ => inside) le_rfl

theorem ServicesOk.portDeallocate (ok : ServicesOk w) (unkept : w.Unkept p)
    (entry : ∀ e, w.table n = some e → e.port = p)
    (unregistered : ∀ r ∈ w.registry, r.bsKname ≠ n) : ServicesOk (w.portDeallocate n p) := by
  unfold Bootstrap.portDeallocate
  split
  · exact ok
  next e known =>
  have port := entry e known
  have named : n ≠ machPortNull := by
    rintro rfl
    rw [ok.null] at known
    cases known
  have dropped : ServicesOk (w.setEntry n none) := by
    refine ok.setEntry named (fun _ is => (by cases is)) (fun r inside here =>
      absurd here (unregistered r inside))
      (fun i q keeps here => ?_) (fun _ _ _ _ is => (by cases is))
    obtain ⟨e', entry', port', -⟩ := ok.recv_entry keeps named here
    cases known.symm.trans entry'
    exact absurd ((port'.symm.trans port) ▸ keeps) (unkept i)
  rw [means_self port]
  split
  · rw [port]
    exact dropped.relocate unkept (port ▸ ok.ports n e known) _ none
  · exact dropped

theorem portDeallocate_frame (w : Bootstrap) (n : Name) (p : PortId) :
    (w.portDeallocate n p).cells = w.cells ∧ (w.portDeallocate n p).registry = w.registry ∧
      ∀ m ≠ n, (w.portDeallocate n p).table m = w.table m := by
  unfold Bootstrap.portDeallocate
  split
  · exact ⟨rfl, rfl, fun _ _ => rfl⟩
  · split <;> exact ⟨rfl, rfl, fun _ ne => update_of_ne ne ..⟩

theorem unkept_portDeallocate : (w.portDeallocate n q).Unkept p ↔ w.Unkept p := by
  unfold Bootstrap.Unkept Bootstrap.keeps
  rw [(portDeallocate_frame w n q).1]

/-! ### The registry -/

theorem eraseP_eq_filter {l : List Registration} (names : (l.map Registration.bsName).Nodup) :
    l.eraseP (·.bsName == label) = l.filter (·.bsName != label) := by
  induction l with
  | nil => rfl
  | cons r rest ih =>
  obtain ⟨fresh, nodup⟩ := nodup_cons.mp names
  by_cases here : r.bsName = label
  · -- no later registration has the label
    have rest_eq : rest.filter (·.bsName != label) = rest := by
      refine filter_eq_self.mpr fun r' inside => ?_
      have differ : r'.bsName ≠ label :=
        fun same => fresh (mem_map.mpr ⟨r', inside, same.trans here.symm⟩)
      simpa using differ
    simp [here, rest_eq]
  · simp [here, ih nodup]

theorem ServicesOk.mem_unregister (ok : ServicesOk w) {r : Registration} :
    r ∈ (w.bootstrapUnregister label).registry ↔ r ∈ w.registry ∧ r.bsName ≠ label := by
  unfold Bootstrap.bootstrapUnregister
  rw [eraseP_eq_filter ok.names]
  simp

theorem ServicesOk.bootstrapUnregister (ok : ServicesOk w)
    (others : ∀ i p, w.keeps i p → (w.cells i).lcName ≠ label) :
    ServicesOk (w.bootstrapUnregister label) := by
  have sub : (w.bootstrapUnregister label).registry.Sublist w.registry := eraseP_sublist
  refine { ok with
    registered := fun r inside => ok.registered r (sub.subset inside)
    names := ok.names.sublist (sub.map _)
    knames := ok.knames.sublist (sub.map _), custody := fun i p keeps => ?_, owners := ok.owners }
  refine (ok.custody i p keeps).frame rfl rfl rfl rfl rfl (fun r inside name => ?_) le_rfl
  exact ok.mem_unregister.mpr ⟨inside, fun same => others i p keeps (name.symm.trans same)⟩

theorem ServicesOk.bootstrapRegister (ok : ServicesOk w)
    (made : w.bootstrapRegister label n p = some w') (entry : w.table n = some e)
    (port : e.port = p) (send : e.send = true) (fresh : ∀ r ∈ w.registry, r.bsKname ≠ n) :
    ServicesOk w' ∧ w' = { w with registry := w.registry ++ [⟨label, n, p⟩] } ∧ ∀ r ∈ w.registry,
      r.bsName ≠ label := by
  obtain ⟨refusal, made⟩ := ite_none_left_eq_some.mp made
  cases made
  have unused : ∀ r ∈ w.registry, r.bsName ≠ label := by
    intro r inside same
    exact refusal (.inr (.inl (any_eq_true.mpr ⟨r, inside, beq_iff_eq.mpr same⟩)))
  refine ⟨?_, rfl, unused⟩
  refine { ok with
    registered := ?_, names := ?_, knames := ?_, custody := fun i p keeps => ?_
    owners := ok.owners }
  · intro r inside
    rcases mem_append.mp inside with earlier | new
    · exact ok.registered r earlier
    · rw [mem_singleton.mp new]
      exact ⟨e, entry, port, send⟩
  · rw [map_append]
    refine List.Nodup.append ok.names (nodup_singleton _) fun name earlier new => ?_
    obtain ⟨r, inside, rfl⟩ := mem_map.mp earlier
    exact unused r inside (mem_singleton.mp new)
  · rw [map_append]
    refine List.Nodup.append ok.knames (nodup_singleton _) fun kname earlier new => ?_
    obtain ⟨r, inside, rfl⟩ := mem_map.mp earlier
    exact fresh r inside (mem_singleton.mp new)
  · exact (ok.custody i p keeps).frame rfl rfl rfl rfl rfl (fun r inside _ =>
      mem_append_left _ inside) le_rfl

/-! ### Cells -/

theorem setCell_cells (w : Bootstrap) (i : Launchd.CellIndex) (c : Cell) :
    (w.setCell i c).cells i = c := update_self ..

theorem setCell_cells_ne (ne : j ≠ i) : (w.setCell i c).cells j = w.cells j := update_of_ne ne ..

theorem keeps_setCell_ne (ne : j ≠ i) : (w.setCell i c).keeps j p ↔ w.keeps j p := by
  unfold Bootstrap.keeps
  rw [setCell_cells_ne ne]

theorem not_keeps_blank : ¬(w.setCell i .blank).keeps i p := by
  unfold Bootstrap.keeps
  rw [setCell_cells]
  exact fun keeps => absurd keeps.1 false_ne_true

theorem ServicesOk.setCell (ok : ServicesOk w)
    (plain : c.lcSvcPort = none → c.lcSvcSend = machPortNull)
    (labels : c.lcUsed = true → ∀ j ≠ i, (w.cells j).lcUsed = true → (w.cells j).lcName ≠ c.lcName)
    (owners : ∀ p, c.lcUsed = true → c.lcSvcPort = some p → ∀ j ≠ i, ¬w.keeps j p)
    (custody : ∀ p, c.lcUsed = true → c.lcSvcPort = some p → Custody (w.setCell i c) i p) :
    ServicesOk (w.setCell i c) := by
  refine { ok with
    registered := ok.registered, custody := fun j p keeps => ?_
    plain := fun j none => ?_, labels := ?_, owners := ?_ }
  · by_cases here : j = i
    · subst here
      unfold Bootstrap.keeps at keeps
      rw [setCell_cells] at keeps
      exact custody p keeps.1 keeps.2
    · exact (ok.custody j p ((keeps_setCell_ne here).mp keeps)).frame (setCell_cells_ne here) rfl
        rfl rfl rfl
        (fun _ inside _ => inside) le_rfl
  · by_cases here : j = i
    · subst here
      rw [setCell_cells] at none ⊢
      exact plain none
    · rw [setCell_cells_ne here] at none ⊢
      exact ok.plain j none
  · intro j k used used' same
    by_cases first : j = i
    · by_cases second : k = i
      · exact first.trans second.symm
      subst first
      rw [setCell_cells] at used same
      rw [setCell_cells_ne second] at used' same
      exact absurd same.symm (labels used k second used')
    rw [setCell_cells_ne first] at used same
    by_cases second : k = i
    · subst second
      rw [setCell_cells] at used' same
      exact absurd same (labels used' j first used)
    · rw [setCell_cells_ne second] at used' same
      exact ok.labels j k used used' same
  intro j k p keeps keeps'
  by_cases first : j = i
  · by_cases second : k = i
    · exact first.trans second.symm
    subst first
    unfold Bootstrap.keeps at keeps
    rw [setCell_cells] at keeps
    exact absurd ((keeps_setCell_ne second).mp keeps') (owners p keeps.1 keeps.2 k second)
  have mine := (keeps_setCell_ne first).mp keeps
  by_cases second : k = i
  · subst second
    unfold Bootstrap.keeps at keeps'
    rw [setCell_cells] at keeps'
    exact absurd mine (owners p keeps'.1 keeps'.2 j first)
  · exact ok.owners j k p mine ((keeps_setCell_ne second).mp keeps')

theorem ServicesOk.setCell_none (ok : ServicesOk w) (none : c.lcSvcPort = none)
    (send : c.lcSvcSend = machPortNull)
    (labels : c.lcUsed = true → ∀ j ≠ i, (w.cells j).lcUsed = true →
      (w.cells j).lcName ≠ c.lcName) :
    ServicesOk (w.setCell i c) :=
  ok.setCell (fun _ => send) labels (fun _ _ port =>
    absurd (none.symm.trans port) (some_ne_none _).symm)
    fun _ _ port => absurd (none.symm.trans port) (some_ne_none _).symm

theorem ServicesOk.blank (ok : ServicesOk w) (i : Launchd.CellIndex) :
    ServicesOk (w.setCell i .blank) :=
  ok.setCell_none rfl rfl fun used => absurd used false_ne_true

theorem ServicesOk.unkept_blank (ok : ServicesOk w) (keeps : w.keeps i p) :
    (w.setCell i .blank).Unkept p := by
  intro j still
  by_cases here : j = i
  · exact not_keeps_blank (here ▸ still)
  · exact here (ok.owners j i p ((keeps_setCell_ne here).mp still) keeps)

theorem byName_some (found : w.byName label = some i) :
    (w.cells i).lcUsed = true ∧ (w.cells i).lcName = label := by
  simpa using find?_some found

theorem byName_none (missing : w.byName label = none) (used : (w.cells j).lcUsed = true) :
    (w.cells j).lcName ≠ label := by
  have here := find?_eq_none.mp missing j (mem_finRange j)
  simpa [used] using here

theorem serviceByName_some (found : w.serviceByName label = some i) :
    ∃ p, w.keeps i p ∧ (w.cells i).lcName = label := by
  have here := find?_some found
  simp only [and_eq_true, beq_iff_eq, isSome_iff_exists] at here
  obtain ⟨⟨used, p, port⟩, name⟩ := here
  exact ⟨p, ⟨used, port⟩, name⟩

theorem serviceByName_none (missing : w.serviceByName label = none) (keeps : w.keeps j p) :
    (w.cells j).lcName ≠ label := by
  have here := find?_eq_none.mp missing j (mem_finRange j)
  simpa [keeps.1, keeps.2] using here

theorem ServicesOk.opLoad {task : Option Nat} (ok : ServicesOk w) :
    ServicesOk (w.opLoad label task) := by
  unfold Bootstrap.opLoad
  split
  next i missing free =>
    exact ok.setCell_none rfl rfl fun _ j _ used => byName_none missing used
  · exact ok

/-! ### Making and destroying a service -/

theorem ServicesOk.svcDestroy {send recv : Name} (ok : ServicesOk w) (unkept : w.Unkept p)
    (others : ∀ i q, w.keeps i q → (w.cells i).lcName ≠ label)
    (registered : send ≠ machPortNull → ⟨label, send, p⟩ ∈ w.registry)
    (received : recv ≠ machPortNull → recv ≠ send → ∃ e, w.table recv = some e ∧ e.port = p ∧
      e.send = false) :
    ServicesOk (w.svcDestroy label send recv p) := by
  unfold Bootstrap.svcDestroy
  split
  · exact ok
  next named =>
  have mine := registered named
  have gone := ok.bootstrapUnregister others
  -- the name of the send right is registered once, and no more now
  have last : ∀ r ∈ (w.bootstrapUnregister label).registry, r.bsKname ≠ send := by
    intro r inside same
    obtain ⟨earlier, differ⟩ := ok.mem_unregister.mp inside
    exact differ (congrArg Registration.bsName (inj_on_of_nodup_map ok.knames earlier mine same))
  have entry : ∀ e, w.table send = some e → e.port = p := by
    intro e known
    obtain ⟨e', known', port, -⟩ := ok.registered _ mine
    exact some.inj (known.symm.trans known') ▸ port
  split
  next apart =>
    obtain ⟨e, known, port, noSend⟩ := received apart.1 apart.2
    have after : ServicesOk ((w.bootstrapUnregister label).portDeallocate recv p) := by
      refine gone.portDeallocate unkept (fun e' known' => some.inj (known.symm.trans known') ▸
        port) ?_
      intro r inside same
      obtain ⟨e', known', -, sends⟩ := gone.registered r inside
      cases known.symm.trans ((congrArg _ same.symm).trans known')
      cases noSend.symm.trans sends
    refine after.portDeallocate ?_ ?_ ?_
    · rw [unkept_portDeallocate]
      exact unkept
    · intro e' known'
      rw [(portDeallocate_frame _ _ _).2.2 _ (Ne.symm apart.2)] at known'
      exact entry e' known'
    · rw [(portDeallocate_frame _ _ _).2.1]
      exact last
  · exact gone.portDeallocate unkept entry last

theorem ServicesOk.grow (ok : ServicesOk w) : ServicesOk { w with nextPort := w.nextPort + 1 } := by
  refine { ok with
    ports := fun m e entry => lt_succ_of_lt (ok.ports m e entry)
    unborn := fun p unborn => ok.unborn p (le_of_succ_le unborn), registered := ok.registered
    custody := fun i p keeps => ?_, owners := ok.owners }
  exact (ok.custody i p keeps).frame rfl rfl rfl rfl rfl (fun _ inside _ => inside) (le_succ _)

theorem ServicesOk.adopt (ok : ServicesOk w)
    (labels : ∀ j, (w.cells j).lcUsed = true → (w.cells j).lcName ≠ label) (unkept : w.Unkept p)
    (entry : w.table n = some ⟨p, true, true⟩) (registered : ⟨label, n, p⟩ ∈ w.registry)
    (away : w.away p = none)
    (only : ∀ m e, w.table m = some e → e.port = p → e.receive = true → m = n) :
    ServicesOk ((w.setCell i ⟨true, label, task, some p, n, n⟩).svcArm n i p).1 := by
  have named : n ≠ machPortNull := by
    rintro rfl
    rw [ok.null] at entry
    cases entry
  have armed : ServicesOk { w with armed := update w.armed p (some i) } := by
    simpa using ok.relocate unkept (ok.ports n _ entry) (w.away p) (some i)
  have done : ((w.setCell i ⟨true, label, task, some p, n, n⟩).svcArm n i p).1 =
      Bootstrap.setCell { w with armed := update w.armed p (some i) } i ⟨true, label, task, some p,
        n, n⟩ := by
    rw [svcArm_eq (w := w.setCell i _) entry rfl rfl]
    rfl
  rw [done]
  refine armed.setCell (fun none => (by cases none)) (fun _ j _ used => labels j used)
    (fun q _ port j _ keeps => ?_) fun q _ port => ?_
  · cases port
    exact unkept j keeps
  cases port
  refine ⟨.here ⟨p, true, true⟩ ?_ ?_ rfl rfl away (update_self ..), ?_,
    ⟨⟨p, true, true⟩, ?_, rfl, rfl⟩, ?_, ?_,
    ok.ports n _ entry⟩
  · rwa [setCell_cells]
  · rwa [setCell_cells]
  · rw [setCell_cells]
    exact only
  · rwa [setCell_cells]
  · rw [setCell_cells]
    exact fun e differ => absurd rfl differ
  · rwa [setCell_cells]

theorem ServicesOk.opLoadService {task : Option Nat} (ok : ServicesOk w)
    (free : w.isFree n = true) :
    ServicesOk (w.opLoadService label n task) := by
  obtain ⟨-, empty⟩ := isFree_iff.mp free
  -- the new port is nobody's and nowhere yet
  have grown := ok.grow
  have unkept : w.Unkept w.nextPort :=
    fun i keeps => absurd (ok.custody i _ keeps).below (lt_irrefl _)
  have made :
      ServicesOk { w.setEntry n (some ⟨w.nextPort, true, true⟩) with nextPort := w.nextPort + 1 } :=
    grown.install (e := ⟨w.nextPort, true, true⟩) free (lt_succ_self _) fun _ => unkept
  have entry : (w.setEntry n (some ⟨w.nextPort, true, true⟩)).table n =
      some ⟨w.nextPort, true, true⟩ :=
    update_self ..
  have fresh := ok.unregistered empty
  have only : ∀ m e, (w.setEntry n (some ⟨w.nextPort, true, true⟩)).table m = some e →
    e.port = w.nextPort →
      e.receive = true → m = n := by
    intro m e known port _
    by_contra other
    have earlier := (update_of_ne other ..).symm.trans known
    exact absurd (ok.ports m e earlier) (port ▸ lt_irrefl _)
  unfold Bootstrap.opLoadService
  dsimp only
  split
  · refine made.portDeallocate unkept (fun e known => ?_) fresh
    exact some.inj (entry.symm.trans known) ▸ rfl
  next registered made' =>
  obtain ⟨registeredOk, rfl, unused⟩ := made.bootstrapRegister made' entry rfl rfl fresh
  have mine : ⟨label, n, w.nextPort⟩ ∈ w.registry ++ [⟨label, n, w.nextPort⟩] :=
    mem_append_right _ (mem_singleton_self _)
  split
  next i missing _ =>
    exact registeredOk.adopt (fun j used => byName_none missing used) unkept entry mine
      (ok.unborn _ le_rfl) only
  · refine registeredOk.svcDestroy unkept (fun i q keeps name => ?_) (fun _ => mine) fun _ differ =>
      absurd rfl differ
    exact unused _ (ok.custody i q keeps).registered name

theorem ServicesOk.opUnload (ok : ServicesOk w) : ServicesOk (w.opUnload label) := by
  unfold Bootstrap.opUnload
  split
  · exact ok
  next i found =>
  obtain ⟨used, name⟩ := byName_some found
  have blank := ok.blank i
  have others : ∀ j q, (w.setCell i .blank).keeps j q →
      ((w.setCell i .blank).cells j).lcName ≠ label := by
    intro j q keeps same
    by_cases here : j = i
    · exact not_keeps_blank (here ▸ keeps)
    · rw [setCell_cells_ne here] at same
      exact here (ok.labels j i ((keeps_setCell_ne here).mp keeps).1 used (same.trans name.symm))
  dsimp only
  cases service : (w.cells i).lcSvcPort with
  | none =>
    rw [ok.plain i service]
    exact blank
  | some p =>
  have custody := ok.custody i p ⟨used, service⟩
  refine blank.svcDestroy (ok.unkept_blank ⟨used, service⟩) others (fun _ =>
    name ▸ custody.registered)
    fun named differ => ?_
  obtain ⟨e, entry, port, -⟩ := ok.recv_entry ⟨used, service⟩ named rfl
  exact ⟨e, entry, port, custody.alone e differ entry⟩

/-! ### The receive right leaves and comes back -/

/-- A cell may be set aside while the rights of its port move, and be put back with another
`lc_svc_recv`. -/
theorem ServicesOk.putBack (ok : ServicesOk w) (recv : Name) (keeps : w.keeps i p)
    (aside : ServicesOk w')
    (cells : w'.cells = (w.setCell i .blank).cells)
    (custody : Custody (w'.setCell i { w.cells i with lcSvcRecv := recv }) i p) :
    ServicesOk (w'.setCell i { w.cells i with lcSvcRecv := recv }) := by
  have other : ∀ j ≠ i, w'.cells j = w.cells j := fun j ne => by rw [cells, setCell_cells_ne ne]
  refine aside.setCell (ok.plain i) (fun used j ne used' same => ?_)
    (fun q used port j ne keeps' => ?_)
    fun q _ port => ?_
  · rw [other j ne] at used' same
    exact ne (ok.labels j i used' used same)
  · unfold Bootstrap.keeps at keeps'
    rw [other j ne] at keeps'
    exact ne (ok.owners j i q keeps' ⟨used, port⟩)
  · cases port.symm.trans keeps.2
    exact custody

theorem withoutReceive_eq {e' : Entry} (known : e.withoutReceive = some e') :
    e'.port = e.port ∧ e'.receive = false ∧ e'.send = e.send := by
  obtain ⟨-, is⟩ := ite_none_right_eq_some.mp known
  cases is
  exact ⟨rfl, rfl, rfl⟩

theorem dropReceive_eq (entry : w.table n = some e) (port : e.port = p)
    (receive : e.receive = true) :
    w.dropReceive n p = (w.setEntry n e.withoutReceive).destroyReceive p := by
  simp [Bootstrap.dropReceive, entry, receive, means_self port, port]

theorem withoutReceive_send (send : e.send = true) :
    e.withoutReceive = some { e with receive := false } := if_pos send

section

variable (ok : ServicesOk w)
include ok

theorem ServicesOk.depart {a : Away} {b : Option Launchd.CellIndex} (keeps : w.keeps i p)
    (named : (w.cells i).lcSvcRecv ≠ machPortNull) (entry : w.table (w.cells i).lcSvcRecv = some e)
    (port : e.port = p) (task : Nat) (out : a = .returning i ∨ b = some i ∧ a = .message task) :
    ServicesOk { (w.setCell i { w.cells i with lcSvcRecv := machPortNull }).setEntry
      (w.cells i).lcSvcRecv
        e.withoutReceive with
      away := update w.away p (some a), armed := update w.armed p b,
      client := update w.client p task } := by
  have before := ok.custody i p keeps
  have unkept := ok.unkept_blank keeps
  have blank := ok.blank i
  have edited :
      ServicesOk ((w.setCell i .blank).setEntry (w.cells i).lcSvcRecv e.withoutReceive) := by
    refine blank.setEntry named (fun e' is => ?_) (fun r inside here => ?_)
      (fun j q keeps' here => ?_)
      fun j q e' _ is _ receive => ?_
    · exact (withoutReceive_eq is).1 ▸ ok.ports _ e entry
    · obtain ⟨e', entry', port', send⟩ := ok.registered r inside
      rw [here, entry] at entry'
      cases entry'
      exact ⟨_, withoutReceive_send send, port', send⟩
    · -- the name of another cell's receive right is another name
      obtain ⟨e', entry', port', -⟩ := blank.recv_entry keeps' named here
      cases entry.symm.trans entry'
      exact absurd ((port'.symm.trans port) ▸ keeps') (unkept j)
    · cases receive.symm.trans (withoutReceive_eq is).2.1
  have aside :
    ServicesOk { (w.setCell i .blank).setEntry (w.cells i).lcSvcRecv e.withoutReceive with
      away := update w.away p (some a), armed := update w.armed p b,
      client := update w.client p task } :=
    (edited.relocate unkept before.below (some a) b).checkedIn unkept task
  have done := ok.putBack machPortNull keeps aside rfl ?_
  · simpa only [Bootstrap.setCell, Bootstrap.setEntry, update_idem] using done
  refine ⟨?_, fun m e' known port' receive => ?_, ?_, fun e' _ known => ?_, ?_, before.below⟩
  · rcases out with rfl | ⟨rfl, rfl⟩
    · exact .back (by rw [setCell_cells]) (update_self ..)
    · refine .out (by rw [setCell_cells]) (.inl ?_) (update_self ..)
      change update w.away p _ p = some (.message (update w.client p task p))
      rw [update_self, update_self]
  · exfalso
    by_cases here : m = (w.cells i).lcSvcRecv
    · rw [here] at known
      have is := (update_self _ _ w.table).symm.trans known
      cases receive.symm.trans (withoutReceive_eq is).2.1
    · exact here (before.only m e' ((update_of_ne here ..).symm.trans known) port' receive)
  · rw [setCell_cells]
    obtain ⟨e', known, port', send⟩ := before.send
    by_cases here : (w.cells i).lcSvcSend = (w.cells i).lcSvcRecv
    · rw [here, entry] at known
      cases known
      refine ⟨{ e with receive := false }, ?_, port, send⟩
      exact ((congrArg _ here).trans (update_self ..)).trans (withoutReceive_send send)
    · exact ⟨e', (update_of_ne here ..).trans known, port', send⟩
  · rw [setCell_cells] at known
    cases (aside.null).symm.trans known
  · rw [setCell_cells]
    exact before.registered

theorem ServicesOk.checkIn {answer : Answer}
    (fine : answer = .refused ∨ answer = .queued task) :
    ServicesOk (w.checkIn label task answer) := by
  unfold Bootstrap.checkIn
  split
  · exact ok
  next i found =>
  obtain ⟨p, keeps, -⟩ := serviceByName_some found
  dsimp only
  split
  · exact ok
  next ready =>
  have named : (w.cells i).lcSvcRecv ≠ machPortNull := fun null => ready (.inr (.inr null))
  cases (ok.custody i p keeps).place with
  | out unnamed | back unnamed => exact absurd unnamed named
  | here e _ entry port receive _ armed =>
  have service : (w.cells i).lcSvcPort.getD 0 = p := congrArg (Option.getD · 0) keeps.2
  rcases fine with rfl | rfl
  · have destroyed := ok.depart (a := .returning i) (b := none) keeps named entry port (w.client p)
      (.inl rfl)
    rw [update_eq_self] at destroyed
    rw [service, dropReceive_eq (w := w.setCell i _) entry port receive]
    have goes : (w.armed p).map Away.returning = some (.returning i) := congrArg _ armed
    rw [← goes] at destroyed
    exact destroyed
  have sent := ok.depart (a := .message task) (b := some i) keeps named entry port task
    (.inr ⟨rfl, rfl⟩)
  have still : update w.armed p (some i) = w.armed := by
    rw [← armed]
    exact update_eq_self ..
  rw [still] at sent
  dsimp only
  split
  next nothing => cases entry.symm.trans nothing
  next e' entry' =>
    cases entry.symm.trans entry'
    rw [port]
    exact sent

theorem ServicesOk.svcReturned (away : w.away p = some (.returning i)) (free : w.isFree n = true) :
    ServicesOk (w.svcReturned p i n) := by
  obtain ⟨named, empty⟩ := isFree_iff.mp free
  have below : p < w.nextPort := by
    by_contra above
    rw [ok.unborn p (Nat.le_of_not_lt above)] at away
    cases away
  unfold Bootstrap.svcReturned
  dsimp only
  split
  next keep =>
    -- the cell that waits for the right takes it, armed again
    obtain ⟨⟨used, service⟩, unnamed⟩ :
      ((w.cells i).lcUsed = true ∧ (w.cells i).lcSvcPort = some p) ∧
        (w.cells i).lcSvcRecv = machPortNull := by simpa [Bootstrap.setEntry] using keep
    have keeps : w.keeps i p := ⟨used, service⟩
    have before := ok.custody i p keeps
    have unkept := ok.unkept_blank keeps
    have blank := ok.blank i
    have installed :=
      blank.install (e := ⟨p, true, false⟩) free below fun _ => unkept
    have aside : ServicesOk { (w.setCell i .blank).setEntry n (some ⟨p, true, false⟩) with
        away := update w.away p none, armed := update w.armed p (some i) } :=
      installed.relocate unkept below none (some i)
    have entry : (w.setEntry n (some ⟨p, true, false⟩)).table n = some ⟨p, true, false⟩ :=
      update_self ..
    have done := ok.putBack n keeps aside rfl ?_
    · have arm :=
        svcArm_eq (w := { w.setEntry n (some ⟨p, true, false⟩) with away := update w.away p none })
        (i := i) (p := p) entry rfl rfl
      rw [arm]
      simpa only [Bootstrap.setCell, Bootstrap.setEntry, update_idem, if_true] using done
    -- the send right is at a name that was in use
    obtain ⟨e, known, port, send⟩ := before.send
    have apart : (w.cells i).lcSvcSend ≠ n := by
      intro same
      rw [same, empty] at known
      cases known
    refine ⟨.here ⟨p, true, false⟩ ?_ ?_ rfl rfl (update_self ..) (update_self ..),
      fun m e' known' port' receive => ?_, ?_, fun e' _ known' => ?_, ?_, below⟩
    · rwa [setCell_cells]
    · rwa [setCell_cells]
    · rw [setCell_cells]
      by_contra other
      have earlier : w.table m = some e' := (update_of_ne other ..).symm.trans known'
      rw [(before.only m e' earlier port' receive).trans unnamed, ok.null] at earlier
      cases earlier
    · rw [setCell_cells]
      exact ⟨e, (update_of_ne apart ..).trans known, port, send⟩
    · rw [setCell_cells] at known'
      cases entry.symm.trans known'
      rfl
    · rw [setCell_cells]
      exact before.registered
  next lost =>
  -- a port that a used cell keeps comes back to that cell
  have unkept : w.Unkept p := by
    intro j keeps
    have place := (ok.custody j p keeps).place
    cases place with
    | here _ _ _ _ _ gone => cases away.symm.trans gone
    | out _ gone =>
      rcases gone with gone | gone
      · cases away.symm.trans gone
      · cases away.symm.trans gone
    | back unnamed gone =>
      obtain rfl : i = j := by simpa using away.symm.trans gone
      exact lost (by simp [Bootstrap.setEntry, keeps.1, keeps.2, unnamed])
  have installed :=
    ok.install (e := ⟨p, true, false⟩) free below fun _ => unkept
  have received :
      ServicesOk { w.setEntry n (some ⟨p, true, false⟩) with away := update w.away p none } := by
    simpa [Bootstrap.setEntry] using installed.relocate unkept below none (w.armed p)
  refine received.portDeallocate unkept (fun e known => ?_) (ok.unregistered empty)
  exact some.inj ((update_self n _ w.table).symm.trans known) ▸ rfl

/-! ### Registrations and deaths -/

theorem ServicesOk.register (free : w.isFree n = true) (below : p < w.nextPort) :
    ServicesOk (w.register label p n) := by
  obtain ⟨-, empty⟩ := isFree_iff.mp free
  have installed :=
    ok.install (e := ⟨p, false, true⟩) free below fun receive => absurd receive false_ne_true
  have entry : (w.setEntry n (some ⟨p, false, true⟩)).table n = some ⟨p, false, true⟩ :=
    update_self ..
  unfold Bootstrap.register
  dsimp only
  cases made : (w.setEntry n (some ⟨p, false, true⟩)).bootstrapRegister label n p with
  | some w' => exact (installed.bootstrapRegister made entry rfl rfl (ok.unregistered empty)).1
  | none =>
  -- the name is given back and the space is as before
  have undone : (w.setEntry n (some ⟨p, false, true⟩)).dropSend n p = w := by
    simp only [Bootstrap.dropSend, entry, means_self]
    simp [Bootstrap.setEntry, Entry.withoutSend, ← empty]
  rw [undone]
  exact ok

theorem ServicesOk.deregister (others : w.serviceByName label = none) :
    ServicesOk (w.deregister label) := by
  unfold Bootstrap.deregister
  split
  · exact ok
  next r found =>
  have mine := mem_of_find?_eq_some found
  have name : r.bsName = label := by simpa using find?_some found
  have gone := ok.bootstrapUnregister fun i p keeps => serviceByName_none others keeps
  obtain ⟨e, entry, port, send⟩ := ok.registered r mine
  have known : (w.bootstrapUnregister label).table r.bsKname = some e := entry
  have named : r.bsKname ≠ machPortNull := by
    intro null
    rw [null, ok.null] at entry
    cases entry
  simp only [Bootstrap.dropSend, known, send, means_self port]
  refine gone.setEntry named (fun e' is => ?_) (fun r' inside here => ?_) (fun j q keeps here => ?_)
    fun j q e' keeps is port' receive => ?_
  · obtain ⟨-, is⟩ := ite_none_right_eq_some.mp is
    exact some.inj is ▸ ok.ports _ e entry
  · obtain ⟨earlier, differ⟩ := ok.mem_unregister.mp inside
    exact absurd ((congrArg Registration.bsName
      (inj_on_of_nodup_map ok.knames earlier mine here)).trans name) differ
  · obtain ⟨e', entry', port', receive⟩ := gone.recv_entry keeps named here
    cases known.symm.trans entry'
    exact ⟨{ e with send := false }, if_pos receive, port', receive, fun _ => rfl⟩
  · obtain ⟨receives, is⟩ := ite_none_right_eq_some.mp is
    cases is
    exact (gone.custody j q keeps).only _ e known port' receives

theorem ServicesOk.die : ServicesOk (w.die task) := by
  refine ok.elsewhere (fun i p keeps => ?_) fun p unborn => ?_
  · cases (ok.custody i p keeps).place with
    | here e named entry port receive away armed =>
      exact .here e named entry port receive (by simp [away]) (by simp [away, armed])
    | out unnamed away armed =>
      by_cases held : w.away p = some (.message task) ∨ w.away p = some (.space task)
      · exact .back unnamed (by simp [held, armed])
      · exact .out unnamed (by simpa [held] using away) (by simp [held, armed])
    | back unnamed away => exact .back unnamed (by simp [away])
  · simp [ok.unborn p unborn]

/-! ### Whole runs -/

theorem ServicesOk.spawn (i : Launchd.CellIndex) (task : Nat) :
    ServicesOk (w.setCell i { w.cells i with lcTaskId := task }) := by
  refine ok.setCell (ok.plain i) (fun used j ne used' same => ne (ok.labels j i used' used same))
    (fun p used port j ne keeps => ne (ok.owners j i p keeps ⟨used, port⟩)) fun p used port => ?_
  exact (ok.custody i p ⟨used, port⟩).frame (setCell_cells w i _) rfl rfl rfl rfl (fun _ inside _ =>
    inside) le_rfl

theorem ServicesOk.receive (sent : w.away p = some (.message task)) :
    ServicesOk { w with away := update w.away p (some (.space task)) } := by
  refine ok.elsewhere (fun i q keeps => ?_) fun q unborn => ?_
  · have before := (ok.custody i q keeps).place
    by_cases here : q = p
    · subst here
      cases before with
      | here _ _ _ _ _ away => cases sent.symm.trans away
      | out unnamed away armed =>
        have holder : w.client q = task := by simpa [sent, eq_comm] using away
        exact .out unnamed (.inr (holder.symm ▸ update_self ..)) armed
      | back _ away => cases sent.symm.trans away
    · exact before.frame rfl rfl (update_of_ne here ..) rfl rfl
  have other : q ≠ p := by
    rintro rfl
    rw [ok.unborn q unborn] at sent
    cases sent
  exact (update_of_ne other ..).trans (ok.unborn q unborn)

theorem ServicesOk.next {event : Event} (done : next w event = some w')
    (fine : careful w event w' = true) : ServicesOk w' := by
  cases event with
  | load label service task =>
    cases service with
    | none =>
      cases done
      split
      · exact ok
      · exact ok.opLoad
    | some n =>
    obtain ⟨free, is⟩ := ite_none_right_eq_some.mp done
    cases is
    split
    · exact ok
    · exact ok.opLoadService free
  | unload label =>
    cases done
    split
    · exact ok
    · exact ok.opUnload
  | register label p n =>
    obtain ⟨free, is⟩ := ite_none_right_eq_some.mp done
    cases is
    obtain ⟨free, below⟩ := and_eq_true_iff.mp free
    exact ok.register free (of_decide_eq_true below)
  | deregister label =>
    cases done
    exact ok.deregister (isNone_iff_eq_none.mp fine)
  | lookup label =>
    cases done
    exact ok
  | checkIn label task answer =>
    cases done
    exact ok.checkIn (by simpa [careful] using fine)
  | create =>
    cases done
    exact ok.grow
  | spawn idx task =>
    cases done
    exact ok.spawn idx task
  | receive p =>
    simp only [Services.next] at done
    split at done
    next task sent =>
      cases done
      exact ok.receive sent
    · cases done
  | die task =>
    cases done
    exact ok.die
  | returned p n =>
  simp only [Services.next] at done
  split at done
  next idx back =>
    obtain ⟨free, is⟩ := ite_none_right_eq_some.mp done
    cases is
    exact ok.svcReturned back free
  · cases done

end

/-- A start: no jobs, and a registry whose names are send rights to what was registered. -/
structure Start (w : Bootstrap) : Prop where
  cells : ∀ i, w.cells i = .blank
  stray : w.stray = false
  null : w.table machPortNull = none
  ports : ∀ n e, w.table n = some e → e.port < w.nextPort
  away : ∀ p, w.away p = none
  registered : ∀ r ∈ w.registry, ∃ e, w.table r.bsKname = some e ∧ e.port = r.port ∧ e.send = true
  names : (w.registry.map Registration.bsName).Nodup
  knames : (w.registry.map Registration.bsKname).Nodup

theorem Start.ok (start : Start w) : ServicesOk w := by
  have unused : ∀ i, (w.cells i).lcUsed ≠ true := fun i used => by
    rw [start.cells i] at used
    exact false_ne_true used
  exact {
    stray := start.stray
    null := start.null
    ports := start.ports
    unborn := fun p _ => start.away p
    registered := start.registered
    names := start.names
    knames := start.knames
    custody := fun i _ keeps => absurd keeps.1 (unused i)
    plain := fun i _ => by rw [start.cells i]; rfl
    labels := fun i _ used => absurd used (unused i)
    owners := fun i _ _ keeps => absurd keeps.1 (unused i) }

/-- In every state reached, the receive right of the port of a used cell is in one place: at
`lc_svc_recv` in `kernel_space` and at no other name there, with the job, or on its way back to the
cell; `lc_svc_send` names a send right to the port; and no name was dropped or armed that had come
to name another port. -/
theorem service_port_custody {w₀ : Bootstrap} (start : Start w₀)
    (run : Runs next (careful · · · = true) w₀ w) :
    w.stray = false ∧ ∀ i p, w.keeps i p → Place w i p ∧
      (∀ n e, w.table n = some e → e.port = p → e.receive = true → n = (w.cells i).lcSvcRecv) ∧
      ∃ e, w.table (w.cells i).lcSvcSend = some e ∧ e.port = p ∧ e.send = true := by
  have ok := run.invariant start.ok fun _ _ _ ok done fine => ok.next done fine
  refine ⟨ok.stray, fun i p keeps => ?_⟩
  have custody := ok.custody i p keeps
  exact ⟨custody.place, custody.only, custody.send⟩

/-- No job and no registration, and one port of a task. -/
def bare : Bootstrap where
  table := fun _ => none
  registry := []
  cells := fun _ => .blank
  away := fun _ => none
  armed := fun _ => none
  client := fun _ => 0
  nextPort := 1
  stray := false

theorem bare_start : Start bare where
  cells := fun _ => rfl
  stray := rfl
  null := rfl
  ports := fun _ _ entry => (by cases entry)
  away := fun _ => rfl
  registered := fun _ inside => (by cases inside)
  names := nodup_nil
  knames := nodup_nil

instance (w : Bootstrap) (i p) : Decidable (w.keeps i p) := inferInstanceAs (Decidable (_ ∧ _))

/-- A job takes its port, dies, and the port comes back under another name. -/
theorem service_port_custody_returned :
    ∃ w, w.keeps 0 1 ∧ w.table 6 = some ⟨1, true, false⟩ ∧ w.stray = false ∧
    Place w 0 1 := by
  obtain ⟨w, run, keeps, entry⟩ : ∃ w, Runs next (careful · · · = true) bare w ∧ w.keeps 0 1 ∧
      w.table 6 = some ⟨1, true, false⟩ :=
    Runs.exists_of_follow [.load [1] (some 5) (some 7), .checkIn [1] 7 (.queued 7), .receive 1,
      .register [2] 0 3, .die 7,
      .returned 1 6] (by decide +kernel)
  have holds := service_port_custody bare_start run
  exact ⟨w, keeps, entry, holds.1, (holds.2 0 1 keeps).1⟩

/-- A task deregisters the label of a service whose job has checked in, which frees the kernel name;
a registration gets the name; and the unload drops that registration's right. -/
theorem deregistered_name_reused :
    Start bare ∧ ∃ w, Runs next (fun _ _ _ => True) bare w ∧ w.keeps 0 1 ∧
    w.table (w.cells 0).lcSvcSend = some ⟨0, false, true⟩ ∧ (w.opUnload [1]).stray = true :=
  ⟨bare_start, Runs.exists_of_follow
    [.load [1] (some 5) (some 7), .checkIn [1] 7 (.queued 7), .deregister [1], .register [2] 0 5]
      (by decide +kernel)⟩

end Style9.Mach.Services
