import Style9.Vm.Views

/-!
# Faults are quiet

Whatever a fault does, no task sees it and no message carries it: the last owner takes the write
bit back, another owner gets a copy of the page, and a page filled on demand holds what was
promised for it.
-/
namespace Style9.Vm

open Style9.Lib Act

variable {s s' : Memory} {t va page : Nat} {e : VmMapEntry} {old : Leaf} {held : Multiset Frame}
  {write : Bool} {result : VmFault}

theorem VmOk.filled {pa : Frame} (ok : VmOk s held) (free : s.pmm.used pa = false)
    (bytes : Nat → Byte) :
    VmOk ((s.setPmm (s.pmm.alloc pa)).fill pa bytes) (pa ::ₘ held) ∧
      Quiet held s ((s.setPmm (s.pmm.alloc pa)).fill pa bytes) := by
  have ok₁ := ok.alloc free
  have one : (s.setPmm (s.pmm.alloc pa)).pmm.refs pa = 1 := by
    change (s.pmm.alloc pa).refs pa = 1
    rw [Pmm.refs_alloc, if_pos rfl]
  exact ⟨ok₁.fill pa bytes, (Quiet.alloc ok free).trans (Quiet.fill ok₁ one bytes)⟩

theorem VmOk.copied {pa : Frame} (ok : VmOk s held) (free : s.pmm.used pa = false)
    (found : vmMapLookup (s.entries t) page = some e) (owned : e.vmeFlags.anon = true)
    (present : s.leaf t page = some old) (live : s.pmm.refs old.pa ≠ 0)
    (run : pmmFreePage old.pa (((s.setPmm (s.pmm.alloc pa)).fill pa (s.ram old.pa)).setLeaf t page
      ⟨pa, e.vmeProt⟩) = (.ok (), s')) : VmOk s' held ∧ Quiet held s s' := by
  obtain ⟨ok₂, quiet₂⟩ := ok.filled free (s.ram old.pa)
  have apart := (ok.free_unowned free).2 t page old present
  have one : (s.pmm.alloc pa).refs pa = 1 := by rw [Pmm.refs_alloc, if_pos rfl]
  have live₂ : (s.pmm.alloc pa).refs old.pa ≠ 0 := by
    rw [Pmm.refs_alloc, if_neg apart]
    exact live
  have backed : Backed ((s.setPmm (s.pmm.alloc pa)).fill pa (s.ram old.pa)) t page ⟨pa,
      e.vmeProt⟩ e :=
    .of_owned found owned (by change (s.pmm.alloc pa).refs pa ≠ 0; omega) id
  have present₂ : ((s.setPmm (s.pmm.alloc pa)).fill pa (s.ram old.pa)).leaf t page = some old :=
    present
  have ok₃ := VmOk.mk (ok₂.replace present₂ live₂ backed) (ok₂.exclusive.setLeaf fun _ => one)
  obtain ⟨ok₄, quiet₄⟩ := ok₃.dropped run
  refine ⟨ok₄, quiet₂.trans (Quiet.trans (Quiet.replace present₂ fun i => ?_) quiet₄)⟩
  rw [Memory.ram_fill, Memory.ram_fill, if_pos rfl, if_neg apart]
  rfl

theorem vmFaultCow_quiet (ok : VmOk s held) (found : vmMapLookup (s.entries t) page = some e)
    (present : s.leaf t page = some old)
    (run : vmFaultCow t page e old s = (.ok result, s')) : VmOk s' held ∧ Quiet held s s' := by
  unfold vmFaultCow at run
  split at run
  · cases run
  next owned =>
  have owned : e.vmeFlags.anon = true := by simpa using owned
  rw [read_bind] at run
  have permits : old.prot.write = true → e.vmeProt.write = true := by
    obtain ⟨e', backed⟩ := ok.backed t page old present
    cases (backed.found.symm.trans found)
    exact backed.write
  split at run
  next one =>
    -- no other owner is left: the write bit comes back
    cases (bind_of_ok (pmapEnter_present present)).symm.trans run
    have backed : Backed s t page ⟨old.pa, e.vmeProt⟩ e :=
      .of_owned found owned (by change s.pmm.refs old.pa ≠ 0; omega) id
    exact ⟨⟨ok.protect present rfl backed, ok.exclusive.setLeaf fun _ => one⟩,
      Quiet.replace present fun _ => rfl⟩
  next shared =>
  have live : s.pmm.refs old.pa ≠ 0 := by
    obtain ⟨e', backed⟩ := ok.backed t page old present
    cases (backed.found.symm.trans found)
    exact backed.owned owned
  rcases pmmAllocPage_run s with none | ⟨pa, free, given⟩
  · cases (bind_of_ok none).symm.trans run
    exact ⟨ok, .refl held _⟩
  have present₁ : ((s.setPmm (s.pmm.alloc pa)).fill pa (s.ram old.pa)).leaf t page = some old :=
    present
  rw [bind_of_ok given] at run
  replace run := (bind_of_ok (pmapEnter_present present₁)).symm.trans run
  obtain ⟨_, s₃, dropped, run⟩ := bind_ok run
  cases run
  exact ok.copied free found owned present live dropped

theorem pageIn_run (obj : Option Nat) (s : Memory) :
    ∃ b refuse, pageIn obj s = (.ok b, s.setRefuse refuse) := by
  unfold pageIn
  split
  · exact granted_run s
  · exact ⟨true, s.refuse, rfl⟩

theorem Quiet.place {l : Leaf} (ranges : Ranges (s.entries t))
    (found : vmMapLookup (s.entries t) page = some e) (absent : s.leaf t page = none)
    (lazy : e.vmeFlags.lazy = true) (bytes : ∀ i, s.ram l.pa i = s.backing e (page + i)) :
    Quiet held s (s.setLeaf t page l) := by
  refine Quiet.setLeaf fun va here => ?_
  have entry : vmMapLookup (s.entries t) va = some e := by
    rw [← vmMapLookup_page ranges, here, found]
  rw [Memory.view_absent entry (here ▸ absent), entry, if_pos lazy, Option.map_some, bytes, ← here,
    vmAlignDown_add]

/-- A page filled on demand holds what backs it, so whoever reads it sees no difference. -/
theorem vmFaultFill_quiet (ok : VmOk s held) (aligned : page % vmPageSize = 0)
    (found : vmMapLookup (s.entries t) page = some e) (absent : s.leaf t page = none)
    (lazy : e.vmeFlags.lazy = true)
    (run : vmFaultFill t page e s = (.ok result, s')) :
    VmOk s' held ∧ Quiet held s s' ∧ (result = .ok → (s'.leaf t page).isSome = true) := by
  have owned :=
    ((ok.ranges t).entry e ((vmMapLookup_some_iff (ok.ranges t)).mp found).1).filled lazy
  unfold vmFaultFill at run
  rcases pmmAllocPage_run s with none | ⟨pa, free, given⟩
  · cases (bind_of_ok none).symm.trans run
    exact ⟨ok, .refl held _, nofun⟩
  obtain ⟨b, refuse, paged⟩ := pageIn_run e.vmeObject (s.setPmm (s.pmm.alloc pa))
  rw [bind_of_ok given] at run
  replace run := (bind_of_ok paged).symm.trans run
  have ok₂ := (ok.alloc free).setRefuse refuse
  have quiet₂ :=
    (Quiet.alloc ok free).trans (Quiet.setRefuse held _ refuse)
  have one : (s.pmm.alloc pa).refs pa = 1 := by rw [Pmm.refs_alloc, if_pos rfl]
  split at run
  · obtain ⟨_, s₃, dropped, run⟩ := bind_ok run
    cases run
    obtain ⟨ok₃, quiet₃⟩ := ok₂.dropped dropped
    exact ⟨ok₃, quiet₂.trans quiet₃, nofun⟩
  next =>
  rw [modify_bind] at run
  generalize bytes :
    (fun i => ((s.setPmm (s.pmm.alloc pa)).setRefuse refuse).backing e (page + i)) =
    contents at run
  have ok₃ := ok₂.fill pa contents
  have quiet₃ := quiet₂.trans (Quiet.fill ok₂ one contents)
  generalize filled : ((s.setPmm (s.pmm.alloc pa)).setRefuse refuse).fill pa contents = s₃ at *
  have absent₃ : s₃.leaf t page = none := by
    rw [← filled]
    exact absent
  have found₃ : vmMapLookup (s₃.entries t) page = some e := by
    rw [← filled]
    exact found
  have one₃ : s₃.pmm.refs pa = 1 := by
    rw [← filled]
    exact one
  obtain ⟨refuse', granted | ⟨-, refused⟩⟩ := pmapEnter_run _ t page ⟨pa, e.vmeProt⟩
  · cases (bind_of_ok granted).symm.trans run
    have ok₄ := ok₃.setRefuse refuse'
    have backed : Backed (s₃.setRefuse refuse') t page ⟨pa, e.vmeProt⟩ e :=
      .of_owned found₃ owned (by change s₃.pmm.refs pa ≠ 0; omega) id
    refine ⟨⟨ok₄.place absent₃ aligned backed, ok₄.exclusive.setLeaf fun _ => one₃⟩,
      quiet₃.trans ((Quiet.setRefuse held _ refuse').trans ?_), fun _ => ?_⟩
    · refine Quiet.place (ok₄.ranges t) found₃ absent₃ lazy fun i => ?_
      have here : s₃.ram pa = contents := by rw [← filled, Memory.ram_fill, if_pos rfl]
      change s₃.ram pa i = _
      rw [here, ← bytes, ← filled]
      rfl
    · rw [Memory.leaf_setLeaf, if_pos ⟨rfl, rfl⟩]
      rfl
  rw [bind_of_ok refused] at run
  obtain ⟨_, s₅, dropped, run⟩ := bind_ok run
  cases run
  obtain ⟨ok₅, quiet₅⟩ := (ok₃.setRefuse refuse').dropped dropped
  exact ⟨ok₅, quiet₃.trans ((Quiet.setRefuse held _ refuse').trans quiet₅), nofun⟩

/-- A fault changes nothing that can be seen, whether it succeeds or not; a page that was not
there and faulted in is there after. -/
theorem vmFault_quiet (ok : VmOk s held) (run : vmFault t va write s = (.ok result, s')) :
    VmOk s' held ∧ Quiet held s s' ∧
      (result = .ok → (s'.leaf t (vmAlignDown va)).isSome = true) := by
  unfold vmFault at run
  simp only [read_bind] at run
  cases found : vmMapLookup (s.entries t) (vmAlignDown va) with
  | none =>
    rw [found] at run
    cases run
    exact ⟨ok, .refl held _, nofun⟩
  | some e =>
  rw [found] at run
  dsimp only at run
  split at run
  · cases run
    exact ⟨ok, .refl held _, nofun⟩
  rw [read_bind] at run
  cases leaf : s.leaf t (vmAlignDown va) with
  | some old =>
    rw [leaf] at run
    dsimp only at run
    split at run
    · cases run
      exact ⟨ok, .refl held _, nofun⟩
    · obtain ⟨ok', quiet⟩ := vmFaultCow_quiet ok found leaf run
      exact ⟨ok', quiet, fun _ => quiet.present t _ (by rw [leaf]; rfl)⟩
  | none =>
  rw [leaf] at run
  dsimp only at run
  split at run
  · cases run
    exact ⟨ok, .refl held _, nofun⟩
  next lazy =>
    exact vmFaultFill_quiet ok (vmAlignDown_mod va) found leaf (by simpa using lazy) run

end Style9.Vm
