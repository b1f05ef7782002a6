import Style9.Vm.Mapping

/-!
# Landing a payload

A received payload lands on a fresh range, page by page and without the write bit; if a page
cannot be mapped, those before it come out again and the message still carries them all.
-/
namespace Style9.Vm

open Style9.Lib Memory Multiset List Nat Act

variable {s s' : Memory} {t va : Nat} {e ne : VmMapEntry} {held : Multiset Frame}
  {frames : List Frame}

/-- The protection `vm_pages_install` maps with. -/
def landedProt : Prot := { read := true, write := false, exec := false, user := true }

/-- Frames mapped one after another from an address on. -/
structure Landed (t va : Nat) (frames : List Frame) (s s' : Memory) : Prop where
  ram : s'.ram = s.ram
  objects : s'.objects = s.objects
  entries : ∀ x, s'.entries x = s.entries x
  leaf : ∀ i f, frames[i]? = some f → s'.leaf t (va + i * vmPageSize) = some ⟨f, landedProt⟩
  others : ∀ x page, ¬ (x = t ∧ va ≤ page ∧ page < va + frames.length * vmPageSize) →
    s'.leaf x page = s.leaf x page

/-- A state in which only refusals have been used up. -/
structure Undone (s s' : Memory) : Prop where
  pmm : s'.pmm = s.pmm
  ram : s'.ram = s.ram
  objects : s'.objects = s.objects
  entries : ∀ x, s'.entries x = s.entries x
  leaf : ∀ x page, s'.leaf x page = s.leaf x page

theorem installPages_spec {b : Bool} (ok : VmOk s ((frames : Multiset Frame) + held))
    (anon : e.vmeFlags.anon = true) (aligned : va % vmPageSize = 0)
    (found : ∀ a, va ≤ a → a < va + frames.length * vmPageSize →
      vmMapLookup (s.entries t) a = some e)
    (bare : ∀ a, va ≤ a → a < va + frames.length * vmPageSize → s.leaf t a = none)
    (run : installPages t va frames s = (.ok b, s')) :
    if b then VmOk s' held ∧ Landed t va frames s s'
    else VmOk s' ((frames : Multiset Frame) + held) ∧ Undone s s' := by
  induction frames generalizing va s s' b with
  | nil =>
    cases run
    rw [if_pos rfl]
    exact ⟨zero_add held ▸ ok, rfl, rfl, fun _ => rfl, (fun i f here => nomatch here),
      fun _ _ _ => rfl⟩
  | cons f rest ih =>
  have span : (f :: rest).length * vmPageSize = vmPageSize + rest.length * vmPageSize := by
    rw [length_cons, succ_mul, add_comm]
  have positive : 0 < vmPageSize := by decide
  have here := bare va le_rfl (by omega)
  rw [← cons_coe, cons_add] at ok ⊢
  have live := ok.carried f (mem_cons_self f _)
  unfold installPages at run
  obtain ⟨refuse, granted | ⟨-, refused⟩⟩ := pmapEnter_run s t va ⟨f, landedProt⟩
  · erw [bind_of_ok granted] at run
    have backed : Backed (s.setRefuse refuse) t va ⟨f, landedProt⟩ e :=
      .of_owned (found va le_rfl (by omega)) anon live nofun
    have ok₁ : VmOk ((s.setRefuse refuse).setLeaf t va ⟨f, landedProt⟩)
        ((rest : Multiset Frame) + held) :=
      ⟨(ok.setRefuse refuse).place here aligned backed, ok.exclusive.setLeaf nofun⟩
    generalize first : (s.setRefuse refuse).setLeaf t va ⟨f, landedProt⟩ = s₁ at ok₁ run
    have entries₁ : ∀ x, s₁.entries x = s.entries x := by
      intro x
      rw [← first, entries_setLeaf]
      rfl
    have leaf₁ : ∀ x page, s₁.leaf x page =
        if x = t ∧ page = va then some ⟨f, landedProt⟩ else s.leaf x page := by
      intro x page
      rw [← first, leaf_setLeaf]
      rfl
    have pmm₁ : s₁.pmm = s.pmm := by rw [← first]; rfl
    have ram₁ : s₁.ram = s.ram := by rw [← first]; rfl
    have objects₁ : s₁.objects = s.objects := by rw [← first]; rfl
    obtain ⟨b₂, s₂, later, run⟩ := bind_ok run
    have aligned' : (va + vmPageSize) % vmPageSize = 0 := by
      rw [add_mod_right]
      exact aligned
    have next := ih ok₁ aligned'
      (fun a lower upper => by rw [entries₁]; exact found a (by omega) (by omega))
      (fun a lower upper => by
        rw [leaf₁, if_neg (by omega)]
        exact bare a (by omega) (by omega)) later
    cases b₂ with
    | true =>
      cases run
      obtain ⟨ok₂, landed⟩ := next
      rw [if_pos rfl]
      refine ⟨ok₂, landed.ram.trans ram₁, landed.objects.trans objects₁,
        fun x => (landed.entries x).trans (entries₁ x), fun i g point => ?_,
        fun x page outside => ?_⟩
      · cases i with
        | zero =>
          cases Option.some.inj point
          rw [landed.others _ _ (by omega), leaf₁, if_pos ⟨rfl, by omega⟩]
        | succ i =>
          have := landed.leaf i g (by simpa using point)
          rwa [add_assoc, add_comm vmPageSize, ← succ_mul] at this
      · rw [span] at outside
        rw [landed.others x page fun inside => outside ⟨inside.1, by omega, by omega⟩, leaf₁,
          if_neg fun same => outside ⟨same.1, by omega, by omega⟩]
    | false =>
    obtain ⟨ok₂, undone⟩ := next
    obtain ⟨_, s₃, removed, run⟩ := bind_ok run
    cases modify_ok_iff.mp removed
    cases run
    have there : s₂.leaf t va = some ⟨f, landedProt⟩ := by
      rw [undone.leaf, leaf₁, if_pos ⟨rfl, rfl⟩]
    have live₂ : s₂.pmm.refs f ≠ 0 := by
      obtain ⟨e', backed₂⟩ := ok₂.backed t va _ there
      have same := backed₂.found
      rw [undone.entries, entries₁, found va le_rfl (by omega)] at same
      cases same
      exact backed₂.owned anon
    refine ⟨⟨ok₂.lift there live₂, ok₂.exclusive.eraseLeaf⟩, undone.pmm.trans pmm₁,
      undone.ram.trans ram₁, undone.objects.trans objects₁, fun x => ?_, fun x page => ?_⟩
    · rw [entries_eraseLeaf, undone.entries, entries₁]
    rw [leaf_eraseLeaf]
    split
    next point =>
      rw [point.1, point.2]
      exact here.symm
    next apart => rw [undone.leaf, leaf₁, if_neg apart]
  · cases (bind_of_ok refused).symm.trans run
    exact ⟨ok.setRefuse refuse, rfl, rfl, rfl, fun _ => rfl, fun _ _ => rfl⟩

theorem Undone.view (undone : Undone s s') (x a : Nat) : s'.view x a = s.view x a :=
  view_congr (undone.entries x) (undone.leaf x _) (fun _ _ => by rw [undone.ram]) undone.objects

def withPages (mem : Nat → Option Byte) (lo : Nat) (pages : List (Nat → Byte)) : Nat →
    Option Byte :=
  fun va => if lo ≤ va ∧ va < lo + pages.length * vmPageSize then
    (pages[(va - lo) / vmPageSize]?).map fun bytes => bytes (va % vmPageSize) else mem va

theorem Landed.becomes {landing : Nat} {s₁ s₂ : Memory}
    (landed : Landed t landing frames s₂ s') (aligned : landing % vmPageSize = 0)
    (covers : ∀ {a}, ne.Covers a ↔ landing ≤ a ∧ a < landing + frames.length * vmPageSize)
    (entered : Entered t ne s₁ s₂) (quiet : Quiet ((frames : Multiset Frame) + held) s s₁) :
    Becomes held t (withPages (s.view t) landing (frames.map s.ram)) s s' := by
  -- away from the range neither the entry nor the leaves matter
  have away : ∀ x a, ¬ (x = t ∧ ne.Covers a) → s'.view x a = s.view x a := by
    intro x a outside
    rw [← quiet.view, ← entered.view outside]
    refine view_congr (landed.entries x) (landed.others x _ fun inside => outside ⟨inside.1, ?_⟩)
      (fun _ _ => by rw [landed.ram]) landed.objects
    have last : (landing + frames.length * vmPageSize) % vmPageSize = 0 := by
      rw [add_mul_mod_self_right]
      exact aligned
    have below := le_vmAlignDown_iff (x := a) aligned
    have above := le_vmAlignDown_iff (x := a) last
    rw [covers]
    omega
  refine ⟨fun f member => ?_, fun x other a => away x a fun inside => other inside.1, fun a => ?_⟩
  · rw [landed.ram, entered.ram, quiet.ram f (mem_add.mpr (.inr member))]
  unfold withPages
  rw [length_map]
  split
  next inside =>
    have found : vmMapLookup (s'.entries t) a = some ne := by
      rw [landed.entries, entered.lookup, if_pos (covers.mpr inside)]
    have bound : (a - landing) / vmPageSize < frames.length := by
      rw [div_lt_iff_lt_mul (by decide)]
      omega
    have frame := getElem?_eq_getElem bound
    have page : vmAlignDown a = landing + (a - landing) / vmPageSize * vmPageSize := by
      unfold vmAlignDown
      unfold vmPageSize at *
      omega
    have there := landed.leaf _ _ frame
    rw [← page] at there
    have member : frames[(a - landing) / vmPageSize] ∈ (frames : Multiset Frame) + held :=
      mem_add.mpr (.inl (mem_coe.mpr (getElem_mem bound)))
    rw [view_present found there, getElem?_map, frame, landed.ram, entered.ram, quiet.ram _ member]
    rfl
  next outside => exact away t a fun inside => outside (covers.mp inside.2)

theorem Entered.bare_at {s₁ s₂ : Memory} {a : Nat} (entered : Entered t ne s₁ s₂)
    (ok : VmOk s₁ held)
    (inside : ne.Covers a) : s₂.leaf t a = none := by
  by_contra there
  obtain ⟨l, present⟩ := Option.ne_none_iff_exists'.mp there
  have none := entered.bare a inside
  rw [entered.leaf] at present
  rw [vmAlignDown_of_mod (ok.aligned t a l present), present] at none
  cases none

/-- A payload lands on a range that was free, or nothing has changed and it is still carried. -/
theorem vmPagesInstall_spec {got : Option Nat} (ok : VmOk s ((frames : Multiset Frame) + held))
    (run : vmPagesInstall t frames s = (.ok got, s')) :
    match got with
    | none => VmOk s' ((frames : Multiset Frame) + held) ∧
      Quiet ((frames : Multiset Frame) + held) s s'
    | some landing => VmOk s' held ∧ landing % vmPageSize = 0 ∧
        (∀ a, landing ≤ a → a < landing + frames.length * vmPageSize → s.view t a = none) ∧
        Becomes held t (withPages (s.view t) landing (frames.map s.ram)) s s' := by
  unfold vmPagesInstall at run
  split at run
  · cases run
    exact ⟨ok, .refl _ _⟩
  obtain ⟨hole, s₁, search, run⟩ := bind_ok run
  obtain ⟨ok₁, quiet₁, -⟩ := vmMapFindSpace_quiet ok search
  cases hole with
  | none =>
    cases run
    exact ⟨ok₁, quiet₁⟩
  | some landing =>
  obtain ⟨b, s₂, enter, run⟩ := bind_ok run
  obtain ⟨ok₂, result⟩ := vmMapEnterBacked_spec ok₁ (fun _ => rfl) (fun _ => rfl) enter
  cases b with
  | false =>
    cases run
    exact ⟨ok₂, quiet₁.trans result.1⟩
  | true =>
  obtain ⟨fresh, entered⟩ := result
  generalize entry : newEntry landing (frames.length * vmPageSize) _ _ _ _ = ne at fresh entered
  have first : ne.vmeStart = landing := by rw [← entry]; rfl
  have last : ne.vmeEnd = landing + frames.length * vmPageSize := by rw [← entry]; rfl
  have anon : ne.vmeFlags.anon = true := by rw [← entry]; rfl
  have aligned := first ▸ fresh.first
  have covers : ∀ {a}, ne.Covers a ↔ landing ≤ a ∧ a < landing + frames.length * vmPageSize := by
    intro a
    unfold VmMapEntry.Covers
    rw [first, last]
  have bare : ∀ a, landing ≤ a → a < landing + frames.length * vmPageSize → s₂.leaf t a = none :=
    fun a lower upper => entered.bare_at ok₁ (covers.mpr ⟨lower, upper⟩)
  obtain ⟨b, s₃, install, run⟩ := bind_ok run
  have result := installPages_spec ok₂ anon aligned
    (fun a lower upper => by rw [entered.lookup, if_pos (covers.mpr ⟨lower, upper⟩)]) bare install
  have free : ∀ a, ne.Covers a → s.view t a = none := fun a inside => by
    rw [← quiet₁.view, view_outside (entered.free a inside)]
  cases b with
  | true =>
    cases run
    obtain ⟨ok₃, landed⟩ := result
    refine ⟨ok₃, aligned, fun a lower upper => free a (covers.mpr ⟨lower, upper⟩), ?_⟩
    exact landed.becomes aligned covers entered quiet₁
  | false =>
  obtain ⟨ok₃, undone⟩ := result
  cases run
  have lower : Cut landing (s₃.entries t) := by
    rw [undone.entries, ← first]
    exact entered.cut_first (ok₂.ranges t) fresh
  have upper : Cut (landing + frames.length * vmPageSize) (s₃.entries t) := by
    rw [undone.entries, ← last]
    exact entered.cut_last (ok₂.ranges t) fresh
  obtain ⟨ok₄, becomes⟩ := ok₃.removed lower upper fun a l present inside => by
    rw [undone.leaf, bare a inside.1 inside.2] at present
    cases present
  refine ⟨ok₄, ?_, ?_, ?_, ?_⟩
  · intro x a
    by_cases here : x = t
    · subst here
      rw [becomes.mine]
      unfold without
      split
      next inside => exact (free a (covers.mpr inside)).symm
      next outside =>
        rw [undone.view, entered.view fun inside => outside (covers.mp inside.2), quiet₁.view]
    · rw [becomes.others x here, undone.view, entered.view fun inside => here inside.1, quiet₁.view]
  · intro f member
    rw [becomes.ram f member, undone.ram, entered.ram, quiet₁.ram f member]
  · intro x a here
    rw [leaf_setEntries, undone.leaf, entered.leaf]
    exact quiet₁.present x a here
  intro f member one
  change s₃.pmm.refs f = 1
  rw [undone.pmm, entered.pmm]
  exact quiet₁.sole f member one

end Style9.Vm
