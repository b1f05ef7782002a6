import Style9.Vm.Mapping

/-!
# Releases do not stop the machine

`pmm_free_page` asserts that the frame it is given was handed out. The two ways a range goes away
walk only pages under entries that own what they map, and in a state whose accounts are in order
those frames have an owner: the assertion holds.
-/
namespace Style9.Vm

open Style9.Lib Act List

variable {s s' : Memory} {t va : Nat} {held : Multiset Frame}

/-- The address is under an entry that owns what it maps. -/
def OwnedAt (s : Memory) (t a : Nat) : Prop :=
  ∃ e, vmMapLookup (s.entries t) a = some e ∧ e.vmeFlags.anon = true

theorem Owned.live_of_owned (ok : Owned s held) (owned : OwnedAt s t va) {l : Leaf}
    (present : s.leaf t va = some l) :
    s.pmm.used l.pa = true ∧ s.pmm.refs l.pa ≠ 0 := by
  obtain ⟨e, found, anon⟩ := owned
  obtain ⟨e', backed⟩ := ok.backed t va l present
  have same := backed.found
  rw [found] at same
  cases same
  have live := backed.owned anon
  exact ⟨ok.busy _ live, live⟩

theorem dropPage_returns (ok : VmOk s held) (owned : (s.leaf t va).isSome = true → OwnedAt s t va) :
    ∃ s', dropPage t va s = (.ok (), s') := by
  unfold dropPage
  rw [read_bind]
  cases leaf : s.leaf t va with
  | none => exact ⟨s, rfl⟩
  | some l =>
    obtain ⟨used, live⟩ := ok.live_of_owned (owned (by rw [leaf]; rfl)) leaf
    exact ⟨_, pmmFreePage_of_live (s := s.eraseLeaf t va) used live⟩

theorem dropPages_returns {pages : List Nat} (ok : VmOk s held)
    (owned : ∀ a ∈ pages, (s.leaf t a).isSome = true → OwnedAt s t a) :
    ∃ s', dropPages t pages s = (.ok (), s') := by
  induction pages generalizing s with
  | nil => exact ⟨s, rfl⟩
  | cons va rest ih =>
  obtain ⟨s₁, first⟩ := dropPage_returns ok (owned va mem_cons_self)
  obtain ⟨ok₁, dropped⟩ := dropPage_spec ok first
  -- the entries are the same, and no page has come up
  have owned₁ : ∀ a ∈ rest, (s₁.leaf t a).isSome = true → OwnedAt s₁ t a := by
    intro a member there
    have before : (s.leaf t a).isSome = true := by
      rw [dropped.leaf] at there
      split at there
      · cases there
      · exact there
    unfold OwnedAt
    rw [dropped.entries]
    exact owned a (mem_cons_of_mem _ member) before
  obtain ⟨s₂, later⟩ := ih ok₁ owned₁
  exact ⟨s₂, (bind_of_ok first).trans later⟩

theorem releaseEntries_returns {es : List VmMapEntry} (ok : VmOk s held)
    (owned : ∀ e ∈ es, e.vmeFlags.anon = true → ∀ a ∈ vmPages e.vmeStart e.vmeEnd, OwnedAt s t a) :
    ∃ s', releaseEntries t es s = (.ok (), s') := by
  induction es generalizing s with
  | nil => exact ⟨s, rfl⟩
  | cons e rest ih =>
  have others : ∀ {s₁ : Memory}, (∀ x, s₁.entries x = s.entries x) →
      ∀ e ∈ rest, e.vmeFlags.anon = true → ∀ a ∈ vmPages e.vmeStart e.vmeEnd, OwnedAt s₁ t a := by
    intro s₁ entries x member anon a page
    unfold OwnedAt
    rw [entries]
    exact owned x (mem_cons_of_mem _ member) anon a page
  cases anon : e.vmeFlags.anon with
  | true =>
    obtain ⟨s₁, first⟩ := dropPages_returns ok fun a page _ => owned e mem_cons_self anon a page
    obtain ⟨ok₁, dropped⟩ := dropPages_spec ok first
    obtain ⟨s₂, later⟩ := ih ok₁ (others dropped.entries)
    refine ⟨s₂, ?_⟩
    simp only [releaseEntries, anon, if_true]
    exact (bind_of_ok first).trans later
  | false =>
    simp only [releaseEntries, anon, Bool.false_eq_true, if_false]
    exact ih ok (others fun _ => rfl)

theorem vmMapReleaseAnon_returns (ok : VmOk s held) (t : Nat) :
    ∃ s', vmMapReleaseAnon t s = (.ok (), s') := by
  unfold vmMapReleaseAnon
  rw [read_bind]
  refine releaseEntries_returns ok fun e member anon a page => ?_
  have ranges := ok.ranges t
  obtain ⟨-, low, high⟩ := (mem_vmPages_iff (ranges.entry e member).first).mp page
  exact ⟨e, (vmMapLookup_some_iff ranges).mpr ⟨member, low, high⟩, anon⟩

theorem taskDestroy_returns (ok : VmOk s held) (t : Nat) :
    ∃ s', taskDestroy t s = (.ok (), s') := by
  obtain ⟨s₁, released⟩ := vmMapReleaseAnon_returns ok t
  exact ⟨_, (bind_of_ok released).trans rfl⟩

/-! ### A range -/

theorem owned_of_vmCovered {stop covered : Nat} {es : List VmMapEntry} (ranges : Ranges es)
    (whole : stop ≤ vmCovered stop covered es) {a : Nat} (low : covered ≤ a) (high : a < stop) :
    ∃ e ∈ es, e.Covers a ∧ e.vmeFlags.anon = true := by
  induction es generalizing covered with
  | nil =>
    simp only [vmCovered] at whole
    omega
  | cons e rest ih =>
  simp only [vmCovered] at whole
  split at whole
  · omega
  split at whole
  · obtain ⟨x, member, found⟩ := ih ranges.tail whole low
    exact ⟨x, mem_cons_of_mem _ member, found⟩
  split at whole
  · omega
  split at whole
  · omega
  next inside owned =>
  by_cases here : a < e.vmeEnd
  · exact ⟨e, mem_cons_self, ⟨by omega, here⟩, by simpa using owned⟩
  · obtain ⟨x, member, found⟩ := ih ranges.tail whole (by omega)
    exact ⟨x, mem_cons_of_mem _ member, found⟩

theorem vmMapClip_returns {point : Nat} (ok : VmOk s held) (aligned : point % vmPageSize = 0) :
    ∃ b s', vmMapClip t point s = (.ok b, s') ∧ ∀ a, OwnedAt s t a → OwnedAt s' t a := by
  obtain ⟨b, s', run, refuse, ⟨rfl, -⟩ | ⟨-, rfl⟩⟩ := vmMapClip_result point (ok.ranges t)
  · exact ⟨b, _, run, fun _ => id⟩
  refine ⟨b, _, run, fun a owned => ?_⟩
  obtain ⟨e, found, anon⟩ := owned
  obtain ⟨e', clipped, same⟩ := (AlikeAll.clip (ok.ranges t) aligned).some found
  refine ⟨e', ?_, same.anon.trans anon⟩
  rw [Memory.entries_setEntries, if_pos rfl]
  exact clipped

theorem vmMapRelease_returns (ok : VmOk s held) (t va size : Nat) :
    ∃ b s', vmMapRelease t va size s = (.ok b, s') := by
  unfold vmMapRelease
  rw [read_bind]
  split
  · exact ⟨false, s, rfl⟩
  next legal =>
  simp only [not_or, not_not, ne_eq] at legal
  obtain ⟨-, first, whole, -, -⟩ := legal
  have last : (va + size) % vmPageSize = 0 := by
    unfold vmPageSize at *
    omega
  split
  · exact ⟨false, s, rfl⟩
  next covered =>
  have owned : ∀ a ∈ vmPages va (va + size), OwnedAt s t a := by
    intro a page
    obtain ⟨-, low, high⟩ := (mem_vmPages_iff first).mp page
    obtain ⟨e, member, covers, anon⟩ :=
      owned_of_vmCovered (ok.ranges t) (by exact not_lt.mp covered) low high
    exact ⟨e, (vmMapLookup_some_iff (ok.ranges t)).mpr ⟨member, covers⟩, anon⟩
  obtain ⟨b₁, s₁, clip₁, kept₁⟩ := vmMapClip_returns ok first
  obtain ⟨ok₁, -⟩ := vmMapClip_spec ok first clip₁
  rw [bind_of_ok clip₁]
  split
  · exact ⟨false, s₁, rfl⟩
  obtain ⟨b₂, s₂, clip₂, kept₂⟩ := vmMapClip_returns ok₁ last
  obtain ⟨ok₂, -⟩ := vmMapClip_spec ok₁ last clip₂
  rw [bind_of_ok clip₂]
  split
  · exact ⟨false, s₂, rfl⟩
  obtain ⟨s₃, dropped⟩ := dropPages_returns ok₂ fun a page _ => kept₂ a (kept₁ a (owned a page))
  exact ⟨true, _, (bind_of_ok dropped).trans rfl⟩

end Style9.Vm
