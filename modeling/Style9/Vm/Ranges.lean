import Style9.Lib.Intervals
import Style9.Vm.Calls

/-!
# What the entries of a map cover

The entries of a map lie in order, apart from each other and on page boundaries. Looking an
address up then depends only on which entries are in the list, and every routine on the list is
described by its members.
-/
namespace Style9.Vm

open Style9.Lib Intervals List Nat

variable {e ne e' : VmMapEntry} {es es' : List VmMapEntry} {va stop point start x page : Nat}

def VmMapEntry.Covers (e : VmMapEntry) (va : Nat) : Prop := e.vmeStart ≤ va ∧ va < e.vmeEnd

instance : Decidable (e.Covers va) := inferInstanceAs (Decidable (_ ∧ _))

/-- An entry on page boundaries; only owned ranges are writable or filled on demand. -/
structure VmMapEntry.Ok (e : VmMapEntry) : Prop where
  nonempty : e.vmeStart < e.vmeEnd
  first : e.vmeStart % vmPageSize = 0
  last : e.vmeEnd % vmPageSize = 0
  owned : e.vmeProt.write = true → e.vmeFlags.anon = true
  filled : e.vmeFlags.lazy = true → e.vmeFlags.anon = true

structure Ranges (es : List VmMapEntry) : Prop where
  ordered : es.Pairwise fun a b => a.vmeEnd ≤ b.vmeStart
  entry : ∀ e ∈ es, e.Ok

theorem Ranges.nil : Ranges [] := ⟨.nil, fun _ member => nomatch member⟩

theorem Ranges.tail (ranges : Ranges (e :: es)) : Ranges es :=
  ⟨ranges.ordered.of_cons, fun x member => ranges.entry x (mem_cons_of_mem _ member)⟩

theorem Ranges.sublist {fewer : List VmMapEntry} (ranges : Ranges es) (sub : fewer.Sublist es) :
    Ranges fewer := ⟨ranges.ordered.sublist sub, fun e member => ranges.entry e (sub.subset member)⟩

/-! ### The lists as intervals -/

theorem Ranges.intervals (ranges : Ranges es) :
    Intervals.Ordered VmMapEntry.vmeStart VmMapEntry.vmeEnd es :=
  ⟨ranges.ordered, fun e member => (ranges.entry e member).nonempty⟩

theorem vmMapLookup_eq (es : List VmMapEntry) (va : Nat) :
    vmMapLookup es va = Intervals.find VmMapEntry.vmeStart VmMapEntry.vmeEnd es va := by
  induction es with
  | nil => rfl
  | cons e rest ih => rw [vmMapLookup, Intervals.find, ih]

theorem vmRangeFree_eq (va stop : Nat) (es : List VmMapEntry) :
    vmRangeFree va stop es = Intervals.clear VmMapEntry.vmeStart VmMapEntry.vmeEnd va stop es := by
  induction es with
  | nil => rfl
  | cons e rest ih => rw [vmRangeFree, Intervals.clear, ih]

theorem vmEntryInsert_eq (ne : VmMapEntry) (es : List VmMapEntry) :
    vmEntryInsert ne es = Intervals.insert VmMapEntry.vmeStart ne es := by
  induction es with
  | nil => rfl
  | cons e rest ih => rw [vmEntryInsert, Intervals.insert, ih]

theorem vmMapRemove_eq (va stop : Nat) (es : List VmMapEntry) :
    vmMapRemove va stop es = Intervals.remove VmMapEntry.vmeStart VmMapEntry.vmeEnd va stop es := by
  induction es with
  | nil => rfl
  | cons e rest ih => rw [vmMapRemove, Intervals.remove, ih]

theorem vmClip_eq (point : Nat) (es : List VmMapEntry) :
    vmClip point es = Intervals.cut VmMapEntry.vmeStart VmMapEntry.vmeEnd VmMapEntry.below
      VmMapEntry.above point es := by
  induction es with
  | nil => rfl
  | cons e rest ih => rw [vmClip, Intervals.cut, ih]

theorem halves :
    Intervals.Halves VmMapEntry.vmeStart VmMapEntry.vmeEnd VmMapEntry.below VmMapEntry.above :=
  ⟨fun _ _ => rfl, fun _ _ => rfl, fun _ _ => rfl, fun _ _ => rfl⟩

/-! ### Lookup -/

theorem vmMapLookup_some_iff (ranges : Ranges es) :
    vmMapLookup es va = some e ↔ e ∈ es ∧ e.Covers va := by
  rw [vmMapLookup_eq]
  exact find_some_iff ranges.intervals

theorem vmMapLookup_none_iff (ranges : Ranges es) :
    vmMapLookup es va = none ↔ ∀ e ∈ es, ¬ e.Covers va := by
  rw [Option.eq_none_iff_forall_ne_some]
  constructor
  · exact fun none e member covers => none e ((vmMapLookup_some_iff ranges).mpr ⟨member, covers⟩)
  · intro clear e found
    obtain ⟨member, covers⟩ := (vmMapLookup_some_iff ranges).mp found
    exact clear e member covers

theorem vmMapLookup_congr (ranges : Ranges es) (ranges' : Ranges es')
    (same : ∀ e, e.Covers va → (e ∈ es' ↔ e ∈ es)) : vmMapLookup es' va = vmMapLookup es va := by
  ext e
  rw [vmMapLookup_some_iff ranges, vmMapLookup_some_iff ranges']
  exact ⟨fun ⟨member, covers⟩ => ⟨(same e covers).mp member, covers⟩,
    fun ⟨member, covers⟩ => ⟨(same e covers).mpr member, covers⟩⟩

theorem Ranges.unique {x : VmMapEntry} (ranges : Ranges es) (left : e ∈ es) (right : x ∈ es)
    (covers : e.Covers va) (covers' : x.Covers va) : e = x := by
  have found := (vmMapLookup_some_iff ranges).mpr ⟨left, covers⟩
  rw [(vmMapLookup_some_iff ranges).mpr ⟨right, covers'⟩] at found
  exact (Option.some.inj found).symm

/-! ### Pages -/

theorem vmAlignDown_le (x : Nat) : vmAlignDown x ≤ x := div_mul_le_self x vmPageSize

theorem vmAlignDown_add (x : Nat) : vmAlignDown x + x % vmPageSize = x := div_add_mod' x vmPageSize

@[simp] theorem vmAlignDown_mod (x : Nat) : vmAlignDown x % vmPageSize = 0 := mul_mod_left _ _

theorem mod_lt_vmPageSize (x : Nat) : x % vmPageSize < vmPageSize := mod_lt _ (by decide)

theorem vmAlignDown_of_mod (aligned : x % vmPageSize = 0) : vmAlignDown x = x := by
  have := vmAlignDown_add x
  omega

theorem vmAlignDown_add_lt {i : Nat} (aligned : page % vmPageSize = 0) (small : i < vmPageSize) :
    vmAlignDown (page + i) = page ∧ (page + i) % vmPageSize = i := by
  have := vmAlignDown_add (page + i)
  unfold vmPageSize at *
  omega

theorem le_vmAlignDown_iff {bound : Nat} (aligned : bound % vmPageSize = 0) :
    bound ≤ vmAlignDown x ↔ bound ≤ x := by
  unfold vmAlignDown vmPageSize at *
  omega

theorem VmMapEntry.Ok.covers_page (ok : e.Ok) : e.Covers (vmAlignDown va) ↔ e.Covers va := by
  have last := le_vmAlignDown_iff (x := va) ok.last
  unfold VmMapEntry.Covers
  rw [le_vmAlignDown_iff ok.first]
  omega

theorem vmMapLookup_page (ranges : Ranges es) :
    vmMapLookup es (vmAlignDown va) = vmMapLookup es va := by
  ext e
  rw [vmMapLookup_some_iff ranges, vmMapLookup_some_iff ranges]
  constructor
  · exact fun ⟨member, covers⟩ => ⟨member, (ranges.entry e member).covers_page.mp covers⟩
  · exact fun ⟨member, covers⟩ => ⟨member, (ranges.entry e member).covers_page.mpr covers⟩

theorem mem_vmPages_iff (aligned : start % vmPageSize = 0) :
    page ∈ vmPages start stop ↔ page % vmPageSize = 0 ∧ start ≤ page ∧ page < stop := by
  unfold vmPages
  rw [mem_map]
  constructor
  · rintro ⟨i, bound, rfl⟩
    rw [mem_range] at bound
    unfold vmPageSize at *
    omega
  rintro ⟨onPage, lower, upper⟩
  refine ⟨(page - start) / vmPageSize, ?_, ?_⟩
  · rw [mem_range]
    unfold vmPageSize at *
    omega
  · unfold vmPageSize at *
    omega

theorem vmPages_nodup (start stop : Nat) : (vmPages start stop).Nodup := by
  refine List.Nodup.map ?_ nodup_range
  intro i j same
  have same : start + i * vmPageSize = start + j * vmPageSize := same
  unfold vmPageSize at same
  omega

/-! ### The routines on the list -/

theorem vmRangeFree_iff (ranges : Ranges es) :
    vmRangeFree va stop es = true ↔ ∀ e ∈ es, e.vmeEnd ≤ va ∨ stop ≤ e.vmeStart := by
  rw [vmRangeFree_eq]
  exact clear_iff ranges.intervals

@[simp] theorem mem_vmEntryInsert : e ∈ vmEntryInsert ne es ↔ e = ne ∨ e ∈ es := by
  rw [vmEntryInsert_eq]
  exact mem_insert

section

variable (ranges : Ranges es) (ok : ne.Ok)
  (free : ∀ e ∈ es, e.vmeEnd ≤ ne.vmeStart ∨ ne.vmeEnd ≤ e.vmeStart)
include ranges ok free

theorem Ranges.insert : Ranges (vmEntryInsert ne es) := by
  refine ⟨?_, fun e member => ?_⟩
  · rw [vmEntryInsert_eq]
    exact (ranges.intervals.insert ok.nonempty free).apart
  · rcases mem_vmEntryInsert.mp member with rfl | member
    · exact ok
    · exact ranges.entry e member

theorem vmMapLookup_insert :
    vmMapLookup (vmEntryInsert ne es) va = if ne.Covers va then some ne else vmMapLookup es va := by
  have ranges' := ranges.insert ok free
  split
  next covers => exact (vmMapLookup_some_iff ranges').mpr ⟨by simp, covers⟩
  next outside =>
    refine vmMapLookup_congr ranges ranges' fun e covers => ?_
    rw [mem_vmEntryInsert]
    exact ⟨fun member => member.resolve_left fun same => outside (same ▸ covers), .inr⟩

end

theorem mem_vmMapRemove (ranges : Ranges es) :
    e ∈ vmMapRemove va stop es ↔ e ∈ es ∧ ¬ (va ≤ e.vmeStart ∧ e.vmeEnd ≤ stop) := by
  rw [vmMapRemove_eq]
  exact mem_remove ranges.intervals

theorem vmMapRemove_sublist (va stop : Nat) (es : List VmMapEntry) :
    (vmMapRemove va stop es).Sublist es := by
  rw [vmMapRemove_eq]
  exact remove_sublist va stop es

def Cut (point : Nat) (es : List VmMapEntry) : Prop :=
  ∀ e ∈ es, ¬ (e.vmeStart < point ∧ point < e.vmeEnd)

theorem vmMapLookup_remove (ranges : Ranges es) (lower : Cut va es) (upper : Cut stop es) :
    vmMapLookup (vmMapRemove va stop es) x = if va ≤ x ∧ x < stop then none
      else vmMapLookup es x := by
  have ranges' := ranges.sublist (vmMapRemove_sublist va stop es)
  split
  next inside =>
    rw [vmMapLookup_none_iff ranges']
    intro e member covers
    obtain ⟨member, out⟩ := (mem_vmMapRemove ranges).mp member
    have below := lower e member
    have above := upper e member
    obtain ⟨first, last⟩ := covers
    omega
  next outside =>
  refine vmMapLookup_congr ranges ranges' fun e covers => ?_
  rw [mem_vmMapRemove ranges]
  refine ⟨And.left, fun member => ⟨member, fun inside => outside ?_⟩⟩
  obtain ⟨first, last⟩ := covers
  omega

/-! ### Entries that stand for the same bytes -/

/-- At an address, an entry that permits, owns and promises what another does. -/
structure Alike (va : Nat) (e e' : VmMapEntry) : Prop where
  prot : e'.vmeProt = e.vmeProt
  anon : e'.vmeFlags.anon = e.vmeFlags.anon
  lazy : e'.vmeFlags.lazy = e.vmeFlags.lazy
  object : e'.vmeObject = e.vmeObject
  offset : e'.vmeOffset + (va - e'.vmeStart) = e.vmeOffset + (va - e.vmeStart)

theorem Alike.refl (va : Nat) (e : VmMapEntry) : Alike va e e := ⟨rfl, rfl, rfl, rfl, rfl⟩

theorem Alike.symm (alike : Alike va e e') : Alike va e' e :=
  ⟨alike.prot.symm, alike.anon.symm, alike.lazy.symm, alike.object.symm, alike.offset.symm⟩

theorem Alike.trans {e'' : VmMapEntry} (first : Alike va e e') (second : Alike va e' e'') :
    Alike va e e'' :=
  ⟨second.prot.trans first.prot, second.anon.trans first.anon, second.lazy.trans first.lazy,
    second.object.trans first.object, second.offset.trans first.offset⟩

theorem Alike.backing (alike : Alike va e e') (s : Memory) : s.backing e' va = s.backing e va := by
  unfold Memory.backing
  rw [alike.object, alike.offset]

/-- Two lists that give like answers at every address. -/
def AlikeAll (es es' : List VmMapEntry) : Prop :=
  ∀ va, Option.Rel (Alike va) (vmMapLookup es va) (vmMapLookup es' va)

theorem AlikeAll.refl (es : List VmMapEntry) : AlikeAll es es := by
  intro va
  cases vmMapLookup es va with
  | none => exact .none
  | some e => exact .some (Alike.refl va e)

theorem AlikeAll.some (alike : AlikeAll es es') (found : vmMapLookup es va = .some e) :
    ∃ e', vmMapLookup es' va = .some e' ∧ Alike va e e' := by
  have here := alike va
  rw [found] at here
  generalize other : vmMapLookup es' va = got at here
  cases here with
  | some like => exact ⟨_, rfl, like⟩

theorem AlikeAll.back (alike : AlikeAll es es') (found : vmMapLookup es' va = .some e) :
    ∃ e', vmMapLookup es va = .some e' ∧ Alike va e' e := by
  have here := alike va
  rw [found] at here
  generalize other : vmMapLookup es va = got at here
  cases here with
  | some like => exact ⟨_, rfl, like⟩

theorem AlikeAll.trans {es'' : List VmMapEntry} (first : AlikeAll es es')
    (second : AlikeAll es' es'') :
    AlikeAll es es'' := by
  intro va
  cases found : vmMapLookup es va with
  | some e =>
    obtain ⟨e', there, like⟩ := first.some found
    obtain ⟨e'', last, like'⟩ := second.some there
    rw [last]
    exact .some (like.trans like')
  | none =>
  cases last : vmMapLookup es'' va with
  | none => exact .none
  | some e'' =>
  obtain ⟨e', there, -⟩ := second.back last
  obtain ⟨e, here, -⟩ := first.back there
  rw [found] at here
  cases here

section

variable (ranges : Ranges es)
include ranges

/-- Each entry of the first list is covered by like entries of the second, and no others. -/
theorem AlikeAll.of_members (ranges' : Ranges es')
    (forth : ∀ e ∈ es, ∀ va, e.Covers va → ∃ e' ∈ es', e'.Covers va ∧ Alike va e e')
    (back : ∀ e' ∈ es', ∀ va, e'.Covers va → ∃ e ∈ es, e.Covers va) : AlikeAll es es' := by
  intro va
  cases found : vmMapLookup es va with
  | none =>
    have clear := (vmMapLookup_none_iff ranges).mp found
    have none : vmMapLookup es' va = none := by
      refine (vmMapLookup_none_iff ranges').mpr fun e' member covers => ?_
      obtain ⟨e, member, covers⟩ := back e' member va covers
      exact clear e member covers
    rw [none]
    exact .none
  | some e =>
  obtain ⟨member, covers⟩ := (vmMapLookup_some_iff ranges).mp found
  obtain ⟨e', member', covers', alike⟩ := forth e member va covers
  rw [(vmMapLookup_some_iff ranges').mpr ⟨member', covers'⟩]
  exact .some alike

theorem mem_vmClip : e ∈ vmClip point es ↔ (e ∈ es ∧ ¬ (e.vmeStart < point ∧ point < e.vmeEnd)) ∨
      ∃ x ∈ es, (x.vmeStart < point ∧ point < x.vmeEnd) ∧
        (e = x.below point ∨ e = x.above point) := by
  rw [vmClip_eq]
  exact mem_cut ranges.intervals

theorem vmClip_within (member : e ∈ vmClip point es) :
    ∃ x ∈ es, x.vmeStart ≤ e.vmeStart ∧ e.vmeEnd ≤ x.vmeEnd := by
  rw [vmClip_eq] at member
  exact cut_within ranges.intervals halves member

theorem Ranges.clip (aligned : point % vmPageSize = 0) : Ranges (vmClip point es) := by
  refine ⟨?_, fun e member => ?_⟩
  · rw [vmClip_eq]
    exact (ranges.intervals.cut halves).apart
  rcases (mem_vmClip ranges).mp member with ⟨old, -⟩ | ⟨x, old, crossed, rfl | rfl⟩
  · exact ranges.entry e old
  · have ok := ranges.entry x old
    exact ⟨crossed.1, ok.first, aligned, ok.owned, ok.filled⟩
  · have ok := ranges.entry x old
    exact ⟨crossed.2, aligned, ok.last, ok.owned, ok.filled⟩

theorem cut_vmClip : Cut point (vmClip point es) := by
  intro e member
  rcases (mem_vmClip ranges).mp member with ⟨-, whole⟩ | ⟨x, -, -, rfl | rfl⟩
  · exact whole
  · exact fun crossed => absurd crossed.2 (lt_irrefl _)
  · exact fun crossed => absurd crossed.1 (lt_irrefl _)

end

theorem Cut.clip (cut : Cut va es) (ranges : Ranges es) : Cut va (vmClip point es) := by
  intro e member crossed
  obtain ⟨x, member, lower, upper⟩ := vmClip_within ranges member
  exact cut x member ⟨lower.trans_lt crossed.1, crossed.2.trans_le upper⟩

/-- Cutting an entry changes no answer: the upper half starts as much further into the object
as it starts further into the range. -/
theorem AlikeAll.clip (ranges : Ranges es) (aligned : point % vmPageSize = 0) :
    AlikeAll es (vmClip point es) := by
  refine AlikeAll.of_members ranges (ranges.clip aligned) ?_ ?_
  · intro e member va covers
    by_cases crossed : e.vmeStart < point ∧ point < e.vmeEnd
    · by_cases low : va < point
      · exact ⟨e.below point, (mem_vmClip ranges).mpr (.inr ⟨e, member, crossed, .inl rfl⟩),
          ⟨covers.1, low⟩, ⟨rfl, rfl, rfl, rfl, rfl⟩⟩
      refine ⟨e.above point, (mem_vmClip ranges).mpr (.inr ⟨e, member, crossed, .inr rfl⟩),
        ⟨not_lt.mp low, covers.2⟩, ⟨rfl, rfl, rfl, rfl, ?_⟩⟩
      change e.vmeOffset + (point - e.vmeStart) + (va - point) = _
      omega
    · exact ⟨e, (mem_vmClip ranges).mpr (.inl ⟨member, crossed⟩), covers, .refl va e⟩
  · intro e member va covers
    obtain ⟨x, member, lower, upper⟩ := vmClip_within ranges member
    exact ⟨x, member, lower.trans covers.1, covers.2.trans_le upper⟩

/-! ### The copy-on-write mark -/

def VmMapEntry.markCow (start : Nat) (e : VmMapEntry) : VmMapEntry :=
  if e.vmeStart = start then { e with vmeFlags := { e.vmeFlags with cow := true } } else e

theorem VmMapEntry.markCow_alike (start va : Nat) (e : VmMapEntry) :
    Alike va e (e.markCow start) := by
  unfold VmMapEntry.markCow
  split
  · exact ⟨rfl, rfl, rfl, rfl, rfl⟩
  · exact .refl va e

@[simp] theorem VmMapEntry.markCow_bounds (start : Nat) (e : VmMapEntry) :
    (e.markCow start).vmeStart = e.vmeStart ∧ (e.markCow start).vmeEnd = e.vmeEnd := by
  unfold VmMapEntry.markCow
  split <;> exact ⟨rfl, rfl⟩

theorem VmMapEntry.markCow_covers : (e.markCow start).Covers va ↔ e.Covers va := by
  unfold VmMapEntry.Covers
  rw [(e.markCow_bounds start).1, (e.markCow_bounds start).2]

theorem mem_vmMarkCow : e ∈ vmMarkCow start es ↔ ∃ x ∈ es, x.markCow start = e := by
  unfold vmMarkCow
  rw [mem_map]
  rfl

theorem Ranges.markCow (ranges : Ranges es) (start : Nat) : Ranges (vmMarkCow start es) := by
  refine ⟨?_, ?_⟩
  · refine pairwise_map.mpr (ranges.ordered.imp ?_)
    intro a b apart
    change (a.markCow start).vmeEnd ≤ (b.markCow start).vmeStart
    rw [(a.markCow_bounds start).2, (b.markCow_bounds start).1]
    exact apart
  intro e member
  obtain ⟨x, old, rfl⟩ := mem_vmMarkCow.mp member
  have ok := ranges.entry x old
  have alike := x.markCow_alike start 0
  obtain ⟨first, last⟩ := x.markCow_bounds start
  refine ⟨?_, ?_, ?_, ?_, ?_⟩
  · rw [first, last]
    exact ok.nonempty
  · rw [first]
    exact ok.first
  · rw [last]
    exact ok.last
  · rw [alike.prot, alike.anon]
    exact ok.owned
  · rw [alike.lazy, alike.anon]
    exact ok.filled

theorem AlikeAll.markCow (ranges : Ranges es) (start : Nat) : AlikeAll es (vmMarkCow start es) := by
  refine AlikeAll.of_members ranges (ranges.markCow start) ?_ ?_
  · intro e member va covers
    exact ⟨e.markCow start, mem_vmMarkCow.mpr ⟨e, member, rfl⟩,
      VmMapEntry.markCow_covers.mpr covers, e.markCow_alike start va⟩
  · intro e member va covers
    obtain ⟨x, old, rfl⟩ := mem_vmMarkCow.mp member
    exact ⟨x, old, VmMapEntry.markCow_covers.mp covers⟩

theorem Cut.markCow {a : Nat} (cut : Cut a es) (start : Nat) : Cut a (vmMarkCow start es) := by
  intro e member
  obtain ⟨x, old, rfl⟩ := mem_vmMarkCow.mp member
  rw [(x.markCow_bounds start).1, (x.markCow_bounds start).2]
  exact cut x old

end Style9.Vm
