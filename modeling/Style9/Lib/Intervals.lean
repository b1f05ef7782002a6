import Mathlib.Data.List.Pairwise

/-!
# Sorted lists of disjoint intervals

Records with a lower and an upper end, kept in order and apart in a list. Finding the record over a
point, inserting one where nothing is, cutting the one over a point in two and taking out those
inside a range walk the list from its head and stop as soon as the order lets them; what they do is
described by the members of the list alone.
-/
namespace Style9.Lib.Intervals

open List Option

section
variable {E : Type*} (lo hi : E → Nat)

/-- The record over a point. -/
def find : List E → Nat → Option E
  | [], _ => none
  | e :: rest, x => if x < lo e then none else if x < hi e then some e else find rest x

/-- A record put before the first that does not start below it. -/
def insert (new : E) : List E → List E
  | [] => [new]
  | e :: rest => if lo e < lo new then e :: insert new rest else new :: e :: rest

/-- Whether nothing meets a range. -/
def clear (a b : Nat) : List E → Bool
  | [] => true
  | e :: rest => if b ≤ lo e then true else if hi e ≤ a then clear a b rest else false

/-- The records that are not wholly inside a range. -/
def remove (a b : Nat) : List E → List E
  | [] => []
  | e :: rest =>
    if b ≤ lo e then e :: rest else if a ≤ lo e ∧ hi e ≤ b then remove a b rest
      else e :: remove a b rest

/-- The records wholly inside a range, in the order in which they are met. -/
def inside (a b : Nat) : List E → List E
  | [] => []
  | e :: rest => if b ≤ lo e then [] else if a ≤ lo e ∧ hi e ≤ b then e :: inside a b rest
    else inside a b rest

/-- The record over a point made two, if the point is strictly inside. -/
def cut (below above : E → Nat → E) (x : Nat) : List E → List E
  | [] => []
  | e :: rest =>
    if x < lo e then e :: rest
    else if x < hi e then if lo e = x then e :: rest else below e x :: above e x :: rest
    else e :: cut below above x rest

/-- In order, apart, and none empty. -/
structure Ordered (es : List E) : Prop where
  apart : es.Pairwise fun a b => hi a ≤ lo b
  nonempty : ∀ e ∈ es, lo e < hi e

/-- The two parts of a record. -/
structure Halves (below above : E → Nat → E) : Prop where
  belowLo : ∀ e x, lo (below e x) = lo e
  belowHi : ∀ e x, hi (below e x) = x
  aboveLo : ∀ e x, lo (above e x) = x
  aboveHi : ∀ e x, hi (above e x) = hi e

end

variable {E : Type*} {lo hi : E → Nat} {e new : E} {es : List E} {a b x : Nat}
  {below above : E → Nat → E}

theorem Ordered.tail (ordered : Ordered lo hi (e :: es)) : Ordered lo hi es :=
  ⟨ordered.apart.of_cons, fun d member => ordered.nonempty d (mem_cons_of_mem _ member)⟩

theorem Ordered.after (ordered : Ordered lo hi (e :: es)) {d : E} (member : d ∈ es) : hi e ≤ lo d :=
  (pairwise_cons.mp ordered.apart).1 d member

theorem Ordered.head (ordered : Ordered lo hi (e :: es)) : lo e < hi e :=
  ordered.nonempty e mem_cons_self

theorem Ordered.sublist {fewer : List E} (ordered : Ordered lo hi es) (sub : fewer.Sublist es) :
    Ordered lo hi fewer :=
  ⟨ordered.apart.sublist sub, fun e member => ordered.nonempty e (sub.subset member)⟩

/-! ### Finding -/

theorem find_some_iff (ordered : Ordered lo hi es) :
    find lo hi es x = some e ↔ e ∈ es ∧ lo e ≤ x ∧ x < hi e := by
  induction es with
  | nil => simp [find]
  | cons d rest ih =>
  have wide := ordered.head
  unfold find
  split
  next before =>
    -- the list is in order, so nothing further on is over the point either
    simp only [reduceCtorEq, mem_cons, false_iff, not_and]
    rintro (rfl | member) lower upper
    · omega
    · have := ordered.after member
      omega
  next reached =>
  split
  next inside =>
    simp only [some.injEq, mem_cons]
    constructor
    · rintro rfl
      exact ⟨.inl rfl, by omega, inside⟩
    rintro ⟨rfl | member, lower, upper⟩
    · rfl
    · have := ordered.after member
      omega
  next past =>
  rw [ih ordered.tail, mem_cons]
  constructor
  · exact fun found => ⟨.inr found.1, found.2⟩
  · rintro ⟨rfl | member, covers⟩
    · exact absurd covers.2 past
    · exact ⟨member, covers⟩

theorem find_none_iff (ordered : Ordered lo hi es) :
    find lo hi es x = none ↔ ∀ e ∈ es, ¬ (lo e ≤ x ∧ x < hi e) := by
  rw [eq_none_iff_forall_ne_some]
  constructor
  · exact fun unfound e member covers => unfound e ((find_some_iff ordered).mpr ⟨member, covers⟩)
  · intro clear e found
    obtain ⟨member, covers⟩ := (find_some_iff ordered).mp found
    exact clear e member covers

theorem clear_iff (ordered : Ordered lo hi es) :
    clear lo hi a b es = true ↔ ∀ e ∈ es, hi e ≤ a ∨ b ≤ lo e := by
  induction es with
  | nil => simp [clear]
  | cons d rest ih =>
  have wide := ordered.head
  unfold clear
  split
  next past =>
    simp only [true_iff]
    intro e member
    rcases mem_cons.mp member with rfl | member
    · exact .inr past
    · have := ordered.after member
      omega
  next overlap =>
  split
  next before => simp [ih ordered.tail, before]
  next inside =>
    simp only [Bool.false_eq_true, mem_cons, false_iff, not_forall]
    exact ⟨d, .inl rfl, by omega⟩

/-! ### Inserting -/

theorem perm_insert : (insert lo new es).Perm (new :: es) := by
  induction es with
  | nil => exact .refl _
  | cons d rest ih =>
  unfold insert
  split
  · exact (ih.cons d).trans (.swap new d rest)
  · exact .refl _

theorem mem_insert : e ∈ insert lo new es ↔ e = new ∨ e ∈ es := by
  rw [perm_insert.mem_iff, mem_cons]

section

variable (ordered : Ordered lo hi es) (wide : lo new < hi new)
  (free : ∀ e ∈ es, hi e ≤ lo new ∨ hi new ≤ lo e)
include ordered wide free

theorem Ordered.insert : Ordered lo hi (insert lo new es) := by
  refine ⟨?_, ?_⟩
  · induction es with
    | nil => simp [Intervals.insert]
    | cons d rest ih =>
      have wide' := ordered.head
      have clear := free d mem_cons_self
      unfold Intervals.insert
      split
      next before =>
        refine pairwise_cons.mpr ⟨?_, ih ordered.tail fun e member =>
          free e (mem_cons_of_mem _ member)⟩
        intro e member
        rcases mem_insert.mp member with rfl | member
        · omega
        · exact ordered.after member
      next here =>
      refine pairwise_cons.mpr ⟨?_, ordered.apart⟩
      intro e member
      rcases mem_cons.mp member with rfl | member
      · omega
      · have := ordered.after member
        omega
  intro e member
  rcases mem_insert.mp member with rfl | member
  · exact wide
  · exact ordered.nonempty e member

theorem find_insert :
    find lo hi (insert lo new es) x = if lo new ≤ x ∧ x < hi new then some new
      else find lo hi es x := by
  have ordered' := ordered.insert wide free
  split
  next covers => exact (find_some_iff ordered').mpr ⟨mem_insert.mpr (.inl rfl), covers⟩
  next outside =>
  ext e
  rw [find_some_iff ordered', find_some_iff ordered, mem_insert]
  constructor
  · rintro ⟨rfl | member, covers⟩
    · exact absurd covers outside
    · exact ⟨member, covers⟩
  · exact fun ⟨member, covers⟩ => ⟨.inr member, covers⟩

end

/-! ### Taking out -/

theorem mem_remove (ordered : Ordered lo hi es) :
    e ∈ remove lo hi a b es ↔ e ∈ es ∧ ¬ (a ≤ lo e ∧ hi e ≤ b) := by
  induction es with
  | nil => simp [remove]
  | cons d rest ih =>
  have wide := ordered.head
  unfold remove
  split
  next past =>
    -- the walk stops here, and nothing further on lies inside the range
    refine ⟨fun member => ⟨member, ?_⟩, And.left⟩
    have wide' := ordered.nonempty e member
    rcases mem_cons.mp member with rfl | member
    · omega
    · have := ordered.after member
      omega
  next =>
  split
  next inside =>
    rw [ih ordered.tail, mem_cons]
    constructor
    · exact fun found => ⟨.inr found.1, found.2⟩
    · rintro ⟨rfl | member, outside⟩
      · exact absurd inside outside
      · exact ⟨member, outside⟩
  next outside =>
  rw [mem_cons, mem_cons, ih ordered.tail]
  constructor
  · rintro (rfl | found)
    · exact ⟨.inl rfl, outside⟩
    · exact ⟨.inr found.1, found.2⟩
  · rintro ⟨rfl | member, out⟩
    · exact .inl rfl
    · exact .inr ⟨member, out⟩

theorem remove_sublist (a b : Nat) (es : List E) : (remove lo hi a b es).Sublist es := by
  induction es with
  | nil => exact List.Sublist.refl _
  | cons d rest ih =>
  unfold remove
  split
  · exact List.Sublist.refl _
  · split
    · exact ih.cons d
    · exact ih.cons_cons d

theorem find_remove (ordered : Ordered lo hi es) :
    find lo hi (remove lo hi a b es) x = (find lo hi es x).filter fun e =>
      ¬ (a ≤ lo e ∧ hi e ≤ b) := by
  ext e
  rw [find_some_iff (ordered.sublist (remove_sublist a b es)), mem_remove ordered,
    filter_eq_some_iff,
    find_some_iff ordered, decide_eq_true_eq]
  exact and_right_comm

theorem inside_append_remove (lo hi : E → Nat) (a b : Nat) (es : List E) :
    (inside lo hi a b es ++ remove lo hi a b es).Perm es := by
  induction es with
  | nil => exact .refl _
  | cons e rest ih =>
  unfold inside remove
  split
  · exact .refl _
  · split
    · exact ih.cons e
    · exact perm_middle.trans (ih.cons e)

/-! ### Cutting -/

theorem mem_cut (ordered : Ordered lo hi es) : e ∈ cut lo hi below above x es ↔
    (e ∈ es ∧ ¬ (lo e < x ∧ x < hi e)) ∨ ∃ d ∈ es, (lo d < x ∧ x < hi d) ∧
      (e = below d x ∨ e = above d x) := by
  induction es with
  | nil => simp [cut]
  | cons d rest ih =>
  -- nothing after a record that ends past the cut is crossed by it
  have later : x < hi d → ∀ y ∈ rest, ¬ (lo y < x ∧ x < hi y) := by
    intro inside y member
    have := ordered.after member
    omega
  have wide := ordered.head
  unfold cut
  split
  next before =>
    have apart : ∀ y ∈ d :: rest, ¬ (lo y < x ∧ x < hi y) := by
      intro y member
      rcases mem_cons.mp member with rfl | member
      · omega
      · exact later (by omega) y member
    exact ⟨fun member => .inl ⟨member, apart e member⟩,
      fun found => found.elim And.left fun ⟨y, member, crossed, _⟩ =>
      absurd crossed (apart y member)⟩
  next reached =>
  split
  next inside =>
    split
    next edge =>
      have apart : ∀ y ∈ d :: rest, ¬ (lo y < x ∧ x < hi y) := by
        intro y member
        rcases mem_cons.mp member with rfl | member
        · omega
        · exact later inside y member
      exact ⟨fun member => .inl ⟨member, apart e member⟩,
        fun found => found.elim And.left fun ⟨y, member, crossed, _⟩ =>
        absurd crossed (apart y member)⟩
    next strict =>
    have crossed : lo d < x ∧ x < hi d := by omega
    simp only [mem_cons]
    constructor
    · rintro (half | half | member)
      · exact .inr ⟨d, .inl rfl, crossed, .inl half⟩
      · exact .inr ⟨d, .inl rfl, crossed, .inr half⟩
      · exact .inl ⟨.inr member, later inside e member⟩
    rintro (⟨rfl | member, whole⟩ | ⟨y, rfl | member, cut, half⟩)
    · exact absurd crossed whole
    · exact .inr (.inr member)
    · exact half.elim .inl fun above => .inr (.inl above)
    · exact absurd cut (later inside y member)
  next past =>
  rw [mem_cons, ih ordered.tail]
  simp only [mem_cons]
  constructor
  · rintro (rfl | ⟨member, whole⟩ | ⟨y, member, found⟩)
    · exact .inl ⟨.inl rfl, by omega⟩
    · exact .inl ⟨.inr member, whole⟩
    · exact .inr ⟨y, .inr member, found⟩
  rintro (⟨rfl | member, whole⟩ | ⟨y, rfl | member, cut, half⟩)
  · exact .inl rfl
  · exact .inr (.inl ⟨member, whole⟩)
  · omega
  · exact .inr (.inr ⟨y, member, cut, half⟩)

section

variable (ordered : Ordered lo hi es) (halves : Halves lo hi below above)
include ordered halves

theorem cut_within (member : e ∈ cut lo hi below above x es) :
    ∃ d ∈ es, lo d ≤ lo e ∧ hi e ≤ hi d := by
  rcases (mem_cut ordered).mp member with ⟨old, -⟩ | ⟨d, old, crossed, rfl | rfl⟩
  · exact ⟨e, old, Nat.le_refl _, Nat.le_refl _⟩
  · exact ⟨d, old, Nat.le_of_eq
      (halves.belowLo d x).symm, by rw [halves.belowHi]; exact Nat.le_of_lt crossed.2⟩
  · exact ⟨d, old, by rw [halves.aboveLo]; exact Nat.le_of_lt crossed.1,
      Nat.le_of_eq (halves.aboveHi d x)⟩

theorem Ordered.cut : Ordered lo hi (cut lo hi below above x es) := by
  refine ⟨?_, ?_⟩
  · induction es with
    | nil => exact .nil
    | cons d rest ih =>
      unfold Intervals.cut
      split
      · exact ordered.apart
      split
      next inside =>
        split
        · exact ordered.apart
        refine pairwise_cons.mpr ⟨?_, pairwise_cons.mpr ⟨?_, ordered.tail.apart⟩⟩
        · intro e member
          rw [halves.belowHi]
          rcases mem_cons.mp member with rfl | member
          · exact Nat.le_of_eq (halves.aboveLo d x).symm
          · exact Nat.le_trans (Nat.le_of_lt inside) (ordered.after member)
        · intro e member
          rw [halves.aboveHi]
          exact ordered.after member
      · refine pairwise_cons.mpr ⟨fun e member => ?_, ih ordered.tail⟩
        obtain ⟨y, member, lower, -⟩ := cut_within ordered.tail halves member
        exact Nat.le_trans (ordered.after member) lower
  intro e member
  rcases (mem_cut ordered).mp member with ⟨old, -⟩ | ⟨d, old, crossed, rfl | rfl⟩
  · exact ordered.nonempty e old
  · rw [halves.belowLo, halves.belowHi]
    exact crossed.1
  · rw [halves.aboveLo, halves.aboveHi]
    exact crossed.2

theorem find_cut {y : Nat} :
    find lo hi (cut lo hi below above x es) y = (find lo hi es y).map fun e =>
      if lo e < x ∧ x < hi e then if y < x then below e x else above e x else e := by
  have ordered' := ordered.cut halves (x := x)
  cases found : find lo hi es y with
  | none =>
    have clear := (find_none_iff ordered).mp found
    refine (find_none_iff ordered').mpr fun e member covers => ?_
    obtain ⟨d, old, lower, upper⟩ := cut_within ordered halves member
    exact clear d old (by omega)
  | some e =>
  obtain ⟨member, low, high⟩ := (find_some_iff ordered).mp found
  rw [map_some]
  refine (find_some_iff ordered').mpr ?_
  split
  next crossed =>
    split
    next left =>
      rw [halves.belowLo, halves.belowHi]
      exact ⟨(mem_cut ordered).mpr (.inr ⟨e, member, crossed, .inl rfl⟩), low, left⟩
    next right =>
      rw [halves.aboveLo, halves.aboveHi]
      exact ⟨(mem_cut ordered).mpr (.inr ⟨e, member, crossed, .inr rfl⟩), by omega, high⟩
  next whole => exact ⟨(mem_cut ordered).mpr (.inl ⟨member, whole⟩), low, high⟩

end

theorem cut_split (below above : E → Nat → E) (found : find lo hi es x = some e)
    (strict : lo e ≠ x) :
    ∃ l r, es = l ++ e :: r ∧ cut lo hi below above x es = l ++ below e x :: above e x :: r := by
  induction es with
  | nil => cases found
  | cons d rest ih =>
  unfold find at found
  unfold cut
  split at found
  · cases found
  next reached =>
  rw [if_neg reached]
  split at found
  next inside =>
    cases found
    rw [if_pos inside, if_neg strict]
    exact ⟨[], rest, rfl, rfl⟩
  next past =>
    obtain ⟨l, r, whole, parts⟩ := ih found
    rw [if_neg past]
    exact ⟨d :: l, r, by rw [whole]; rfl, by rw [parts]; rfl⟩

end Style9.Lib.Intervals
