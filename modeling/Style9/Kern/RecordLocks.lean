import Style9.Vm.Pmm

/-!
# Record locks

One list for the machine, each entry one owner's lock on an inclusive range of bytes of one file. A
request takes its range out of the owner's entries in a single pass over the list, with one spare
entry for a range that is cut in two, and then puts the new lock in. The list stands for a map from
files, owners and bytes to modes.
-/
namespace Style9.Kern.RecordLocks

open Style9.Lib List Nat Option

/-- `DARWIN_F_RDLCK` or `DARWIN_F_WRLCK`. -/
inductive LkType where
  | rdlck
  | wrlck
  deriving DecidableEq

/-- `struct darwin_lk`. The end is inclusive. -/
structure Lk where
  lkFile : Nat
  lkOwner : Nat
  lkStart : Nat
  lkEnd : Nat
  lkType : LkType
  deriving DecidableEq

/-- `struct darwin_lk_req` without its spare entries. No type is `DARWIN_F_UNLCK`. -/
structure LkReq where
  lrFile : Nat
  lrOwner : Nat
  lrStart : Nat
  lrEnd : Nat
  lrType : Option LkType
  deriving DecidableEq

structure LkTable where
  darwinLkHead : List Lk
  darwinLkCount : UInt32
  deriving DecidableEq

def darwinLkMax : Nat := 256

def darwinLkEof : Nat := 2 ^ 64 - 1

def darwinLkOverlaps (lk : Lk) (r : LkReq) : Bool :=
  lk.lkFile == r.lrFile && decide (lk.lkStart ≤ r.lrEnd) && decide (r.lrStart ≤ lk.lkEnd)

variable (r : LkReq)

def darwinLkConflict (locks : List Lk) : Option Lk :=
  locks.find? fun lk => lk.lkOwner != r.lrOwner && darwinLkOverlaps lk r &&
    (lk.lkType == .wrlck || r.lrType == some .wrlck)

/-- What the pass leaves of one entry. -/
def remains (lk : Lk) : List Lk :=
  if lk.lkOwner ≠ r.lrOwner ∨ darwinLkOverlaps lk r = false then [lk]
  else if r.lrStart ≤ lk.lkStart ∧ lk.lkEnd ≤ r.lrEnd then []
  else if lk.lkStart < r.lrStart ∧ r.lrEnd < lk.lkEnd then
    [{ lk with lkEnd := r.lrStart - 1 }, { lk with lkStart := (r.lrEnd + 1) % 2 ^ 64 }]
  else if lk.lkStart < r.lrStart then [{ lk with lkEnd := r.lrStart - 1 }]
  else [{ lk with lkStart := (r.lrEnd + 1) % 2 ^ 64 }]

/-- The pass of `darwin_lk_apply` over the list. A range cut in two takes the spare entry, and
`none` is the assertion that it is still there. -/
def darwinLkPass (r : LkReq) (spare : Bool) (count : UInt32) : List Lk → Option (List Lk × UInt32)
  | [] => some ([], count)
  | lk :: rest =>
    match remains r lk with
    | [] => darwinLkPass r spare (count - 1) rest
    | [kept] => (darwinLkPass r spare count rest).map fun o => (kept :: o.1, o.2)
    | pieces =>
      if spare then (darwinLkPass r false (count + 1) rest).map fun o => (pieces ++ o.1, o.2)
        else none

/-- The table after the request, and whether any entry of the owner changed. -/
def darwinLkApply (t : LkTable) : Option (LkTable × Bool) :=
  (darwinLkPass r true t.darwinLkCount t.darwinLkHead).map fun o =>
    (match r.lrType with
      | none => ⟨o.1, o.2⟩
      | some type => ⟨⟨r.lrFile, r.lrOwner, r.lrStart, r.lrEnd, type⟩ :: o.1, o.2 + 1⟩,
      t.darwinLkHead.any fun lk => lk.lkOwner == r.lrOwner && darwinLkOverlaps lk r)

inductive Answer where
  | granted (changed : Bool)
  | blocked
  | enolck
  deriving DecidableEq

def darwinLkTry (t : LkTable) : Option (Answer × LkTable) :=
  if r.lrType.isSome && (darwinLkConflict r t.darwinLkHead).isSome then some (.blocked, t)
  else if r.lrType.isSome && decide (UInt32.ofNat darwinLkMax < t.darwinLkCount + 2)
    then some (.enolck, t)
  else (darwinLkApply r t).map fun o => (.granted o.2, o.1)

def lkSize : Nat := 48

/-- `F_SETLK`, or one attempt of `F_SETLKW`. `kmalloc` has no entry to give for the two spare ones
once the entries fill the memory there is, and may have none before. -/
def darwinFcntlLock (kmalloc : Bool) (t : LkTable) : Option (Answer × LkTable) :=
  if kmalloc ∧ (t.darwinLkHead.length + 2) * lkSize ≤ Vm.pmmHardCapBytes then darwinLkTry r t
    else some (.enolck, t)

/-- Drop what `owner` holds on `file`, or everywhere if `file` is 0. -/
def darwinLkDrop (owner file : Nat) (t : LkTable) : LkTable :=
  let goes (lk : Lk) : Bool := lk.lkOwner == owner && (file == 0 || lk.lkFile == file)
  ⟨t.darwinLkHead.filter (!goes ·), t.darwinLkCount - UInt32.ofNat (t.darwinLkHead.countP goes)⟩

/-! ### Runs -/

/-- A request, or a close or an exit. -/
inductive Call where
  | lock (r : LkReq) (kmalloc : Bool)
  | drop (owner file : Nat)
  deriving DecidableEq

def LkReq.Ranged : Prop := r.lrStart ≤ r.lrEnd ∧ r.lrEnd < 2 ^ 64

instance (r : LkReq) : Decidable r.Ranged := inferInstanceAs (Decidable (_ ∧ _))

def next (t : LkTable) : Call → Option LkTable
  | .lock r kmalloc => if r.Ranged then (darwinFcntlLock r kmalloc t).map Prod.snd else none
  | .drop owner file => some (darwinLkDrop owner file t)

def noLocks : LkTable := ⟨[], 0⟩

/-! ### One entry -/

variable {r : LkReq} {lk piece : Lk} {locks : List Lk} {t t' : LkTable} {f o b : Nat} {m : LkType}

/-- The request names this byte. -/
def LkReq.At (r : LkReq) (f o b : Nat) : Prop :=
  (f = r.lrFile ∧ o = r.lrOwner) ∧ r.lrStart ≤ b ∧ b ≤ r.lrEnd

def Lk.Holds (lk : Lk) (f o b : Nat) : Prop :=
  (lk.lkFile = f ∧ lk.lkOwner = o) ∧ lk.lkStart ≤ b ∧ b ≤ lk.lkEnd

instance : Decidable (lk.Holds f o b) := inferInstanceAs (Decidable (_ ∧ _))

instance : Decidable (r.At f o b) := inferInstanceAs (Decidable (_ ∧ _))

/-- The entry sticks out of the range of its owner's request at both ends. -/
def Splits (r : LkReq) (lk : Lk) : Prop :=
  (lk.lkFile = r.lrFile ∧ lk.lkOwner = r.lrOwner) ∧ lk.lkStart < r.lrStart ∧ r.lrEnd < lk.lkEnd

instance : Decidable (Splits r lk) := inferInstanceAs (Decidable (_ ∧ _))

def Lk.Sized (lk : Lk) : Prop := lk.lkStart ≤ lk.lkEnd ∧ lk.lkEnd < 2 ^ 64

theorem overlaps_iff : darwinLkOverlaps lk r = true ↔
    lk.lkFile = r.lrFile ∧ lk.lkStart ≤ r.lrEnd ∧ r.lrStart ≤ lk.lkEnd := by
  simp [darwinLkOverlaps, and_assoc]

/-- An entry of the owner that meets the range keeps what sticks out before it and after it. -/
theorem remains_own (own : lk.lkOwner = r.lrOwner) (meets : darwinLkOverlaps lk r = true) :
    remains r lk =
    (if lk.lkStart < r.lrStart then [{ lk with lkEnd := r.lrStart - 1 }] else []) ++
      if r.lrEnd < lk.lkEnd then [{ lk with lkStart := (r.lrEnd + 1) % 2 ^ 64 }] else [] := by
  unfold remains
  rw [if_neg (by simp [own, meets])]
  by_cases low : lk.lkStart < r.lrStart <;> by_cases high : r.lrEnd < lk.lkEnd
  · simp [low, high, Nat.not_le_of_lt low]
  · simp [low, high, Nat.not_le_of_lt low]
  · simp [low, high, Nat.not_le_of_lt high]
  · simp [low, high, Nat.le_of_not_lt low, Nat.le_of_not_lt high]

theorem remains_other (other : lk.lkOwner ≠ r.lrOwner ∨ darwinLkOverlaps lk r = false) :
    remains r lk = [lk] := if_pos other

/-- A piece is part of the entry and clear of the range of its owner's request. -/
structure Piece (r : LkReq) (lk piece : Lk) : Prop where
  same : piece.lkFile = lk.lkFile ∧ piece.lkOwner = lk.lkOwner ∧ piece.lkType = lk.lkType
  within : lk.lkStart ≤ piece.lkStart ∧ piece.lkEnd ≤ lk.lkEnd
  last : piece.lkEnd = lk.lkEnd ∨ piece.lkEnd < r.lrStart
  sized : piece.Sized
  clear : lk.lkFile = r.lrFile → lk.lkOwner = r.lrOwner → piece.lkEnd < r.lrStart ∨
    r.lrEnd < piece.lkStart
  whole : lk.lkOwner ≠ r.lrOwner → piece = lk

section
variable (sized : lk.Sized) (ranged : r.Ranged)
include sized ranged

theorem piece_of_mem (member : piece ∈ remains r lk) : Piece r lk piece := by
  unfold Lk.Sized LkReq.Ranged at *
  by_cases other : lk.lkOwner ≠ r.lrOwner ∨ darwinLkOverlaps lk r = false
  · rw [remains_other other] at member
    cases mem_singleton.mp member
    refine ⟨⟨rfl, rfl, rfl⟩, ⟨le_rfl, le_rfl⟩, .inl rfl, sized, fun file owner => ?_, fun _ => rfl⟩
    have apart := other.resolve_left fun different => different owner
    rw [← Bool.not_eq_true, overlaps_iff] at apart
    omega
  simp only [not_or, ne_eq, not_not, Bool.not_eq_false] at other
  obtain ⟨own, meets⟩ := other
  rw [remains_own own meets, mem_append, mem_ite_nil_right, mem_ite_nil_right, mem_singleton,
    mem_singleton] at member
  rw [overlaps_iff] at meets
  rcases member with ⟨low, rfl⟩ | ⟨high, rfl⟩
  · refine ⟨⟨rfl, rfl, rfl⟩, ?_, .inr ?_, ?_, ?_, fun other => absurd own other⟩ <;>
      simp only [Lk.Sized] <;> omega
  · refine ⟨⟨rfl, rfl, rfl⟩, ?_, .inl rfl, ?_, ?_, fun other => absurd own other⟩ <;>
      simp only [Lk.Sized] <;> omega

/-- Every byte of the entry outside the range is in a piece. -/
theorem exists_piece (holds : lk.Holds f o b) (outside : ¬r.At f o b) :
    ∃ piece ∈ remains r lk, piece.Holds f o b := by
  unfold Lk.Sized LkReq.Ranged LkReq.At at *
  obtain ⟨⟨rfl, rfl⟩, low, high⟩ := holds
  by_cases other : lk.lkOwner ≠ r.lrOwner ∨ darwinLkOverlaps lk r = false
  · rw [remains_other other]
    exact ⟨lk, mem_singleton_self lk, ⟨rfl, rfl⟩, low, high⟩
  simp only [not_or, ne_eq, not_not, Bool.not_eq_false] at other
  obtain ⟨own, meets⟩ := other
  rw [remains_own own meets]
  rw [overlaps_iff] at meets
  have apart : b < r.lrStart ∨ r.lrEnd < b := by omega
  rcases apart with before | after
  · exact ⟨_, mem_append_left _ (mem_ite_nil_right.mpr ⟨by omega, mem_singleton_self _⟩),
      ⟨rfl, rfl⟩, low, by dsimp only; omega⟩
  · exact ⟨_, mem_append_right _ (mem_ite_nil_right.mpr ⟨by omega, mem_singleton_self _⟩),
      ⟨rfl, rfl⟩, by dsimp only; omega, high⟩

end

theorem splits_of_two {a c : Lk} {more : List Lk} (two : remains r lk = a :: c :: more) :
    Splits r lk ∧ more = [] ∧ a.lkEnd = r.lrStart - 1 ∧ c.lkStart = (r.lrEnd + 1) % 2 ^ 64 := by
  by_cases other : lk.lkOwner ≠ r.lrOwner ∨ darwinLkOverlaps lk r = false
  · rw [remains_other other] at two
    cases two
  simp only [not_or, ne_eq, not_not, Bool.not_eq_false] at other
  obtain ⟨own, meets⟩ := other
  rw [remains_own own meets] at two
  split at two <;> split at two <;> cases two
  exact ⟨⟨⟨(overlaps_iff.mp meets).1, own⟩, by assumption, by assumption⟩, rfl, rfl, rfl⟩

/-! ### The list -/

/-- Two entries on one file that are one owner's, or of which one is a write lock, do not meet. -/
def Compatible (a c : Lk) : Prop :=
  a.lkFile = c.lkFile → a.lkOwner = c.lkOwner ∨ a.lkType = .wrlck ∨ c.lkType = .wrlck →
    a.lkEnd < c.lkStart ∨ c.lkEnd < a.lkStart

instance : Std.Symm Compatible :=
  ⟨fun _ _ ok file kind => (ok file.symm (kind.imp Eq.symm Or.symm)).symm⟩

structure LocksOk (locks : List Lk) : Prop where
  sized : ∀ lk ∈ locks, lk.Sized
  apart : locks.Pairwise Compatible

/-- Only one entry can stick out of the range at both ends, so the spare one is enough. -/
theorem pass_eq (spare : Bool)
    (fits : spare = true ∧ locks.Pairwise Compatible ∨ ∀ lk ∈ locks, ¬Splits r lk)
    (ranged : r.Ranged) (count : UInt32) :
    ∃ count', darwinLkPass r spare count locks = some (locks.flatMap (remains r), count') ∧
      count' + UInt32.ofNat locks.length = count + UInt32.ofNat (locks.flatMap (remains r)).length ∧
      (locks.flatMap (remains r)).length ≤ locks.length + spare.toNat := by
  induction locks generalizing spare count with
  | nil => exact ⟨count, rfl, rfl, zero_le _⟩
  | cons lk rest ih =>
  have later : spare = true ∧ rest.Pairwise Compatible ∨ ∀ lk ∈ rest, ¬Splits r lk :=
    fits.imp (fun h => ⟨h.1, h.2.of_cons⟩) fun h lk member => h lk (mem_cons_of_mem _ member)
  rw [flatMap_cons]
  unfold darwinLkPass
  cases shape : remains r lk with
  | nil =>
    obtain ⟨count', run, total, short⟩ := ih spare later (count - 1)
    refine ⟨count', run, ?_, ?_⟩
    · simp only [length_cons, UInt32.ofNat_add, nil_append] at total ⊢
      grind
    · simp only [length_cons, nil_append]
      omega
  | cons a more =>
  cases more with
  | nil =>
    obtain ⟨count', run, total, short⟩ := ih spare later count
    refine ⟨count', by simp only [run]; rfl, ?_, ?_⟩
    · simp only [length_cons, UInt32.ofNat_add, cons_append, nil_append] at total ⊢
      grind
    · simp only [length_cons, cons_append, nil_append]
      omega
  | cons c more =>
  obtain ⟨⟨own, low, high⟩, rfl, -⟩ := splits_of_two shape
  obtain ⟨rfl, apart⟩ := fits.resolve_right fun none => none lk mem_cons_self ⟨own, low, high⟩
  -- another would lie over the range too
  have alone : ∀ other ∈ rest, ¬Splits r other := by
    rintro other member ⟨own', low', high'⟩
    have := (pairwise_cons.mp apart).1 other member (own.1.trans own'.1.symm)
      (.inl (own.2.trans own'.2.symm))
    unfold LkReq.Ranged at ranged
    omega
  obtain ⟨count', run, total, short⟩ := ih false (.inr alone) (count + 1)
  refine ⟨count', by simp only [run]; rfl, ?_, ?_⟩
  · simp only [length_cons, UInt32.ofNat_add, cons_append, nil_append] at total ⊢
    grind
  · simp only [length_cons, cons_append, nil_append, Bool.toNat_false, Bool.toNat_true] at short ⊢
    omega

theorem LocksOk.pieces (ok : LocksOk locks) (ranged : r.Ranged) :
    LocksOk (locks.flatMap (remains r)) := by
  refine ⟨fun piece member => ?_, pairwise_flatMap.mpr ⟨fun lk member => ?_, ?_⟩⟩
  · obtain ⟨lk, inside, member⟩ := mem_flatMap.mp member
    exact (piece_of_mem (ok.sized lk inside) ranged member).sized
  · cases shape : remains r lk with
    | nil => exact .nil
    | cons a more =>
      cases more with
      | nil => exact pairwise_singleton _ _
      | cons c more =>
      obtain ⟨cuts, rfl, first, second⟩ := splits_of_two shape
      have := (ok.sized lk member).2
      have := ranged.1
      have := cuts.2
      rw [pairwise_pair]
      exact fun _ _ => .inl (by omega)
  refine ok.apart.imp_of_mem fun {a c} inA inC apart x inX y inY file kind => ?_
  have ofA := piece_of_mem (ok.sized a inA) ranged inX
  have ofC := piece_of_mem (ok.sized c inC) ranged inY
  rw [ofA.same.1, ofC.same.1] at file
  rw [ofA.same.2.1, ofC.same.2.1, ofA.same.2.2, ofC.same.2.2] at kind
  have := apart file kind
  have := ofA.within
  have := ofC.within
  omega

/-! ### The map -/

/-- The mode in which an owner holds a byte of a file. -/
abbrev LkMap : Type := Nat → Nat → Nat → Option LkType

def LkTable.map (t : LkTable) : LkMap :=
  fun f o b => (t.darwinLkHead.find? (·.Holds f o b)).map Lk.lkType

/-- Another owner holds a byte of the range in a mode the request cannot coexist with. -/
def LkMap.Conflicts (map : LkMap) (r : LkReq) : Prop :=
  ∃ o b m, o ≠ r.lrOwner ∧ (r.lrStart ≤ b ∧ b ≤ r.lrEnd) ∧ map r.lrFile o b = some m ∧
    (m = .wrlck ∨ r.lrType = some .wrlck)

theorem LocksOk.eq_of_holds (ok : LocksOk locks) {a c : Lk} (inA : a ∈ locks) (inC : c ∈ locks)
    (holdsA : a.Holds f o b)
    (holdsC : c.Holds f o b) : a = c := by
  by_contra other
  have apart := ok.apart.forall inA inC other
    (holdsA.1.1.trans holdsC.1.1.symm) (.inl (holdsA.1.2.trans holdsC.1.2.symm))
  have := holdsA.2
  have := holdsC.2
  omega

theorem LocksOk.map_iff (ok : LocksOk t.darwinLkHead) :
    t.map f o b = some m ↔ ∃ lk ∈ t.darwinLkHead, lk.Holds f o b ∧ lk.lkType = m := by
  unfold LkTable.map
  rw [map_eq_some_iff]
  constructor
  · rintro ⟨lk, found, type⟩
    exact ⟨lk, mem_of_find?_eq_some found, by simpa using find?_some found, type⟩
  rintro ⟨lk, member, holds, type⟩
  obtain ⟨first, found⟩ : ∃ first, t.darwinLkHead.find? (·.Holds f o b) = some first :=
    isSome_iff_exists.mp (find?_isSome.mpr ⟨lk, member, by simpa using holds⟩)
  cases ok.eq_of_holds (mem_of_find?_eq_some found) member (by simpa using find?_some found) holds
  exact ⟨lk, found, type⟩

section

variable (ok : LocksOk t.darwinLkHead) (ranged : r.Ranged)
include ok ranged

theorem LocksOk.conflict_iff : (darwinLkConflict r t.darwinLkHead).isSome ↔ t.map.Conflicts r := by
  unfold darwinLkConflict
  simp only [find?_isSome, Bool.and_eq_true, bne_iff_ne, overlaps_iff, Bool.or_eq_true, beq_iff_eq]
  constructor
  · rintro ⟨lk, member, ⟨other, file, low, high⟩, kind⟩
    have := ok.sized lk member
    unfold Lk.Sized at this
    unfold LkReq.Ranged at ranged
    -- the greater of the two starts is in both
    refine ⟨lk.lkOwner, max lk.lkStart r.lrStart, lk.lkType, other, by omega,
      ok.map_iff.mpr ?_, kind⟩
    exact ⟨lk, member, ⟨⟨file, rfl⟩, by omega, by omega⟩, rfl⟩
  · rintro ⟨o, b, m, other, inside, held, kind⟩
    obtain ⟨lk, member, ⟨⟨file, rfl⟩, covers⟩, rfl⟩ := ok.map_iff.mp held
    exact ⟨lk, member, ⟨other, file, by omega, by omega⟩, kind⟩

theorem LocksOk.cons (free : ¬(darwinLkConflict r t.darwinLkHead).isSome)
    (type : r.lrType = some m) :
    LocksOk (⟨r.lrFile, r.lrOwner, r.lrStart, r.lrEnd, m⟩ ::
      t.darwinLkHead.flatMap (remains r)) := by
  have pieces := ok.pieces ranged
  refine ⟨fun lk member => ?_, pairwise_cons.mpr ⟨fun piece member file kind => ?_, pieces.apart⟩⟩
  · rcases mem_cons.mp member with rfl | later
    · exact ranged
    · exact pieces.sized lk later
  obtain ⟨lk, inside, member⟩ := mem_flatMap.mp member
  have part := piece_of_mem (ok.sized lk inside) ranged member
  by_cases own : lk.lkOwner = r.lrOwner
  · exact (part.clear (part.same.1.symm.trans file.symm) own).symm
  -- the entry is as it was, and did not conflict
  cases part.whole own
  have other := kind.resolve_left fun same => own same.symm
  by_contra meets
  refine free (find?_isSome.mpr ⟨piece, inside, ?_⟩)
  simp only [Bool.and_eq_true, bne_iff_ne, overlaps_iff, Bool.or_eq_true, beq_iff_eq, type,
    some.injEq]
  dsimp only at file meets other
  exact ⟨⟨own, file.symm, by omega⟩, other.symm⟩

/-- A granted request sets its range of its owner and nothing else. -/
theorem apply_spec (free : r.lrType.isSome → ¬(darwinLkConflict r t.darwinLkHead).isSome) :
    ∃ t' changed, darwinLkApply r t = some (t', changed) ∧ LocksOk t'.darwinLkHead ∧
      t'.darwinLkCount + UInt32.ofNat t.darwinLkHead.length =
        t.darwinLkCount + UInt32.ofNat t'.darwinLkHead.length ∧
      t'.darwinLkHead.length = (t.darwinLkHead.flatMap (remains r)).length + r.lrType.isSome.toNat ∧
      (∀ new ∈ t'.darwinLkHead, (∃ lk ∈ t.darwinLkHead, new ∈ remains r lk) ∨
        new.lkStart = r.lrStart ∧ new.lkEnd = r.lrEnd) ∧
      t'.map = fun f o b => if r.At f o b then r.lrType else t.map f o b := by
  obtain ⟨count', run, total, -⟩ := pass_eq true (.inl ⟨rfl, ok.apart⟩) ranged t.darwinLkCount
  have pieces := ok.pieces ranged
  have kept : ∀ f o b m, (∃ lk ∈ t.darwinLkHead.flatMap (remains r), lk.Holds f o b ∧
    lk.lkType = m) ↔
      ¬r.At f o b ∧ t.map f o b = some m := by
    intro f o b m
    rw [ok.map_iff]
    constructor
    · rintro ⟨piece, member, ⟨⟨rfl, rfl⟩, covers⟩, rfl⟩
      obtain ⟨lk, inside, member⟩ := mem_flatMap.mp member
      have part := piece_of_mem (ok.sized lk inside) ranged member
      have within := part.within
      refine ⟨?_, lk, inside, ⟨⟨part.same.1.symm, part.same.2.1.symm⟩, by omega⟩,
        part.same.2.2.symm⟩
      rintro ⟨⟨file, owner⟩, named⟩
      have := part.clear (part.same.1.symm.trans file) (part.same.2.1.symm.trans owner)
      omega
    · rintro ⟨outside, lk, inside, holds, rfl⟩
      obtain ⟨piece, member, covers⟩ := exists_piece (ok.sized lk inside) ranged holds outside
      exact ⟨piece, mem_flatMap.mpr ⟨lk, inside, member⟩, covers,
        (piece_of_mem (ok.sized lk inside) ranged member).same.2.2⟩
  unfold darwinLkApply
  rw [run, map_some]
  cases type : r.lrType with
  | none =>
    refine ⟨_, _, rfl, pieces, total, rfl, fun new member => .inl (mem_flatMap.mp member), ?_⟩
    funext f o b
    refine ext fun m => (LocksOk.map_iff pieces).trans ((kept f o b m).trans ?_)
    split
    next named => simp [named]
    next outside => simp [outside]
  | some m =>
  have whole := ok.cons ranged (free (by rw [type]; rfl)) type
  refine ⟨_, _, rfl, whole, ?_, rfl, fun new member => ?_, ?_⟩
  · simp only [length_cons, UInt32.ofNat_add]
    grind
  · rcases mem_cons.mp member with rfl | later
    · exact .inr ⟨rfl, rfl⟩
    · exact .inl (mem_flatMap.mp later)
  funext f o b
  refine ext fun m' => (LocksOk.map_iff whole).trans ?_
  rw [exists_mem_cons_iff, kept]
  unfold Lk.Holds LkReq.At
  simp only [eq_comm (a := f), eq_comm (a := o)]
  split
  next named => simp [named]
  next outside => simp [outside]

end

/-! ### Whole runs -/

/-- What every table has. -/
structure Sound (t : LkTable) : Prop where
  ok : LocksOk t.darwinLkHead
  count : t.darwinLkCount = UInt32.ofNat t.darwinLkHead.length
  small : t.darwinLkHead.length * lkSize ≤ Vm.pmmHardCapBytes

theorem Sound.count_toNat (sound : Sound t) : t.darwinLkCount.toNat = t.darwinLkHead.length := by
  have small := sound.small
  unfold lkSize Vm.pmmHardCapBytes at small
  rw [sound.count, UInt32.toNat_ofNat']
  omega

theorem drop_map (ok : LocksOk t.darwinLkHead) (owner file : Nat) :
    (darwinLkDrop owner file t).map =
    fun f o b => if o = owner ∧ (file = 0 ∨ f = file) then none else t.map f o b := by
  have fewer : LocksOk (darwinLkDrop owner file t).darwinLkHead :=
    ⟨fun lk member => ok.sized lk (mem_filter.mp member).1, ok.apart.filter _⟩
  funext f o b
  refine ext fun m => fewer.map_iff.trans ?_
  simp only [darwinLkDrop, mem_filter, Bool.not_eq_true', Bool.and_eq_false_iff,
    beq_eq_false_iff_ne, Bool.or_eq_false_iff]
  split
  next dropped =>
    simp only [reduceCtorEq, iff_false]
    rintro ⟨lk, ⟨-, stays⟩, ⟨⟨rfl, rfl⟩, -⟩, -⟩
    rcases stays with other | ⟨zero, other⟩
    · exact other dropped.1
    · exact dropped.2.elim zero other
  next kept =>
  rw [ok.map_iff]
  constructor
  · rintro ⟨lk, ⟨inside, -⟩, holds, type⟩
    exact ⟨lk, inside, holds, type⟩
  rintro ⟨lk, inside, ⟨⟨rfl, rfl⟩, covers⟩, type⟩
  refine ⟨lk, ⟨inside, ?_⟩, ⟨⟨rfl, rfl⟩, covers⟩, type⟩
  by_contra both
  simp only [not_or, not_and_or, not_not] at both kept
  exact kept.elim (· both.1) fun h => both.2.elim h.1 h.2

/-- What an answer to a request means. -/
def Answered (t : LkTable) (r : LkReq) (kmalloc : Bool) : Answer × LkTable → Prop
  | (.granted _, t') => t'.map = fun f o b => if r.At f o b then r.lrType else t.map f o b
  | (.blocked, t') => t' = t ∧ r.lrType ≠ none ∧ t.map.Conflicts r
  | (.enolck, t') =>
    t' = t ∧ (kmalloc = false ∨ Vm.pmmHardCapBytes < (t.darwinLkHead.length + 2) * lkSize ∨
      darwinLkMax < t.darwinLkHead.length + 2)

theorem Sound.full_iff (sound : Sound t) :
    UInt32.ofNat darwinLkMax < t.darwinLkCount + 2 ↔ darwinLkMax < t.darwinLkHead.length + 2 := by
  have small := sound.small
  unfold lkSize Vm.pmmHardCapBytes at small
  rw [UInt32.lt_iff_toNat_lt, UInt32.toNat_add, sound.count_toNat]
  change 256 < (_ + 2) % 2 ^ 32 ↔ 256 < _
  omega

/-- A request is answered, never stopped by the assertion. The list grows by an unlock only when
that cuts an entry in two. -/
theorem Sound.lock (sound : Sound t) (ranged : r.Ranged) (kmalloc : Bool) :
    ∃ out, darwinFcntlLock r kmalloc t = some out ∧ Sound out.2 ∧ Answered t r kmalloc out ∧
      (∀ new ∈ out.2.darwinLkHead, new ∈ t.darwinLkHead ∨
        (∃ lk ∈ t.darwinLkHead, new ∈ remains r lk) ∨
        new.lkStart = r.lrStart ∧ new.lkEnd = r.lrEnd) ∧
      (out.2.darwinLkHead.length ≤ t.darwinLkHead.length ∨ out.2.darwinLkHead.length ≤ darwinLkMax ∨
        r.lrType = none ∧ out.2.darwinLkHead.length ≤ t.darwinLkHead.length + 1 ∧
          ∃ lk ∈ t.darwinLkHead, Splits r lk) := by
  have kept : ∀ new ∈ t.darwinLkHead, new ∈ t.darwinLkHead ∨
    (∃ lk ∈ t.darwinLkHead, new ∈ remains r lk) ∨
      new.lkStart = r.lrStart ∧ new.lkEnd = r.lrEnd := fun _ => .inl
  unfold darwinFcntlLock darwinLkTry
  split
  next fits =>
    split
    next blocked =>
      simp only [Bool.and_eq_true] at blocked
      refine ⟨_, rfl, sound, ⟨rfl, ?_, (sound.ok.conflict_iff ranged).mp blocked.2⟩, kept,
        .inl le_rfl⟩
      exact isSome_iff_ne_none.mp blocked.1
    next free =>
    split
    next full =>
      simp only [Bool.and_eq_true, decide_eq_true_eq, sound.full_iff] at full
      exact ⟨_, rfl, sound, ⟨rfl, .inr (.inr full.2)⟩, kept, .inl le_rfl⟩
    next room =>
    simp only [Bool.and_eq_true, decide_eq_true_eq, sound.full_iff, not_and] at free room
    obtain ⟨t', changed, run, ok, total, length, entries, map⟩ := apply_spec sound.ok ranged free
    have longer : (t.darwinLkHead.flatMap (remains r)).length ≤ t.darwinLkHead.length + 1 := by
      obtain ⟨-, -, -, short⟩ := pass_eq true (.inl ⟨rfl, sound.ok.apart⟩) ranged 0
      exact short
    rw [run]
    refine ⟨_, rfl, ⟨ok, ?_, ?_⟩, map, fun new member => .inr (entries new member), ?_⟩
    · rw [sound.count] at total
      dsimp only
      grind
    · have bound := Bool.toNat_le r.lrType.isSome
      have fits := fits.2
      unfold lkSize at fits ⊢
      dsimp only
      omega
    cases type : r.lrType with
    | some m =>
      rw [type] at room length
      have room := room rfl
      simp only [isSome_some, Bool.toNat_true] at length
      exact .inr (.inl (by dsimp only; omega))
    | none =>
    simp only [type, isSome_none, Bool.toNat_false, add_zero] at length
    by_cases cuts : ∃ lk ∈ t.darwinLkHead, Splits r lk
    · exact .inr (.inr ⟨rfl, length.trans_le longer, cuts⟩)
    · obtain ⟨-, -, -, short⟩ :=
        pass_eq false (.inr fun lk member split => cuts ⟨lk, member, split⟩) ranged 0
      exact .inl (length.trans_le short)
  next refused =>
  refine ⟨_, rfl, sound, ⟨rfl, ?_⟩, kept, .inl le_rfl⟩
  cases kmalloc with
  | false => exact .inl rfl
  | true => exact .inr (.inl (by simpa using refused))

theorem Sound.drop (sound : Sound t) (owner file : Nat) : Sound (darwinLkDrop owner file t) ∧
    (darwinLkDrop owner file t).darwinLkHead.length ≤ t.darwinLkHead.length := by
  have fewer : (darwinLkDrop owner file t).darwinLkHead.length ≤ t.darwinLkHead.length :=
    length_filter_le _ _
  refine ⟨⟨⟨fun lk member => sound.ok.sized lk (mem_filter.mp member).1, sound.ok.apart.filter _⟩,
    ?_, ?_⟩, fewer⟩
  · have total : ∀ goes : Lk → Bool,
        t.darwinLkHead.length =
        t.darwinLkHead.countP goes + (t.darwinLkHead.filter (!goes ·)).length := by
      intro goes
      rw [← countP_eq_length_filter, length_eq_countP_add_countP goes]
      simp
    have total := congrArg UInt32.ofNat (total fun lk => lk.lkOwner == owner &&
      (file == 0 || lk.lkFile == file))
    rw [UInt32.ofNat_add, ← sound.count] at total
    dsimp only [darwinLkDrop]
    grind
  · exact (mul_le_mul_right _ fewer).trans sound.small

theorem Sound.next {c : Call} (sound : Sound t) (taken : next t c = some t') : Sound t' := by
  cases c with
  | lock r kmalloc =>
    simp only [RecordLocks.next] at taken
    split at taken
    next ranged =>
      obtain ⟨out, run, later, -⟩ := sound.lock ranged kmalloc
      rw [run] at taken
      cases taken
      exact later
    · cases taken
  | drop owner file =>
    cases taken
    exact (sound.drop owner file).1

theorem sound_noLocks : Sound noLocks :=
  ⟨⟨fun _ member => absurd member not_mem_nil, Pairwise.nil⟩, rfl, zero_le _⟩

theorem sound_of_runs {meets : LkTable → Call → LkTable → Prop} (run : Runs next meets noLocks t) :
    Sound t :=
  run.invariant sound_noLocks fun _ _ _ sound taken _ => sound.next taken

/-- After any requests, closes and exits the list is a map: entries of one owner do not overlap, a
written byte has one owner, a granted request sets its range, a refused one changes nothing, the
assertion holds, and what `F_GETLK` looks for is there exactly when the map has it. -/
theorem record_locks_are_a_map (run : Runs next (fun _ _ _ => True) noLocks t) :
    t.darwinLkCount.toNat = t.darwinLkHead.length ∧
    (t.darwinLkHead.Pairwise fun a c => a.lkFile = c.lkFile → a.lkOwner = c.lkOwner →
      a.lkEnd < c.lkStart ∨ c.lkEnd < a.lkStart) ∧
    (∀ f o o' b, o ≠ o' → t.map f o b = some .wrlck → t.map f o' b = none) ∧
    (∀ r kmalloc, r.Ranged → ∃ out, darwinFcntlLock r kmalloc t = some out ∧
      Answered t r kmalloc out) ∧
    (∀ r, r.Ranged → ((darwinLkConflict r t.darwinLkHead).isSome ↔ t.map.Conflicts r)) ∧
    ∀ owner file, (darwinLkDrop owner file t).map =
      fun f o b => if o = owner ∧ (file = 0 ∨ f = file) then none else t.map f o b := by
  have sound := sound_of_runs run
  refine ⟨sound.count_toNat, sound.ok.apart.imp fun apart file owner => apart file (.inl owner),
    ?_, ?_,
    fun r => sound.ok.conflict_iff, drop_map sound.ok⟩
  · intro f o o' b other written
    by_contra held
    obtain ⟨m, held⟩ := ne_none_iff_exists'.mp held
    obtain ⟨a, inA, holdsA, type⟩ := sound.ok.map_iff.mp written
    obtain ⟨c, inC, holdsC, -⟩ := sound.ok.map_iff.mp held
    have apart :=
      sound.ok.apart.forall inA inC (fun same => other (by rw [← holdsA.1.2, same, holdsC.1.2]))
      (holdsA.1.1.trans holdsC.1.1.symm) (.inr (.inl type))
    have := holdsA.2
    have := holdsC.2
    omega
  · intro r kmalloc ranged
    obtain ⟨out, run, -, answered, -⟩ := sound.lock ranged kmalloc
    exact ⟨out, run, answered⟩

/-- A write lock on everything, and a read lock of the same owner in its middle. -/
def nested : List Call :=
    [.lock ⟨7, 1, 0, darwinLkEof, some .wrlck⟩ true, .lock ⟨7, 1, 10, 19, some .rdlck⟩ true]

theorem record_locks_are_a_map_nested :
    ∃ t, follow next (fun _ _ _ => true) noLocks nested = some t ∧
    t.darwinLkHead.length = 3 ∧ t.darwinLkCount.toNat = 3 := by
  obtain ⟨t, reached, length⟩ := (any_eq_true _ _).mp
    (show (follow next (fun _ _ _ => true) noLocks nested).any (·.darwinLkHead.length == 3) =
      true by decide +kernel)
  have known := record_locks_are_a_map (Runs.of_follow .start (fun _ _ _ _ => trivial) reached)
  exact ⟨t, reached, by simpa using length, known.1.trans (by simpa using length)⟩

/-! ### The bound -/

/-- An unlock cuts an entry in two only while the table has room. -/
def cutsWithRoom (t : LkTable) (c : Call) (_ : LkTable) : Bool :=
  match c with
  | .lock r _ => r.lrType.isSome || t.darwinLkHead.all (fun lk => !decide (Splits r lk)) ||
    decide (t.darwinLkHead.length < darwinLkMax)
  | .drop _ _ => true

theorem lock_table_bounded (run : Runs next (cutsWithRoom · · · = true) noLocks t) :
    t.darwinLkHead.length ≤ darwinLkMax := by
  refine (run.invariant (P := fun t => Sound t ∧ t.darwinLkHead.length ≤ darwinLkMax)
    ⟨sound_noLocks, zero_le _⟩ ?_).2
  rintro s c s' ⟨sound, short⟩ taken meets
  refine ⟨sound.next taken, ?_⟩
  cases c with
  | drop owner file =>
    cases taken
    exact (sound.drop owner file).2.trans short
  | lock r kmalloc =>
  simp only [next] at taken
  split at taken
  next ranged =>
    obtain ⟨out, ran, -, -, -, grows⟩ := sound.lock ranged kmalloc
    rw [ran] at taken
    cases taken
    rcases grows with less | bounded | ⟨unlock, more, lk, member, cuts⟩
    · exact less.trans short
    · exact bounded
    have room : s.darwinLkHead.length < darwinLkMax := by
      simp only [cutsWithRoom, unlock, Bool.or_eq_true, isSome_none, Bool.false_eq_true, false_or,
        decide_eq_true_eq] at meets
      refine meets.resolve_left fun none => ?_
      have := all_eq_true.mp none lk member
      simp [cuts] at this
    exact more.trans room
  · cases taken

theorem lock_table_bounded_nested : ∃ t, follow next cutsWithRoom noLocks nested = some t ∧
    t.darwinLkHead.length = 3 ∧ 3 ≤ darwinLkMax := by
  obtain ⟨t, reached, length⟩ := (any_eq_true _ _).mp
    (show (follow next cutsWithRoom noLocks nested).any (·.darwinLkHead.length == 3) =
      true by decide +kernel)
  have length : t.darwinLkHead.length = 3 := by simpa using length
  exact ⟨t, reached, length,
    length ▸ lock_table_bounded (Runs.of_follow .start (fun _ _ _ => id) reached)⟩

/-- One lock, 127 read locks inside it, which leave 255 entries, and two unlocks in the middle of
what is left at its end. -/
def overfull : List Call :=
  .lock ⟨7, 1, 0, 9999, some .wrlck⟩ true ::
    ((List.range 127).map (fun k => .lock ⟨7, 1, 10 * k + 5, 10 * k + 5, some .rdlck⟩ true) ++
      [.lock ⟨7, 1, 5000, 5000, none⟩ true, .lock ⟨7, 1, 6000, 6000, none⟩ true])

theorem unlocks_overfill :
    ∃ t, Runs next (fun _ _ _ => True) noLocks t ∧ darwinLkMax < t.darwinLkHead.length :=
  Runs.exists_of_follow overfull (by decide +kernel)

end Style9.Kern.RecordLocks
