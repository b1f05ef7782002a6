import Style9.Kern.RecordLocks

/-!
# The range of a record lock

`fcntl` computes the range from a base, the cursor or the length of the file, and two signed
numbers, in 64-bit sums with a test before the first and another after the last; `F_GETLK` turns a
lock of the table back into two such numbers.
-/
namespace Style9.Kern.RecordLocks

open Style9.Lib List Option

variable {t t' : LkTable}

/-- A sum in 64 bits, signed. -/
def int64 (x : Int) : Int := (x + 2 ^ 63) % 2 ^ 64 - 2 ^ 63

def int64Max : Int := 2 ^ 63 - 1

/-- The ends of `len` bytes from `start` on; a length of 0 is however far. -/
def lkEnds (start len : Int) : Option (Nat × Nat) :=
  if start < 0 ∨ len ≠ 0 ∧ int64Max - start < len - 1 then none
  else some (start.toNat, if len = 0 then darwinLkEof else (start + len - 1).toNat)

/-- The range `darwin_fcntl_lock` computes from the base, `l_start` and `l_len`; `none` is `EINVAL`.
-/
def darwinFcntlRange (base : Nat) (lStart lLen : Int) : Option (Nat × Nat) :=
  if int64 (int64Max - int64 base) < lStart ∨ lLen = -2 ^ 63 then none
  else if lLen < 0 then lkEnds (int64 (int64 (int64 base + lStart) + lLen)) (-lLen)
  else lkEnds (int64 (int64 base + lStart)) lLen

/-- What `F_GETLK` reports of a lock: `l_start` and `l_len`. -/
def darwinFcntlGetlk (lk : Lk) : Int × Int :=
  (int64 lk.lkStart, if lk.lkEnd = darwinLkEof then 0 else int64 (lk.lkEnd - lk.lkStart + 1))

/-- The bytes a description names, from a first to a last one or however far. -/
def region (base : Nat) (lStart lLen : Int) : Int × Option Int :=
  if 0 < lLen then (base + lStart, some (base + lStart + lLen - 1))
  else if lLen < 0 then (base + lStart + lLen, some (base + lStart - 1))
  else (base + lStart, none)

def lkRegion (start last : Nat) : Int × Option Int :=
    (start, if last = darwinLkEof then none else some (last : Int))

/-- The region starts below 0, or ends or is to start beyond the last byte. -/
def Outside (bytes : Int × Option Int) : Prop := bytes.1 < 0 ∨ int64Max < bytes.2.getD bytes.1

instance (bytes : Int × Option Int) : Decidable (Outside bytes) :=
  inferInstanceAs (Decidable (_ ∨ _))

/-- The range of a request is one that `fcntl` computes. -/
def FromFcntl (_ : LkTable) (c : Call) (_ : LkTable) : Prop :=
  match c with
  | .lock r _ => ∃ base lStart lLen, (-2 ^ 63 ≤ lLen ∧ lLen ≤ int64Max) ∧
    darwinFcntlRange base lStart lLen = some (r.lrStart, r.lrEnd)
  | .drop _ _ => True

theorem lkEnds_exact (start len : Int) (bounded : 0 ≤ len ∧ start ≤ int64Max) :
    (lkEnds start len = none ↔ Outside (start, if len = 0 then none else some (start + len - 1))) ∧
      ∀ range, lkEnds start len = some range →
        lkRegion range.1 range.2 = (start, if len = 0 then none else some (start + len - 1)) := by
  unfold lkEnds Outside lkRegion darwinLkEof int64Max at *
  split
  next refused =>
    refine ⟨iff_of_true rfl ?_, by simp⟩
    split
    · exact refused.imp_right fun h => absurd ‹len = 0› h.1
    · simp only [getD_some]
      omega
  next fits =>
  refine ⟨iff_of_false (by simp) ?_, ?_⟩
  · split
    · simp only [getD_none]; omega
    · simp only [getD_some]; omega
  rintro range ⟨⟩
  refine Prod.ext (by dsimp only; omega) ?_
  by_cases zero : len = 0
  · simp [zero]
  · rw [if_neg zero, if_neg zero, if_neg (by omega)]
    exact congrArg some (by omega)

/-- `EINVAL` is exactly for a region that is outside, and any other comes out as it is. -/
def Exact (base : Nat) (lStart lLen : Int) : Prop :=
  (darwinFcntlRange base lStart lLen = none ↔ Outside (region base lStart lLen)) ∧
    ∀ range, darwinFcntlRange base lStart lLen = some range →
      lkRegion range.1 range.2 = region base lStart lLen

/-- A negative length is not counted back from just past the last byte, nor from where the sum
wraps. -/
def Countable (base : Nat) (lStart lLen : Int) : Prop :=
  lLen < 0 → base + lStart ≠ 2 ^ 63 ∧ (base + lStart = -2 ^ 63 → lLen = -2 ^ 63)

section
variable {base : Nat} {lStart lLen : Int}

/-- The room left above the base is right whatever the base. -/
theorem room_eq (word : base < 2 ^ 64) : int64 (int64Max - int64 base) = int64Max - base := by
  unfold int64 int64Max
  omega

theorem Countable.exact (word : base < 2 ^ 64) (start : -2 ^ 63 ≤ lStart)
    (len : -2 ^ 63 ≤ lLen ∧ lLen ≤ int64Max) (back : Countable base lStart lLen) :
    Exact base lStart lLen := by
  unfold Countable at back
  unfold Exact darwinFcntlRange region
  rw [room_eq word]
  split
  next beyond =>
    refine ⟨iff_of_true rfl ?_, by simp⟩
    unfold Outside int64Max at *
    split
    · simp only [getD_some]; omega
    · split
      · simp only [getD_some]; omega
      · simp only [getD_none]; omega
  next fits =>
  have sum : int64 (int64 base + lStart) = base + lStart := by unfold int64 int64Max at *; omega
  rw [sum]
  split
  next negative =>
    rw [if_neg (by omega)]
    by_cases wraps : base + lStart + lLen < -2 ^ 63
    · -- the sum comes out positive, and the length does not fit after it
      have past : int64 (base + lStart + lLen) = base + lStart + lLen + 2 ^ 64 := by
        unfold int64 int64Max at *; omega
      have refused : lkEnds (base + lStart + lLen + 2 ^ 64) (-lLen) = none := by
        unfold lkEnds int64Max
        exact if_pos (by have := back negative; omega)
      rw [past, refused]
      exact ⟨iff_of_true rfl (.inl (by dsimp only; omega)), by simp⟩
    have exact64 : int64 (base + lStart + lLen) = base + lStart + lLen := by
      unfold int64 int64Max at *; omega
    rw [exact64]
    have known := lkEnds_exact (base + lStart + lLen) (-lLen) (by unfold int64Max at *; omega)
    rw [if_neg (by omega)] at known
    have last : base + lStart + lLen + -lLen - 1 = base + lStart - 1 := by omega
    rwa [last] at known
  next forward =>
  have known := lkEnds_exact (base + lStart) lLen (by unfold int64Max at *; omega)
  by_cases zero : lLen = 0
  · subst zero
    simpa using known
  · rw [if_neg zero] at known
    rwa [if_pos (by omega)]

theorem Exact.countable (word : base < 2 ^ 64) (len : -2 ^ 63 ≤ lLen)
    (known : Exact base lStart lLen) :
    Countable base lStart lLen := by
  intro negative
  refine ⟨fun top => ?_, fun bottom => ?_⟩
  · have refused : darwinFcntlRange base lStart lLen = none :=
      if_pos (by rw [room_eq word]; unfold int64Max; omega)
    have outside := known.1.mp refused
    unfold Outside region int64Max at outside
    rw [if_neg (by omega), if_pos negative] at outside
    simp only [getD_some] at outside
    omega
  · by_contra more
    have outside : Outside (region base lStart lLen) := by
      unfold region
      rw [if_neg (by omega), if_pos negative]
      exact .inl (by dsimp only; omega)
    have refused := known.1.mpr outside
    have sum : int64 (int64 (int64 base + lStart) + lLen) = 2 ^ 63 + lLen := by unfold int64; omega
    unfold darwinFcntlRange lkEnds at refused
    rw [room_eq word, if_neg (by unfold int64Max; omega), if_pos negative, sum,
      if_neg (by unfold int64Max; omega)] at refused
    cases refused

end

/-- A lock that can be in the table goes however far, or its length fits `l_len`. -/
def Lk.Measured (lk : Lk) : Prop :=
  lk.lkEnd = darwinLkEof ∨ lk.lkEnd < 2 ^ 63 ∧ lk.lkEnd - lk.lkStart + 1 < 2 ^ 63

theorem range_measured {base start last : Nat} {lStart lLen : Int}
    (len : -2 ^ 63 ≤ lLen ∧ lLen ≤ int64Max)
    (range : darwinFcntlRange base lStart lLen = some (start, last)) :
    start < 2 ^ 63 ∧ (last = darwinLkEof ∨ last < 2 ^ 63 ∧ last - start + 1 < 2 ^ 63) := by
  have ends : ∀ first length, first ≤ int64Max → 0 ≤ length → length ≤ int64Max →
    lkEnds first length = some (start, last) →
      start < 2 ^ 63 ∧ (last = darwinLkEof ∨ last < 2 ^ 63 ∧ last - start + 1 < 2 ^ 63) := by
    intro first length high nonneg short known
    unfold lkEnds int64Max at *
    split at known
    · cases known
    next fits =>
    cases known
    refine ⟨by omega, ?_⟩
    by_cases zero : length = 0
    · exact .inl (if_pos zero)
    · rw [if_neg zero]
      exact .inr (by omega)
  have high : ∀ x, int64 x ≤ int64Max := fun x => by unfold int64 int64Max; omega
  unfold darwinFcntlRange at range
  split at range
  · cases range
  next kept =>
    split at range
    · exact ends _ _ (high _) (by omega) (by unfold int64Max; omega) range
    · exact ends _ _ (high _) (by omega) len.2 range

theorem measured_next {c : Call} (sound : Sound t) (measured : ∀ lk ∈ t.darwinLkHead, lk.Measured)
    (taken : next t c = some t') (meets : FromFcntl t c t') :
    ∀ lk ∈ t'.darwinLkHead, lk.Measured := by
  cases c with
  | drop owner file =>
    cases taken
    exact fun lk member => measured lk (mem_filter.mp member).1
  | lock r kmalloc =>
  obtain ⟨base, lStart, lLen, len, range⟩ := meets
  obtain ⟨start, last⟩ := range_measured len range
  simp only [next] at taken
  split at taken
  next ranged =>
    obtain ⟨out, run, -, -, entries, -⟩ := sound.lock ranged kmalloc
    rw [run] at taken
    cases taken
    intro new member
    rcases entries new member with old | ⟨lk, inside, piece⟩ | ⟨first, limit⟩
    · exact measured new old
    · have part := piece_of_mem (sound.ok.sized lk inside) ranged piece
      have whole := measured lk inside
      have within := part.within
      have last := part.last
      unfold Lk.Measured at whole ⊢
      omega
    · unfold Lk.Measured
      rwa [first, limit]
  · cases taken

/-- A range comes out exact exactly if its length can be counted back, and what `F_GETLK` reports of
a lock names its bytes exactly if the lock starts below `2 ^ 63`. -/
theorem fcntl_ranges_exact (run : Runs next FromFcntl noLocks t) :
    (∀ (base : Nat) (lStart lLen : Int), base < 2 ^ 64 → (-2 ^ 63 ≤ lStart ∧ lStart ≤ int64Max) →
      (-2 ^ 63 ≤ lLen ∧ lLen ≤ int64Max) → (Exact base lStart lLen ↔ Countable base lStart lLen)) ∧
    ∀ lk ∈ t.darwinLkHead,
      region 0 (darwinFcntlGetlk lk).1 (darwinFcntlGetlk lk).2 = lkRegion lk.lkStart lk.lkEnd ↔
        lk.lkStart < 2 ^ 63 := by
  refine ⟨fun base lStart lLen word start len =>
    ⟨Exact.countable word len.1, Countable.exact word start.1 len⟩,
    fun lk member => ?_⟩
  have known := run.invariant (P := fun t => Sound t ∧ ∀ lk ∈ t.darwinLkHead, lk.Measured)
    ⟨sound_noLocks, fun _ none => absurd none not_mem_nil⟩ fun _ _ _ known taken meets =>
      ⟨known.1.next taken, measured_next known.1 known.2 taken meets⟩
  have sized := known.1.ok.sized lk member
  have measured := known.2 lk member
  unfold Lk.Sized at sized
  unfold Lk.Measured darwinLkEof at measured
  unfold darwinFcntlGetlk region lkRegion darwinLkEof
  constructor
  · intro same
    by_contra high
    have far : lk.lkEnd = 2 ^ 64 - 1 := by omega
    have first := congrArg Prod.fst same
    simp only [far, if_pos, lt_irrefl, if_neg, not_false_eq_true] at first
    unfold int64 at first
    push_cast at first
    omega
  intro low
  have start : int64 lk.lkStart = lk.lkStart := by unfold int64; omega
  rw [start]
  by_cases far : lk.lkEnd = 2 ^ 64 - 1
  · simp [far]
  have length : int64 (lk.lkEnd - lk.lkStart + 1) = lk.lkEnd - lk.lkStart + 1 := by
    unfold int64; omega
  rw [if_neg far, if_neg far, length, if_pos (by omega)]
  refine Prod.ext (by simp) (congrArg some ?_)
  push_cast
  omega

/-- A lock on everything. -/
def wholeLock : Lk := ⟨7, 1, 0, darwinLkEof, .wrlck⟩

def wholeFile : LkTable := ⟨[wholeLock], 1⟩

theorem wholeFile_run : Runs next FromFcntl noLocks wholeFile :=
  .step (e := .lock ⟨7, 1, 0, darwinLkEof, some .wrlck⟩ true) .start (by decide +kernel) ⟨0, 0,
    0, by decide, by decide⟩

theorem fcntl_ranges_exact_whole :
    (darwinFcntlRange 10 5 (-3) = none ↔ Outside (region 10 5 (-3))) ∧
      lkRegion 12 14 = region 10 5 (-3) ∧
      region 0 (darwinFcntlGetlk wholeLock).1 (darwinFcntlGetlk wholeLock).2 =
        lkRegion 0 darwinLkEof := by
  obtain ⟨ranges, reports⟩ := fcntl_ranges_exact wholeFile_run
  have back :=
    (ranges 10 5 (-3) (by decide) (by decide) (by decide)).mpr (by unfold Countable; decide)
  exact ⟨back.1, back.2 (12, 14) (by decide),
    (reports wholeLock mem_cons_self).mpr (Nat.two_pow_pos 63)⟩

/-- The last byte, described as the one before `2 ^ 63`, is refused. A lock on everything of which
the bytes up to `2 ^ 63` are given back is reported to start below 0. -/
theorem last_byte_refused :
    darwinFcntlRange 1 int64Max (-1) = none ∧ ¬Outside (region 1 int64Max (-1)) ∧
    ∃ t, Runs next FromFcntl noLocks t ∧ ∃ lk ∈ t.darwinLkHead,
      region 0 (darwinFcntlGetlk lk).1 (darwinFcntlGetlk lk).2 ≠ lkRegion lk.lkStart lk.lkEnd := by
  refine ⟨by decide, by decide, ⟨[⟨7, 1, 0, 0, .wrlck⟩, ⟨7, 1, 2 ^ 63, darwinLkEof, .wrlck⟩], 2⟩,
    ?_, _,
    mem_cons_of_mem _ mem_cons_self, by decide⟩
  exact .step (e := .lock ⟨7, 1, 1, 2 ^ 63 - 1, none⟩ true) wholeFile_run (by decide +kernel)
    ⟨0, 1, int64Max, by decide, by decide⟩

end Style9.Kern.RecordLocks
