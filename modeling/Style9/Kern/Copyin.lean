import Style9.Lib.Bytes

/-!
# Strings and vectors copied in from user memory

The memory copied from belongs to a task whose other threads run meanwhile. It is a family of
memories here, one for each access that the call makes: between two accesses anything may have been
written. A byte is read twice, once to be stored and once to be tested, so that these are two
accesses; a pointer is read byte by byte. An access that faults does not return.
-/
namespace Style9.Kern

open Style9.Lib List Nat

/-- `SYS_E_*`, as far as the copies return them. -/
inductive SysE where
  | fault
  | inval
  | nomem
  deriving DecidableEq

/-- What an address holds at each access of the call. -/
abbrev UserMemory : Type := Nat → Nat → UInt8

def userVaLo : Nat := 0x40000000

def userVaHi : Nat := 0x80000000

def userRangeOk (addr len : Nat) : Bool :=
  if len = 0 then true
  else if addr < userVaLo ∨ userVaHi ≤ addr then false
  else if (addr + len) % 2 ^ 64 < addr then false
  else if userVaHi < (addr + len) % 2 ^ 64 then false
  else true

/-- A pointer moved on. -/
def advance (ptr off : Nat) : Nat := (ptr + off) % 2 ^ 64

/-! ### One string -/

/-- The loop of `syscall_copyin_str` at byte `i`, with `left` more to go. -/
def copyinFrom (mem : UserMemory) (uptr : Nat) : Nat → Nat → Bytes → Except SysE Nat × Bytes
  | 0, _, kbuf => (.error .inval, kbuf)
  | left + 1, i, kbuf =>
    if !userRangeOk (advance uptr i) 1 then (.error .fault, kbuf)
    else if mem (2 * i + 1) (advance uptr i) = 0
      then (.ok i, kbuf.set i (mem (2 * i) (advance uptr i)))
    else copyinFrom mem uptr left (i + 1) (kbuf.set i (mem (2 * i) (advance uptr i)))

variable (mem : UserMemory)

/-- `syscall_copyin_str`; `kbuf_size` is the length of the buffer, and no buffer is one of no
length. -/
def syscallCopyinStr (uptr : Nat) (kbuf : Bytes) : Except SysE Nat × Bytes :=
  if uptr = 0 ∨ kbuf.length = 0 then (.error .fault, kbuf)
  else if !userRangeOk uptr 1 then (.error .fault, kbuf)
  else copyinFrom mem uptr kbuf.length 0 kbuf

/-! ### A vector of strings -/

/-- The block handed back: the slots, and behind them the string bytes written. -/
structure ArgBlock where
  argc : Nat
  block : Nat
  size : Nat
  kargv : List Nat
  strs : Bytes
  deriving DecidableEq

/-- The pointer at an address, from access `t` on. -/
def ptrAt (t addr : Nat) : Nat := leNat ((range 8).map fun j => mem (t + j) (addr + j))

/-- The first pass, at entry `n`. -/
def countPtrs (mem : UserMemory) (uargv : Nat) : Nat → Nat → Except SysE Nat
  | 0, _ => .error .inval
  | left + 1, n =>
    if !userRangeOk (advance uargv (8 * n)) 8 then .error .fault
    else if ptrAt mem (8 * n) (advance uargv (8 * n)) = 0 then .ok n
    else countPtrs mem uargv left (n + 1)

/-- One string of the second pass, at byte `k`, behind the bytes already there. -/
def copyString (mem : UserMemory) (uarg : Nat) : Nat → Nat → Nat → Bytes → Except SysE (Bytes × Nat)
  | 0, _, _, _ => .error .inval
  | left + 1, k, t, strs =>
    if !userRangeOk (advance uarg k) 1 then .error .fault
    else if mem (t + 1) (advance uarg k) = 0 then .ok (strs ++ [mem t (advance uarg k)], t + 2)
    else copyString mem uarg left (k + 1) (t + 2) (strs ++ [mem t (advance uarg k)])

/-- The second pass, at entry `i`. -/
def copyStrings (mem : UserMemory) (uargv maxBytes strsAt : Nat) :
    Nat → Nat → Nat → List Nat → Bytes → Except SysE (List Nat × Bytes)
  | 0, _, _, kargv, strs => .ok (kargv, strs)
  | left + 1, i, t, kargv, strs =>
    let uarg := ptrAt mem t (advance uargv (8 * i))
    if uarg = 0 ∨ userRangeOk uarg 1 = false then .error .fault
    else
      match copyString mem uarg (maxBytes - strs.length) 0 (t + 8) strs with
      | .error e => .error e
      | .ok (strs', t') =>
        copyStrings mem uargv maxBytes strsAt left (i + 1) t'
          (kargv ++ [strsAt + strs.length]) strs'

/-- `syscall_copyin_vec`; no block stands for an empty vector. `kmalloc` gives an address or
refuses; a refused vector leaves no block. -/
def syscallCopyinVec (kmalloc : Nat → Option Nat) (mem : UserMemory)
    (uargv maxPtrs maxBytes : Nat) :
    Except SysE (Option ArgBlock) :=
  if uargv = 0 then .ok none
  else if !userRangeOk uargv 8 then .error .fault
  else
    match countPtrs mem uargv (maxPtrs + 1) 0 with
    | .error e => .error e
    | .ok 0 => .ok none
    | .ok n =>
      let ptrsSz := (n + 1) * 8
      match kmalloc ((ptrsSz + maxBytes) % 2 ^ 64) with
      | none => .error .nomem
      | some block =>
        match copyStrings mem uargv maxBytes (block + ptrsSz) n 0 (8 * (n + 1)) [] [] with
        | .error e => .error e
        | .ok (kargv, strs) =>
          .ok (some
            { argc := n, block := block, size := (ptrsSz + maxBytes) % 2 ^ 64
              kargv := kargv ++ [0], strs := strs })

/-! ### What the copies promise -/

/-- Of the bytes up to the first one tested to be NUL, that one was stored as NUL and no other. -/
def StoredAsTested (uptr size : Nat) : Prop :=
  ∀ i < size, (∀ j < i, mem (2 * j + 1) (advance uptr j) ≠ 0) →
    (mem (2 * i) (advance uptr i) = 0 ↔ mem (2 * i + 1) (advance uptr i) = 0)

/-- What the second pass reads of one string: how many bytes, up to the one tested to be NUL, and
whether any of them was stored as NUL. -/
def readString (mem : UserMemory) (uarg : Nat) : Nat → Nat → Nat → Nat × Bool
  | 0, _, _ => (0, false)
  | left + 1, k, t =>
    if mem (t + 1) (advance uarg k) = 0 then (1, mem t (advance uarg k) == 0)
    else
      let rest := readString mem uarg left (k + 1) (t + 2)
      (rest.1 + 1, mem t (advance uarg k) == 0 || rest.2)

/-- Of every string that the second pass reads, some byte is stored as NUL. -/
def readStrings (mem : UserMemory) (uargv maxBytes : Nat) : Nat → Nat → Nat → Nat → Bool
  | 0, _, _, _ => true
  | left + 1, i, t, used =>
    let one := readString mem (ptrAt mem t (advance uargv (8 * i))) (maxBytes - used) 0 (t + 8)
    one.2 && readStrings mem uargv maxBytes left (i + 1) (t + 8 + 2 * one.1) (used + one.1)

def EachStored (uargv maxPtrs maxBytes : Nat) : Prop :=
  ∀ n, countPtrs mem uargv (maxPtrs + 1) 0 = .ok n →
    readStrings mem uargv maxBytes n 0 (8 * (n + 1)) 0 = true

/-- A string of `n` bytes, ended by its first NUL. -/
def Terminated (kbuf : Bytes) (n : Nat) : Prop :=
  kbuf[n]? = some 0 ∧ ∀ j < n, ∀ b, kbuf[j]? = some b → b ≠ 0

variable {mem : UserMemory} {strsAt uptr n uargv : Nat}

/-- The loop from byte `i` on stores each byte, up to the first one tested to be NUL. -/
theorem copyinFrom_stores (left i n : Nat) (kbuf kbuf' : Bytes) (room : i + left = kbuf.length)
    (run : copyinFrom mem uptr left i kbuf = (.ok n, kbuf')) :
    i ≤ n ∧ n < kbuf.length ∧ mem (2 * n + 1) (advance uptr n) = 0 ∧
      (∀ j, i ≤ j → j < n → mem (2 * j + 1) (advance uptr j) ≠ 0) ∧
      (∀ j, i ≤ j → j ≤ n → kbuf'[j]? = some (mem (2 * j) (advance uptr j))) ∧
      ∀ j < i, kbuf'[j]? = kbuf[j]? := by
  induction left generalizing i kbuf with
  | zero => cases run
  | succ left ih =>
  rw [copyinFrom] at run
  have inside : i < kbuf.length := by omega
  split at run
  · cases run
  next =>
  split at run
  next tested =>
    cases run
    refine ⟨le_rfl, inside, tested, fun j low high => absurd high (by omega), ?_, ?_⟩
    · intro j low high
      rw [show j = n by omega, getElem?_set_self inside]
    · intro j early
      rw [getElem?_set_ne (by omega)]
  next tested =>
  obtain ⟨low, high, last, others, stored, before⟩ :=
    ih (i + 1) (kbuf.set i (mem (2 * i) (advance uptr i))) (by rw [length_set]; omega) run
  rw [length_set] at high
  refine ⟨by omega, high, last, fun j first end' => ?_, fun j first end' => ?_, fun j early => ?_⟩
  · rcases Nat.eq_or_lt_of_le first with rfl | later
    · exact tested
    · exact others j later end'
  · rcases Nat.eq_or_lt_of_le first with rfl | later
    · rw [before i (lt_add_one i), getElem?_set_self inside]
    · exact stored j later end'
  · rw [before j (by omega), getElem?_set_ne (by omega)]

theorem syscallCopyinStr_terminated {kbuf kbuf' : Bytes}
    (run : syscallCopyinStr mem uptr kbuf = (.ok n, kbuf')) :
    n < kbuf.length ∧ (Terminated kbuf' n ↔ StoredAsTested mem uptr kbuf.length) := by
  unfold syscallCopyinStr at run
  split at run
  · cases run
  split at run
  · cases run
  obtain ⟨-, short, last, others, stored, -⟩ :=
    copyinFrom_stores kbuf.length 0 n kbuf kbuf' (by omega) run
  refine ⟨short, ?_, ?_⟩
  · rintro ⟨null, before⟩ i inside untested
    -- No byte behind the one tested to be NUL is read.
    rcases Nat.lt_trichotomy i n with early | rfl | late
    · have there := before i early _ (stored i (zero_le _) early.le)
      exact iff_of_false there (others i (zero_le _) early)
    · rw [stored i (zero_le _) le_rfl] at null
      exact iff_of_true (Option.some.inj null) last
    · exact absurd last (untested n late)
  · intro same
    have agrees (i : Nat) (upTo : i ≤ n) := same i (by omega) fun j early =>
      others j (zero_le _) (by omega)
    refine ⟨?_, fun j early b here => ?_⟩
    · rw [stored n (zero_le _) le_rfl, (agrees n le_rfl).mpr last]
    · rw [stored j (zero_le _) early.le] at here
      cases here
      exact fun null => others j (zero_le _) early ((agrees j early.le).mp null)

theorem countPtrs_le (left n total : Nat) (run : countPtrs mem uargv left n = .ok total) :
    total < n + left := by
  induction left generalizing n with
  | zero => cases run
  | succ left ih =>
  rw [countPtrs] at run
  split at run
  · cases run
  next =>
  split at run
  · cases run
    omega
  · have counted := ih (n + 1) run
    omega

theorem copyString_adds {uarg : Nat} (left k t t' : Nat) (strs strs' : Bytes)
    (run : copyString mem uarg left k t strs = .ok (strs', t')) :
    ∃ body : Bytes, strs' = strs ++ body ∧ body.length ≤ left ∧ t' = t + 2 * body.length ∧
      (readString mem uarg left k t).1 = body.length ∧
      ((readString mem uarg left k t).2 = true ↔ 0 ∈ body) := by
  induction left generalizing k t strs with
  | zero => cases run
  | succ left ih =>
  rw [copyString] at run
  rw [readString]
  split at run
  · cases run
  next =>
  split at run
  next tested =>
    cases run
    rw [if_pos tested]
    exact ⟨[_], rfl, Nat.le_add_left _ _, rfl, rfl,
      beq_iff_eq.trans (eq_comm.trans mem_singleton.symm)⟩
  next tested =>
  rw [if_neg tested]
  obtain ⟨body, made, short, later, taken, ended⟩ :=
    ih (k + 1) (t + 2) (strs ++ [mem t (advance uarg k)]) run
  refine ⟨mem t (advance uarg k) :: body, by simp [made], by simpa using short, ?_, ?_, ?_⟩
  · rw [later, length_cons]
    omega
  · simp [taken]
  · rw [Bool.or_eq_true, ended, beq_iff_eq, mem_cons, eq_comm]

/-- Where strings put one after another begin. -/
def starts : Nat → List Bytes → List Nat
  | _, [] => []
  | p, body :: rest => p :: starts (p + body.length) rest

theorem starts_length (p : Nat) (bodies : List Bytes) :
    (starts p bodies).length = bodies.length := by
  induction bodies generalizing p with
  | nil => rfl
  | cons body rest ih => simp [starts, ih]

theorem starts_getElem? (p i : Nat) (bodies : List Bytes) (inside : i < bodies.length) :
    (starts p bodies)[i]? = some (p + (bodies.take i).flatten.length) := by
  induction bodies generalizing p i with
  | nil => cases inside
  | cons body rest ih =>
  cases i with
  | zero => rfl
  | succ i =>
    rw [length_cons] at inside
    rw [starts, getElem?_cons_succ, ih _ i (by omega), take_succ_cons, flatten_cons, length_append]
    congr 1
    omega

theorem copyStrings_adds {maxBytes : Nat} (left i t : Nat) (kargv kargv' : List Nat)
    (strs strs' : Bytes) (few : strs.length ≤ maxBytes)
    (run : copyStrings mem uargv maxBytes strsAt left i t kargv strs = .ok (kargv', strs')) :
    ∃ bodies : List Bytes, bodies.length = left ∧ strs' = strs ++ bodies.flatten ∧
      kargv' = kargv ++ starts (strsAt + strs.length) bodies ∧ strs'.length ≤ maxBytes ∧
      (readStrings mem uargv maxBytes left i t strs.length = true ↔ ∀ body ∈ bodies, 0 ∈ body) := by
  induction left generalizing i t kargv strs with
  | zero =>
    cases run
    exact ⟨[], rfl, by simp, by simp [starts], few, by simp [readStrings]⟩
  | succ left ih =>
  rw [copyStrings] at run
  split at run
  · cases run
  next =>
  split at run
  · cases run
  next strs₁ t₁ copied =>
  obtain ⟨body, rfl, short, rfl, taken, ended⟩ := copyString_adds _ _ _ _ _ _ copied
  have room : (strs ++ body).length ≤ maxBytes := by rw [length_append]; omega
  obtain ⟨bodies, count, made, slots, bytes, each⟩ := ih (i + 1) _ _ _ room run
  refine ⟨body :: bodies, by rw [length_cons, count], by simp [made], ?_, bytes, ?_⟩
  · rw [slots, length_append, ← Nat.add_assoc, append_assoc, starts, singleton_append]
  · rw [readStrings, taken, ← length_append, Bool.and_eq_true, each, ended, forall_mem_cons]

/-- A string ends within its own bytes when one of them is NUL. -/
theorem terminated_within (body rest : Bytes) :
    (∃ len < body.length, Terminated (body ++ rest) len) ↔ 0 ∈ body := by
  constructor
  · rintro ⟨len, inside, null, -⟩
    rw [getElem?_append_left inside] at null
    exact mem_of_getElem? null
  intro null
  induction body with
  | nil => cases null
  | cons b body ih =>
  by_cases first : b = 0
  · exact ⟨0, succ_pos _, by simp [first], fun j early => absurd early (Nat.not_lt_zero j)⟩
  obtain ⟨len, inside, last, before⟩ :=
    ih ((mem_cons.mp null).resolve_left fun same => first same.symm)
  refine ⟨len + 1, Nat.succ_lt_succ inside, last, fun j early b' here => ?_⟩
  cases j with
  | zero =>
    cases here
    exact first
  | succ j => exact before j (by omega) b' here

/-- The string bytes of a block from an address on. -/
def ArgBlock.bytesFrom (b : ArgBlock) (p : Nat) : Bytes :=
  b.strs.drop (p - (b.block + 8 * b.kargv.length))

structure ArgBlock.WellFormed (b : ArgBlock) (maxPtrs maxBytes : Nat) : Prop where
  slots : b.kargv.length = b.argc + 1
  null : b.kargv[b.argc]? = some 0
  ptrs : b.argc ≤ maxPtrs
  bytes : b.strs.length ≤ maxBytes
  string : ∀ i < b.argc, ∃ p len, b.kargv[i]? = some p ∧ b.block + 8 * b.kargv.length ≤ p ∧
    p + len < b.block + b.size ∧ Terminated (b.bytesFrom p) len ∧
    ∀ q, i + 1 < b.argc → b.kargv[i + 1]? = some q → p + len < q

variable {kmalloc : Nat → Option Nat} {mem : UserMemory} {uargv maxPtrs maxBytes : Nat}
  {b : ArgBlock}

theorem syscallCopyinVec_some
    (run : syscallCopyinVec kmalloc mem uargv maxPtrs maxBytes = .ok (some b)) :
    ∃ n block kargv strs, b = ⟨n, block, ((n + 1) * 8 + maxBytes) % 2 ^ 64, kargv ++ [0], strs⟩ ∧
      countPtrs mem uargv (maxPtrs + 1) 0 = .ok n ∧
      copyStrings mem uargv maxBytes (block + (n + 1) * 8) n 0 (8 * (n + 1)) [] [] =
        .ok (kargv, strs) := by
  unfold syscallCopyinVec at run
  split at run
  · cases run
  split at run
  · cases run
  split at run
  · cases run
  · cases run
  next n _ counted =>
  dsimp only at run
  split at run
  · cases run
  next block _ =>
  split at run
  · cases run
  next kargv strs copied =>
  cases run
  exact ⟨n, block, kargv, strs, rfl, counted, copied⟩

theorem syscallCopyinVec_wellFormed (fits : 8 * (maxPtrs + 1) + maxBytes < 2 ^ 64)
    (run : syscallCopyinVec kmalloc mem uargv maxPtrs maxBytes = .ok (some b)) :
    b.WellFormed maxPtrs maxBytes ↔ EachStored mem uargv maxPtrs maxBytes := by
  obtain ⟨n, block, kargv, strs, rfl, counted, copied⟩ := syscallCopyinVec_some run
  have few : n ≤ maxPtrs := by
    have := countPtrs_le _ _ _ counted
    omega
  obtain ⟨bodies, count, made, slots, bytes, each⟩ :=
    copyStrings_adds _ _ _ _ _ _ _ (zero_le _) copied
  rw [nil_append] at made slots
  rw [length_nil, Nat.add_zero] at slots
  rw [length_nil] at each
  have whole : ((n + 1) * 8 + maxBytes) % 2 ^ 64 = (n + 1) * 8 + maxBytes :=
    mod_eq_of_lt (by omega)
  have long : kargv.length = n := by rw [slots, starts_length, count]
  have start : block + 8 * (kargv ++ [0]).length = block + (n + 1) * 8 := by
    rw [length_append, long, length_singleton, mul_comm]
  -- The slot of each string, and the bytes from there on.
  have slot (i : Nat) (inside : i < n) : (kargv ++ [0])[i]? =
      some (block + (n + 1) * 8 + (bodies.take i).flatten.length) := by
    rw [getElem?_append_left (long ▸ inside), slots, starts_getElem? _ _ _ (count ▸ inside)]
  have parted (i : Nat) : strs = (bodies.take i).flatten ++ (bodies.drop i).flatten := by
    rw [← flatten_append, take_append_drop, made]
  have behind (i : Nat) : strs.drop (bodies.take i).flatten.length = (bodies.drop i).flatten := by
    rw [parted i, drop_left]
  have next (i : Nat) (inside : i < bodies.length) : (bodies.take (i + 1)).flatten.length =
      (bodies.take i).flatten.length + bodies[i].length := by
    rw [take_succ_eq_append_getElem inside, flatten_append, length_append, flatten_singleton]
  have asked : EachStored mem uargv maxPtrs maxBytes ↔ ∀ body ∈ bodies, 0 ∈ body := by
    rw [← each]
    refine ⟨fun all => all n counted, fun all m counted' => ?_⟩
    cases counted.symm.trans counted'
    exact all
  rw [asked]
  constructor
  · intro well body member
    obtain ⟨i, inside, rfl⟩ := getElem_of_mem member
    obtain ⟨p, len, here, -, -, ended, before⟩ := well.string i (count ▸ inside)
    cases (slot i (count ▸ inside)).symm.trans here
    rw [ArgBlock.bytesFrom, start, Nat.add_sub_cancel_left, behind i,
      drop_eq_getElem_cons inside, flatten_cons] at ended
    refine (terminated_within bodies[i] _).mp ⟨len, ?_, ended⟩
    by_cases more : i + 1 < n
    · have early := before _ more (slot (i + 1) more)
      rw [next i inside] at early
      omega
    · -- Nothing follows the last string.
      rw [drop_eq_nil_of_le (by omega), flatten_nil, append_nil] at ended
      exact (List.getElem?_eq_some_iff.mp ended.1).1
  · intro all
    refine ⟨by simp [long], ?_, few, bytes, fun i inside => ?_⟩
    · rw [getElem?_append_right long.le, long, Nat.sub_self]
      rfl
    have inside' : i < bodies.length := count ▸ inside
    obtain ⟨len, short, ended⟩ := (terminated_within bodies[i] (bodies.drop (i + 1)).flatten).mpr
      (all _ (getElem_mem inside'))
    have room : (bodies.take (i + 1)).flatten.length ≤ strs.length := by
      rw [parted (i + 1), length_append]
      exact Nat.le_add_right _ _
    rw [next i inside'] at room
    refine ⟨_, len, slot i inside, start.trans_le (Nat.le_add_right _ _), ?_, ?_,
      fun q more after => ?_⟩
    · change block + (n + 1) * 8 + _ + len < block + ((n + 1) * 8 + maxBytes) % 2 ^ 64
      rw [whole]
      omega
    · rw [ArgBlock.bytesFrom, start, Nat.add_sub_cancel_left, behind i,
        drop_eq_getElem_cons inside', flatten_cons]
      exact ended
    · cases (slot (i + 1) more).symm.trans after
      rw [next i inside']
      omega

/-- A string copied in ends with the first NUL of the buffer exactly when the bytes that the call
reads are stored as they are tested; a copied vector, the sizes of which do not wrap, points to
strings that end inside the block and before the next exactly when each had a NUL stored. -/
theorem copyin_terminated (mem : UserMemory) :
    (∀ uptr n kbuf kbuf', syscallCopyinStr mem uptr kbuf = (.ok n, kbuf') →
      n < kbuf.length ∧ (Terminated kbuf' n ↔ StoredAsTested mem uptr kbuf.length)) ∧
    ∀ kmalloc uargv maxPtrs maxBytes b, 8 * (maxPtrs + 1) + maxBytes < 2 ^ 64 →
      syscallCopyinVec kmalloc mem uargv maxPtrs maxBytes = .ok (some b) →
      (b.WellFormed maxPtrs maxBytes ↔ EachStored mem uargv maxPtrs maxBytes) :=
  ⟨fun _ _ _ _ run => syscallCopyinStr_terminated run,
    fun _ _ _ _ _ fits run => syscallCopyinVec_wellFormed fits run⟩

/-- Two pointers, and the strings `hi` and `yo` behind them. -/
def twoStrings (a : Nat) : UInt8 :=
  ([0x18, 0, 0, 0x40, 0, 0, 0, 0, 0x1B, 0, 0, 0x40, 0, 0, 0, 0, 0, 0, 0, 0, 0, 0, 0, 0,
    0x68, 0x69, 0, 0x79, 0x6F, 0] : Bytes).getD (a - userVaLo) 0

/-- Bytes that nothing reads change all the time, and letters into others. -/
def restless : UserMemory := fun t a =>
  if userVaLo + 30 ≤ a then UInt8.ofNat t
  else if a = userVaLo + 0x19 ∧ t % 2 = 1 then 0x6F
  else twoStrings a

theorem copyin_terminated_two :
    syscallCopyinStr restless 0x40000018 [1, 1, 1, 1] = (.ok 2, [0x68, 0x69, 0, 1]) ∧
    Terminated [0x68, 0x69, 0, 1] 2 ∧
    syscallCopyinVec some restless userVaLo 16 512 =
      .ok (some ⟨2, 536, 536, [560, 563, 0], [0x68, 0x69, 0, 0x79, 0x6F, 0]⟩) ∧
    (⟨2, 536, 536, [560, 563, 0], [0x68, 0x69, 0, 0x79, 0x6F, 0]⟩ : ArgBlock).WellFormed 16
      512 := by
  have str : syscallCopyinStr restless 0x40000018 [1, 1, 1, 1] = (.ok 2, [0x68, 0x69, 0, 1]) := by
    decide +kernel
  have vec : syscallCopyinVec some restless userVaLo 16 512 =
      .ok (some ⟨2, 536, 536, [560, 563, 0], [0x68, 0x69, 0, 0x79, 0x6F, 0]⟩) := by
    decide +kernel
  have same : StoredAsTested restless 0x40000018 4 := by
    unfold StoredAsTested
    decide +kernel
  have each : EachStored restless userVaLo 16 512 := by
    intro n counted
    have two : countPtrs restless userVaLo 17 0 = .ok 2 := by decide +kernel
    cases two.symm.trans counted
    decide +kernel
  obtain ⟨strings, vectors⟩ := copyin_terminated restless
  exact ⟨str, (strings _ _ _ _ str).2.mpr same, vec, (vectors _ _ _ _ _ (by decide) vec).mpr each⟩

/-- A byte that is there when it is stored and gone when it is tested. -/
def fleeting : UserMemory := fun t a =>
  if userVaLo + 24 ≤ a then if t % 2 = 1 then 0 else 0x41 else twoStrings a

/-- The length is returned, and the buffer has no terminator; nor has any string of the block. -/
theorem copyin_unterminated :
    syscallCopyinStr fleeting 0x40000018 [1, 1, 1, 1] = (.ok 0, [0x41, 1, 1, 1]) ∧
    0 ∉ ([0x41, 1, 1, 1] : Bytes) ∧
    syscallCopyinVec some fleeting userVaLo 16 512 =
      .ok (some ⟨2, 536, 536, [560, 561, 0], [0x41, 0x41]⟩) ∧ 0 ∉ ([0x41, 0x41] : Bytes) := by
  decide +kernel

end Style9.Kern
