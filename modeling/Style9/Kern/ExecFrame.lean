import Style9.Kern.Copyin
import Style9.Lib.Ram

/-!
# The frame a dynamically linked image starts on

`execve` copies its two vectors in, asks whether they fit one page together with the pointer block,
and drops the old image. `build_dyld_arg_stack` then packs the strings downward from the top of the
stack and lays the block below them. It subtracts in 64 bits, and only for the environment and the
block does it look first whether there is room.

A string is what the kernel's memory holds from its slot up to the next NUL. Lengths of strings in
memory do not wrap when they are added up. A store outside the page is an error here.
-/
namespace Style9.Kern.ExecFrame

open Style9.Lib List Nat

def spawnArgvMax : Nat := 16

def spawnArgBytesMax : Nat := 512

def spawnEnvMax : Nat := 32

def spawnEnvBytesMax : Nat := 2048

def darwinStackTop : Nat := 0x50000000

/-- Where the top page of the stack begins. -/
def topBase : Nat := darwinStackTop - 0x1000

/-- The strings of a vector, which has none if there is no block; `beyond` is what lies behind the
bytes that were copied. -/
def strings (beyond : Bytes) : Option ArgBlock → List Bytes
  | none => []
  | some b => (List.range b.argc).map fun i =>
    (b.bytesFrom (b.kargv.getD i 0) ++ beyond).takeWhile (· ≠ 0)

/-- The bytes of some strings, each with its NUL. -/
def need (strs : List Bytes) : Nat := (strs.map fun s => s.length + 1).sum

def darwinFrameFits (argv envp : List Bytes) : Bool :=
  8 * (argv.length + envp.length + 5) + 16 + need argv + need envp ≤ 4096 - 64

/-- The builder returns 0, its assertion fails, or a store misses the page. -/
inductive FrameStop where
  | refused
  | underflows
  | outside
  deriving DecidableEq

def sub64 (a b : Nat) : Nat := (a + (2 ^ 64 - b % 2 ^ 64)) % 2 ^ 64

/-- A store through the kernel's alias of the page. -/
def put (page : Ram) (off : Nat) (bytes : Bytes) : Except FrameStop Ram :=
  if off + bytes.length ≤ 0x1000 then .ok (page.store off bytes) else .error .outside

/-- The loop over `argv`; with `checked` the one over `envp`. -/
def packStrings (checked : Bool) (topBase : Nat) :
    List Bytes → Ram → Nat → Except FrameStop (Ram × Nat × List Nat)
  | [], page, sp => .ok (page, sp, [])
  | s :: strs, page, sp =>
    let len := s.length + 1
    if checked ∧ sub64 sp topBase < len then .error .refused
    else do
      let sp := sub64 sp len
      let page ← put page (sub64 sp topBase) (s ++ [0])
      let (page, low, uva) ← packStrings checked topBase strs page sp
      return (page, low, sp :: uva)

/-- The words of the pointer block, from `slot` up. -/
def putWords (topBase : Nat) : List Nat → Ram → Nat → Except FrameStop Ram
  | [], page, _ => .ok page
  | w :: words, page, slot => do
    let page ← put page (sub64 slot topBase) (leBytes 8 w)
    putWords topBase words page (slot + 8)

/-- What the pointer block holds. -/
def frameWords (mainMh : UInt64) (argc : Nat) (argvUva envpUva : List Nat) : List Nat :=
  mainMh.toNat :: argc :: argvUva ++ 0 :: envpUva ++ [0, 0]

def buildDyldArgStack (page : Ram) (mainMh : UInt64) (stackTop : Nat) (argv envp : List Bytes) :
    Except FrameStop (Nat × Ram) := do
  let argv := argv.take spawnArgvMax
  let envp := envp.take spawnEnvMax
  let topBase := sub64 stackTop 0x1000
  let (page, sp, argvUva) ← packStrings false topBase argv page stackTop
  let (page, sp, envpUva) ← packStrings true topBase envp page sp
  let nwords := argv.length + envp.length + 5
  if sub64 sp topBase < 8 * nwords + 16 then .error .refused
  else
    let rsp := sub64 sp (8 * nwords) / 16 * 16
    if rsp < topBase then .error .underflows
    else do
      let page ← putWords topBase (frameWords mainMh argv.length argvUva envpUva) page rsp
      return (rsp, page)

/-! ### The strings -/

/-- Each address is that of a copy of its string inside the page, from `lo` up to `hi`, and below
the one before. -/
structure Laid (page : Ram) (base lo hi : Nat) (uva : List Nat) (strs : List Bytes) : Prop where
  count : uva.length = strs.length
  copied : ∀ x ∈ uva.zip strs, base + lo ≤ x.1 ∧ x.1 + x.2.length < base + hi ∧
    page.read (x.1 - base) (x.2.length + 1) = x.2 ++ [0]
  apart : (uva.zip strs).Pairwise fun x y => y.1 + y.2.length < x.1

variable {page page' : Ram} {base lo mid hi off : Nat} {uva uva' : List Nat}
  {strs strs' : List Bytes}

theorem Laid.mono {lo' hi' : Nat} (laid : Laid page base lo hi uva strs) (low : lo' ≤ lo)
    (high : hi ≤ hi')
    (same : ∀ x, lo ≤ x → x < hi → page' x = page x) : Laid page' base lo' hi' uva strs := by
  refine ⟨laid.count, fun x member => ?_, laid.apart⟩
  obtain ⟨bottom, top, copy⟩ := laid.copied x member
  exact ⟨by omega, by omega,
    (Ram.read_congr fun y after before => same y (by omega) (by omega)).trans copy⟩

theorem Laid.append (high : Laid page base mid hi uva strs) (low : Laid page base lo mid uva' strs')
    (le : lo ≤ mid)
    (le' : mid ≤ hi) : Laid page base lo hi (uva ++ uva') (strs ++ strs') := by
  have zips : (uva ++ uva').zip (strs ++ strs') = uva.zip strs ++ uva'.zip strs' :=
    zip_append high.count
  refine ⟨by rw [length_append, length_append, high.count, low.count], fun x member => ?_, ?_⟩
  · rw [zips] at member
    rcases mem_append.mp member with upper | lower
    · exact (high.mono le le_rfl fun _ _ _ => rfl).copied x upper
    · exact (low.mono le_rfl le' fun _ _ _ => rfl).copied x lower
  rw [zips]
  refine pairwise_append.mpr ⟨high.apart, low.apart, fun x upper y lower => ?_⟩
  have above := (high.copied x upper).1
  have below := (low.copied y lower).2.1
  omega

theorem Laid.below (laid : Laid page base lo hi uva strs) : ∀ u ∈ uva, u < base + hi := by
  intro u member
  rw [← map_fst_zip laid.count.le] at member
  obtain ⟨x, inside, rfl⟩ := mem_map.mp member
  have top := (laid.copied x inside).2.1
  omega

theorem sub64_le {a b : Nat} (le : b ≤ a) (small : a < 2 ^ 64) : sub64 a b = a - b := by
  unfold sub64
  omega

theorem sub64_base (small : base + off < 2 ^ 64) : sub64 (base + off) base = off := by
  rw [sub64_le (Nat.le_add_right _ _) small, Nat.add_sub_cancel_left]

theorem put_ok {bytes : Bytes} (inside : off + bytes.length ≤ 0x1000) :
    put page off bytes = .ok (page.store off bytes) :=
  if_pos inside

theorem packStrings_laid (checked : Bool) (page : Ram) (strs : List Bytes)
    (small : base + 0x1000 < 2 ^ 64)
    (top : off ≤ 0x1000) (room : need strs ≤ off) : ∃ page' uva,
      packStrings checked base strs page (base + off) = .ok (page', base + (off - need strs), uva) ∧
      Laid page' base (off - need strs) off uva strs ∧ ∀ x, x < off - need strs ∨ off ≤ x →
        page' x = page x := by
  induction strs generalizing page off with
  | nil => exact ⟨page, [], rfl, ⟨rfl, by simp, .nil⟩, fun _ _ => rfl⟩
  | cons s strs ih =>
  have split : need (s :: strs) = s.length + 1 + need strs := by simp [need]
  have long : (s ++ [0]).length = s.length + 1 := length_append
  -- the string goes right below what is there already
  obtain ⟨point, rfl⟩ : ∃ point, off = point + (s.length + 1) := ⟨off - (s.length + 1), by omega⟩
  obtain ⟨page', uva, packed, laid, kept⟩ :=
    @ih point (page.store point (s ++ [0])) (by omega) (by omega)
  have lower : sub64 (base + (point + (s.length + 1))) (s.length + 1) = base + point := by
    rw [sub64_le (by omega) (by omega)]
    omega
  have free : ¬ (checked = true ∧ sub64 (base + (point + (s.length + 1))) base < s.length + 1) := by
    rw [sub64_base (by omega)]
    omega
  have copy : page'.read point (s.length + 1) = s ++ [0] := by
    rw [Ram.read_congr fun x low _ => kept x (.inr low), ← long, Ram.read_store]
  have left : point + (s.length + 1) - need (s :: strs) = point - need strs := by omega
  rw [left]
  refine ⟨page', (base + point) :: uva, ?_, ⟨by simp [laid.count], ?_, ?_⟩, fun x away => ?_⟩
  · rw [packStrings, if_neg free, lower]
    dsimp only
    rw [sub64_base (by omega), put_ok (by omega)]
    change (packStrings checked base strs (page.store point (s ++ [0])) (base + point)).bind _ = _
    rw [packed]
    rfl
  · rw [zip_cons_cons]
    rintro x (_ | ⟨_, member⟩)
    · exact ⟨by omega, by simp; omega, by rwa [Nat.add_sub_cancel_left]⟩
    · exact (laid.mono le_rfl (Nat.le_add_right _ _) fun _ _ _ => rfl).copied x member
  · exact .cons (fun x member => (laid.copied x member).2.1) laid.apart
  · rw [kept x (by omega), Ram.store_outside (by omega)]

/-! ### The pointer block -/

theorem putWords_reads (page : Ram) {words : List Nat} (fits : ∀ w ∈ words, w < 2 ^ 64)
    (small : base + 0x1000 < 2 ^ 64)
    (room : off + 8 * words.length ≤ 0x1000) :
    ∃ page', putWords base words page (base + off) = .ok page' ∧
      (∀ i w, words[i]? = some w → page'.load (off + 8 * i) 8 = w) ∧
      ∀ x, x < off ∨ off + 8 * words.length ≤ x → page' x = page x := by
  induction words generalizing page off with
  | nil => exact ⟨page, rfl, by simp, fun _ _ => rfl⟩
  | cons w words ih =>
  rw [length_cons] at room ⊢
  have wide := length_leBytes 8 w
  obtain ⟨page', put, reads, kept⟩ := @ih (off + 8) (page.store off (leBytes 8 w))
    (fun v member => fits v (mem_cons_of_mem w member)) (by omega)
  refine ⟨page', ?_, fun i v here => ?_, fun x away => ?_⟩
  · rw [putWords, sub64_base (by omega), put_ok (by omega)]
    exact put
  · cases i with
    | zero =>
      cases here
      rw [mul_zero, add_zero, Ram.load_congr fun x _ high => kept x (.inl high), Ram.load_store]
      exact mod_eq_of_lt (fits w mem_cons_self)
    | succ i =>
      rw [mul_succ, add_comm (8 * i), ← add_assoc]
      exact reads i v here
  · rw [kept x (by omega), Ram.store_outside (by omega)]

/-- From an aligned stack pointer up the page holds the words of the block, and above them the
strings the pointers address. -/
structure Framed (page : Ram) (base off : Nat) (mainMh : UInt64) (argv envp : List Bytes)
    (argvUva envpUva : List Nat) :
    Prop where
  aligned : (base + off) % 16 = 0
  words : ∀ i w, (frameWords mainMh argv.length argvUva envpUva)[i]? = some w →
    page.load (off + 8 * i) 8 = w
  count : argvUva.length = argv.length
  laid : Laid page base (off + 8 * (argv.length + envp.length + 5)) 0x1000 (argvUva ++ envpUva)
    (argv ++ envp)

theorem buildDyldArgStack_built {mainMh : UInt64} {argv envp : List Bytes}
    (small : base + 0x1000 < 2 ^ 64)
    (aligned : base % 16 = 0) (few : argv.length ≤ spawnArgvMax) (few' : envp.length ≤ spawnEnvMax)
    (fits : darwinFrameFits argv envp = true) : ∃ off page' argvUva envpUva,
      buildDyldArgStack page mainMh (base + 0x1000) argv envp = .ok (base + off, page') ∧
      Framed page' base off mainMh argv envp argvUva envpUva := by
  have enough := of_decide_eq_true fits
  obtain ⟨page₁, argvUva, packed₁, laid₁, -⟩ :=
    packStrings_laid false page argv small le_rfl (by omega)
  obtain ⟨page₂, envpUva, packed₂, laid₂, kept₂⟩ := packStrings_laid true page₁ envp small
    (sub_le 0x1000 (need argv)) (by omega)
  have laid :=
    (laid₁.mono le_rfl le_rfl fun x low _ => kept₂ x (.inr low)).append laid₂ (by omega) (by omega)
  have long : (frameWords mainMh argv.length argvUva envpUva).length =
      argv.length + envp.length + 5 := by
    simp [frameWords, laid₁.count, laid₂.count]
    omega
  have fit : ∀ w ∈ frameWords mainMh argv.length argvUva envpUva, w < 2 ^ 64 := by
    simp only [frameWords, mem_cons, mem_append, not_mem_nil, or_false, cons_append]
    rintro w (rfl | rfl | (arg | rfl | env) | rfl | rfl)
    · exact mainMh.toNat_lt
    · exact few.trans_lt (by decide)
    · exact (laid.below w (mem_append_left _ arg)).trans small
    · decide
    · exact (laid.below w (mem_append_right _ env)).trans small
    · decide
    · decide
  -- the block ends below the strings, and aligning it moves it down by less than the slack
  generalize limit : 0x1000 - need argv - need envp = o at *
  generalize nwords : argv.length + envp.length + 5 = n at *
  obtain ⟨off, rsp, low⟩ : ∃ off, (base + o - 8 * n) / 16 * 16 = base + off ∧ off + 8 * n ≤ o :=
    ⟨(base + o - 8 * n) / 16 * 16 - base, by omega, by omega⟩
  obtain ⟨page₃, put, reads, kept₃⟩ :=
    putWords_reads page₂ fit small (show off + 8 * _ ≤ _ by omega)
  have above := laid.mono low le_rfl fun x above _ => kept₃ x (.inr (by omega))
  refine ⟨off, page₃, argvUva, envpUva, ?_, by omega, reads, laid₁.count, nwords ▸ above⟩
  have top : sub64 (base + 0x1000) 0x1000 = base := by
    rw [sub64_le (Nat.le_add_left _ _) small, Nat.add_sub_cancel]
  unfold buildDyldArgStack
  rw [take_of_length_le few, take_of_length_le few', top]
  change (packStrings false base argv page (base + 0x1000)).bind _ = _
  rw [packed₁]
  change (packStrings true base envp page₁ _).bind _ = _
  rw [packed₂]
  change (if sub64 (base + o) base < _ then _ else if sub64 (base + o) _ / 16 * 16 < base
    then _ else
    (putWords base _ page₂ (sub64 (base + o) _ / 16 * 16)).bind _) = _
  rw [nwords, sub64_base (by omega), sub64_le (by omega) (by omega), rsp, if_neg (by omega),
    if_neg (by omega), put]
  rfl

theorem length_strings {copyin : Option ArgBlock} {beyond : Bytes} {kmalloc : Nat → Option Nat}
    {mem : UserMemory}
    {uargv maxPtrs maxBytes : Nat}
    (run : syscallCopyinVec kmalloc mem uargv maxPtrs maxBytes = .ok copyin) :
    (strings beyond copyin).length ≤ maxPtrs := by
  cases copyin with
  | none => exact zero_le _
  | some b =>
  obtain ⟨n, block, kargv, strs, rfl, counted, -⟩ := syscallCopyinVec_some run
  have few := countPtrs_le _ _ _ counted
  rw [strings, length_map, length_range]
  change n ≤ maxPtrs
  omega

/-- Whatever vectors are copied in, if they are found to fit, the frame is built: no store misses
the page, and from an aligned stack pointer up there are the header, the count, the addresses of the
arguments, 0, those of the environment and twice 0; each is the address of a copy of its string,
above the block and below the string before it. -/
theorem exec_frame_built (kmalloc kmalloc' : Nat → Option Nat) (mem mem' : UserMemory)
    (uargv uenvp : Nat)
    (kargv kenvp : Option ArgBlock) (beyond beyond' : Bytes) (page : Ram) (mainMh : UInt64)
    (args : syscallCopyinVec kmalloc mem uargv spawnArgvMax spawnArgBytesMax = .ok kargv)
    (env : syscallCopyinVec kmalloc' mem' uenvp spawnEnvMax spawnEnvBytesMax = .ok kenvp)
    (fits : darwinFrameFits (strings beyond kargv) (strings beyond' kenvp) = true) :
    ∃ off page' argvUva envpUva,
      buildDyldArgStack page mainMh darwinStackTop (strings beyond kargv) (strings beyond' kenvp) =
        .ok (topBase + off, page') ∧
      Framed page' topBase off mainMh (strings beyond kargv) (strings beyond' kenvp) argvUva
        envpUva :=
  buildDyldArgStack_built (by decide) (by decide : topBase % 16 = 0) (length_strings args)
    (length_strings env) fits

/-- Two arguments and an environment of one string. -/
theorem exec_frame_built_two : ∃ off page' argvUva envpUva,
    buildDyldArgStack (fun _ => 0) 0x40000000 darwinStackTop [[0x68, 0x69], [0x79, 0x6F]]
    [[0x79, 0x6F]] =
      .ok (topBase + off, page') ∧
      Framed page' topBase off 0x40000000 [[0x68, 0x69], [0x79, 0x6F]]
      [[0x79, 0x6F]] argvUva envpUva :=
  exec_frame_built some some (fun _ => twoStrings) (fun _ => twoStrings) userVaLo (userVaLo + 8)
    (some ⟨2, 536, 536, [560, 563, 0], [0x68, 0x69, 0, 0x79, 0x6F, 0]⟩)
    (some ⟨1, 2064, 2064, [2080, 0], [0x79, 0x6F, 0]⟩) [] [] (fun _ => 0) 0x40000000
    (by decide +kernel) (by decide +kernel) (by decide +kernel)

end Style9.Kern.ExecFrame
