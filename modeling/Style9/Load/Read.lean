import Style9.Lib.Bytes
import Style9.Vm.Tidy

/-!
# Reading an image

The loaders look at an image that is resident in the kernel, through pointers computed from header
fields of up to 64 bits. The state carries, beside memory, what was read, so that "stays inside the
image" is a statement about a run. What the headers name is a function of the bytes of the image;
as long as everything that they name, and that the loader lets through, lies where it may be read,
nothing else is read or mapped.
-/
namespace Style9.Load

open Style9.Lib Style9.Vm List Nat

/-! ### What a loader does -/

structure Loading where
  mem : Memory
  reads : List (Nat × Nat)

abbrev Loader : Type → Type := Act Loading Halt

def bytesAt (ram : Frame → Nat → Byte) (a n : Nat) : Bytes :=
  (List.range n).map fun i => physByte ram (a + i)

/-- Look at a structure of `n` bytes. -/
def look {α : Type} (a n : Nat) (parse : Bytes → α) : Loader α := fun s =>
  (.ok (parse (bytesAt s.mem.ram a n)), { s with reads := (a, n) :: s.reads })

/-- `vm_map_image` reads at most the bytes it is given. -/
def mapImage (t : Nat) (g : Segment) : Loader VmImage := fun s =>
  ((vmMapImage t g s.mem).1,
    { s with mem := (vmMapImage t g s.mem).2, reads := (g.bytes, g.filesize) :: s.reads })

def pointer (image off : Nat) : Nat := (image + off) % 2 ^ 64

/-! ### What a header names -/

/-- A range of a file that a header names: where the file is, or the slice of it, with its size; and
whether the loader passes over the range without looking at it. -/
structure FileRange where
  base : Nat
  size : Nat
  off : Nat
  len : Nat
  skipped : Bool
  deriving DecidableEq

namespace FileRange

variable (r : FileRange)

def Inside : Prop := r.off + r.len ≤ r.size

/-- The comparison of the loader, in 64 bits, lets the range through. -/
def Passes : Prop := (r.off + r.len) % 2 ^ 64 ≤ r.size

/-- What is let through is inside. -/
def Kept : Prop := r.skipped = true ∨ r.Passes → r.Inside

instance : Decidable r.Kept :=
  inferInstanceAs (Decidable (r.skipped = true ∨ (r.off + r.len) % 2 ^ 64 ≤ r.size →
    r.off + r.len ≤ r.size))

end FileRange

/-! ### Staying inside -/

/-- An image in kernel memory, which does not wrap around. -/
structure Image where
  base : Nat
  size : Nat
  small : base + size < 2 ^ 64

/-- The frames of an image were set aside at boot. -/
def Image.Resident (i : Image) (s : Memory) : Prop :=
  ∀ k < i.size, s.Reserved ((i.base + k) / vmPageSize)

/-- Part of an image: a slice, or all of it. -/
structure Image.Part (i : Image) (base size : Nat) : Prop where
  low : i.base ≤ base
  high : base + size ≤ i.base + i.size

/-- Where a load may read: memory that was set aside at boot. -/
structure Source (s₀ : Memory) where
  Allows : Nat → Nat → Prop
  reserved : ∀ {a n}, Allows a n → ∀ k < n, s₀.Reserved ((a + k) / vmPageSize)
  bounded : ∀ {a n}, Allows a n → a + n ≤ 2 ^ 64
  part : ∀ {a n j m}, Allows a n → j + m ≤ n → Allows (a + j) m

/-- A byte of what may be read, or zero. -/
def Source.Holds {s₀ : Memory} (src : Source s₀) (b : Byte) : Prop :=
  b = 0 ∨ ∃ a, src.Allows a 1 ∧ b = physByte s₀.ram a

/-- What is let through may be read. -/
def Source.Covers {s₀ : Memory} (src : Source s₀) (r : FileRange) : Prop :=
  r.skipped = false → r.Passes → src.Allows (pointer r.base r.off) r.len

/-- The image and nothing else. -/
def Image.source {s₀ : Memory} (i : Image) (resident : i.Resident s₀) : Source s₀ where
  Allows := i.Part
  reserved {a n} part k below := by
    have low := part.low
    have high := part.high
    have here := resident (a + k - i.base) (by omega)
    rwa [Nat.add_sub_cancel' (by omega)] at here
  bounded part := by
    have high := part.high
    have small := i.small
    omega
  part part within := ⟨by have := part.low; omega, by have := part.high; omega⟩

/-- Everything that was set aside at boot. -/
def reservedSource (s₀ : Memory) : Source s₀ where
  Allows a n := a + n ≤ 2 ^ 64 ∧ ∀ k < n, s₀.Reserved ((a + k) / vmPageSize)
  reserved allowed := allowed.2
  bounded allowed := allowed.1
  part allowed within := by
    refine ⟨by have := allowed.1; omega, fun k below => ?_⟩
    rw [Nat.add_assoc]
    exact allowed.2 _ (by omega)

/-- A page is mapped with the protection of the entry it lies under. -/
def Exact (s : Memory) (t a : Nat) (l : Leaf) : Prop :=
  ∃ e, vmMapLookup (s.entries t) a = some e ∧ e.vmeProt = l.prot

variable {s₀ : Memory}

/-- Since a start nothing but the source has been read, and nothing but bytes of it and zeros has
been mapped. -/
structure Safe (src : Source s₀) (start : Memory) (held : Multiset Frame) (s : Loading) : Prop where
  ok : VmOk s.mem held
  tidy : ∀ R, Tidy R start → Tidy R s.mem
  frames : ∀ f, s₀.Reserved f → s.mem.Reserved f
  ram : ∀ f, s₀.Reserved f → s.mem.ram f = s₀.ram f
  reads : ∀ r ∈ s.reads, src.Allows r.1 r.2
  covered : ∀ x a e, vmMapLookup (start.entries x) a = some e →
    vmMapLookup (s.mem.entries x) a = some e
  fresh : ∀ x a l, s.mem.leaf x a = some l → start.leaf x a = some l ∨
    Exact s.mem x a l ∧ ∀ k < vmPageSize, src.Holds (s.mem.ram l.pa k)

theorem Image.Part.pointer {i : Image} {base size off : Nat} (part : i.Part base size)
    (inside : off ≤ size) : Load.pointer base off = base + off := by
  have high := part.high
  have small := i.small
  exact mod_eq_of_lt (by omega)

theorem Image.Part.sub {i : Image} {base size off len : Nat} (part : i.Part base size)
    (inside : off + len ≤ size) : i.Part (Load.pointer base off) len := by
  have low := part.low
  have high := part.high
  rw [part.pointer (by omega)]
  exact ⟨by omega, by omega⟩

/-- A place in something that may be read, by its offset. -/
theorem Source.sub (src : Source s₀) {base off j m n : Nat}
    (allowed : src.Allows (pointer base off) n)
    (within : j + m ≤ n) (some : 0 < m) : src.Allows (pointer base (off + j)) m := by
  have bound := src.bounded allowed
  have same : pointer base (off + j) = pointer base off + j := by
    unfold pointer at *
    omega
  rw [same]
  exact src.part allowed within

variable {src : Source s₀} {start : Memory} {held : Multiset Frame} {fit : Prop} {s s' : Loading}
  {α : Type} {t : Nat} {g : Segment}

theorem Safe.begun (ok : VmOk start held) (frames : ∀ f, s₀.Reserved f → start.Reserved f)
    (ram : ∀ f, s₀.Reserved f → start.ram f = s₀.ram f) : Safe src start held ⟨start, []⟩ where
  ok := ok
  tidy _ tidy := tidy
  frames := frames
  ram := ram
  reads _ member := absurd member not_mem_nil
  covered _ _ _ found := found
  fresh _ _ _ present := .inl present

/-- What may be read is what it was. -/
theorem Safe.physByte (safe : Safe src start held s) {a : Nat} (allowed : src.Allows a 1) :
    physByte s.mem.ram a = physByte s₀.ram a := by
  unfold Vm.physByte
  have used := src.reserved allowed 0 one_pos
  rw [Nat.add_zero] at used
  rw [safe.ram _ used]

theorem Safe.bytesAt (safe : Safe src start held s) {a n : Nat} (allowed : src.Allows a n) :
    bytesAt s.mem.ram a n = bytesAt s₀.ram a n := by
  refine map_congr_left fun k member => ?_
  rw [List.mem_range] at member
  exact safe.physByte (src.part allowed (by omega))

/-- A segment whose bytes may be read is mapped, or refused by the map. -/
theorem Safe.mapImage {result : VmImage} {mem : Memory} (safe : Safe src start held s)
    (allowed : src.Allows g.bytes g.filesize) (run : vmMapImage t g s.mem = (.ok result, mem)) :
    Safe src start held { s with mem := mem, reads := (g.bytes, g.filesize) :: s.reads } := by
  have settled : g.Resident s.mem := fun k below => safe.frames _ (src.reserved allowed k below)
  obtain ⟨ok, mapped⟩ := vmMapImage_spec safe.ok settled run
  refine ⟨ok, fun R tidy => ?_, fun f aside => ?_, fun f aside => ?_, fun r member => ?_,
    fun x a e found => mapped.covered x a e (safe.covered x a e found), fun x a l present => ?_⟩
  · exact vmMapImage_tidy.ok (safe.tidy R tidy) run
  · have kept := mapped.frames f (safe.frames f aside).1
    exact ⟨kept.1, kept.2.trans (safe.frames f aside).2⟩
  · exact (mapped.ram f (safe.frames f aside).1).trans (safe.ram f aside)
  · rcases mem_cons.mp member with rfl | member
    · exact allowed
    · exact safe.reads r member
  rcases mapped.fresh x a l present with old | ⟨-, exactly, bytes⟩
  · -- a page mapped before keeps its entry, and its bytes: its frame is in use
    rw [mapped.ram l.pa (safe.ok.toOwned.used_of_leaf old)]
    refine (safe.fresh x a l old).imp_right fun new => ⟨?_, new.2⟩
    obtain ⟨e, found, prot⟩ := new.1
    exact ⟨e, mapped.covered x a e found, prot⟩
  refine .inr ⟨exactly, fun k small => ?_⟩
  rcases bytes k small with zero | ⟨j, below, byte⟩
  · exact .inl zero
  have here := src.part allowed (show j + 1 ≤ g.filesize from below)
  exact .inr ⟨_, here, byte.trans (safe.physByte here)⟩

/-- The piece returns with `Q`: nothing stops the machine. -/
abbrev Leads (x : Loader α) (s : Loading) (Q : α → Loading → Prop) : Prop :=
  x.Yields (fun _ => False) s Q

/-- A piece of a loader whose headers name some ranges. It returns; if the assumption `fit` holds,
under which all that is let through may be read, it is safe, and what it accepts has been let
through. -/
def Confined (src : Source s₀) (start : Memory) (held : Multiset Frame) (fit : Prop) {ε α : Type}
    (x : Loader (Except ε α)) (ranges : List FileRange) : Prop :=
  (fit → ∀ r ∈ ranges, src.Covers r) → ∀ s, (fit → Safe src start held s) →
    Leads x s fun result s' => fit →
      Safe src start held s' ∧ (result.isOk = true → ∀ r ∈ ranges, r.skipped = false → r.Passes)

namespace Confined

variable {ε ε' β : Type} {ranges more : List FileRange} {x : Loader (Except ε α)}
  {f : β → Loader (Except ε α)}

theorem error (e : ε) :
    Confined src start held fit (Pure.pure (.error e) : Loader (Except ε α)) ranges :=
  fun _ _ safe => .pure fun fits => ⟨safe fits, nofun⟩

/-- Ranges that are passed over. -/
theorem skip (all : ∀ r ∈ ranges, r.skipped = true) (result : Except ε α) :
    Confined src start held fit (Pure.pure result) ranges :=
  fun _ _ safe => .pure fun fits => ⟨safe fits, fun _ r member used => by
    cases (all r member).symm.trans used⟩

theorem pure (result : Except ε α) : Confined src start held fit (Pure.pure result) [] :=
  .skip (fun _ member => absurd member not_mem_nil) result

theorem congr (same : fit → ranges = more) (confined : Confined src start held fit x ranges) :
    Confined src start held fit x more := by
  intro covers s safe
  refine (confined (fun fits => same fits ▸ covers fits) s safe).mono fun r s' after fits => ?_
  exact same fits ▸ after fits

theorem look {a n : Nat} {parse : Bytes → β} (inside : fit → src.Allows a n)
    (rest : ∀ b, (fit → b = parse (bytesAt s₀.ram a n)) →
      Confined src start held fit (f b) ranges) :
    Confined src start held fit (Load.look a n parse >>= f) ranges := by
  intro covers s safe
  refine .after rfl (rest _ (fun fits => ?_) covers _ fun fits => ?_)
  · rw [(safe fits).bytesAt (inside fits)]
  · refine { safe fits with reads := fun r member => ?_ }
    rcases mem_cons.mp member with rfl | member
    · exact inside fits
    · exact (safe fits).reads r member

theorem mapImage {f : VmImage → Loader (Except ε α)} (inside : fit → src.Allows g.bytes g.filesize)
    (rest : ∀ b, Confined src start held fit (f b) ranges) :
    Confined src start held fit (Load.mapImage t g >>= f) ranges := by
  intro covers s safe
  obtain ⟨result, mem, run⟩ := vmMapImage_returns t g s.mem
  have ran : Load.mapImage t g s =
      (.ok result, { s with mem := mem, reads := (g.bytes, g.filesize) :: s.reads }) := by
    unfold Load.mapImage
    rw [run]
  exact .after ran (rest result covers _ fun fits => (safe fits).mapImage (inside fits) run)

theorem bind {f : Except ε α → Loader (Except ε' β)} (first : Confined src start held fit x ranges)
    (stops : ∀ e, ∃ e', f (.error e) = Pure.pure (.error e'))
    (rest : ∀ a, Confined src start held fit (f (.ok a)) more) :
    Confined src start held fit (x >>= f) (ranges ++ more) := by
  intro covers s safe
  refine (first (fun fits r member => covers fits r (mem_append_left _ member)) s safe).bind
    fun r s' after => ?_
  cases r with
  | error e =>
    obtain ⟨e', refuses⟩ := stops e
    rw [refuses]
    exact .pure fun fits => ⟨(after fits).1, nofun⟩
  | ok a =>
    refine (rest a (fun fits r member => covers fits r (mem_append_right _ member)) s'
      fun fits => (after fits).1).mono fun r s'' later fits => ⟨(later fits).1,
        fun accepted r member => ?_⟩
    rcases mem_append.mp member with early | late
    · exact (after fits).2 rfl r early
    · exact (later fits).2 accepted r late

/-- A range is compared with the size: what passes may be read. -/
theorem compare (r : FileRange) (more : List FileRange) {e : ε} (used : r.skipped = false)
    (rest : r.Passes → (fit → src.Allows (pointer r.base r.off) r.len) →
      Confined src start held fit x more) :
    Confined src start held fit (if r.size < (r.off + r.len) % 2 ^ 64 then Pure.pure (.error e)
      else x)
      (r :: more) := by
  split
  · exact .error e
  next passes =>
  have passes : r.Passes := not_lt.mp passes
  intro covers s safe
  refine (rest passes (fun fits => covers fits r mem_cons_self used passes)
    (fun fits r member => covers fits r (mem_cons_of_mem _ member)) s safe).mono
    fun result s' after fits => ⟨(after fits).1, fun accepted => ?_⟩
  exact forall_mem_cons.mpr ⟨fun _ => passes, (after fits).2 accepted⟩

end Confined

end Style9.Load
