import Style9.Load.Macho
import Style9.Vm.Frames

/-!
# ELF images, and what holds of every loader

`elf_load`: the header, the program headers and the segments they name. Here both the table of
program headers and the file range of a segment are sums of 64-bit fields.
-/
namespace Style9.Load

open Style9.Lib Style9.Vm

/-! ### The format -/

/-- `ELF_E_*`. -/
inductive ElfE where
  | truncated
  | badmag
  | badclass
  | badtype
  | badmach
  | nomem
  | map
  | badseg
  deriving DecidableEq

structure Elf64Ehdr where
  eIdent : Bytes
  eType : Nat
  eMachine : Nat
  eEntry : Nat
  ePhoff : Nat
  ePhentsize : Nat
  ePhnum : Nat

def Elf64Ehdr.parse (b : Bytes) : Elf64Ehdr where
  eIdent := b.take 16
  eType := rdLe 2 b 16
  eMachine := rdLe 2 b 18
  eEntry := rdLe 8 b 24
  ePhoff := rdLe 8 b 32
  ePhentsize := rdLe 2 b 54
  ePhnum := rdLe 2 b 56

structure Elf64Phdr where
  pType : Nat
  pFlags : Nat
  pOffset : Nat
  pVaddr : Nat
  pFilesz : Nat
  pMemsz : Nat
  pVaddrWord : pVaddr < 2 ^ 64
  pFileszWord : pFilesz < 2 ^ 64

def Elf64Phdr.parse (b : Bytes) : Elf64Phdr where
  pType := rdLe 4 b 0
  pFlags := rdLe 4 b 4
  pOffset := rdLe 8 b 8
  pVaddr := rdLe 8 b 16
  pFilesz := rdLe 8 b 32
  pMemsz := rdLe 8 b 40
  pVaddrWord := rdLe_lt 8 b 16
  pFileszWord := rdLe_lt 8 b 32

/-- The checks of `elf_load` before it looks at the program headers. -/
def Elf64Ehdr.check (eh : Elf64Ehdr) : Except ElfE Unit :=
  if eh.eIdent.take 4 ≠ [0x7F, 0x45, 0x4C, 0x46] then .error .badmag
  else if eh.eIdent.getD 4 0 ≠ 2 then .error .badclass
  else if eh.eIdent.getD 5 0 ≠ 1 then .error .badclass
  else if eh.eType ≠ 2 then .error .badtype
  else if eh.eMachine ≠ 62 then .error .badmach
  else if eh.ePhentsize ≠ 56 then .error .badseg
  else .ok ()

/-! ### The loader -/

/-- `load_segment` of `elf.c`. -/
def elfLoadSegment (t image size : Nat) (ph : Elf64Phdr) : Loader (Except ElfE Unit) := do
  if ph.pMemsz < ph.pFilesz then pure (.error .badseg)
  else if size < (ph.pOffset + ph.pFilesz) % 2 ^ 64 then pure (.error .truncated)
  else if (ph.pVaddr + ph.pMemsz) % 2 ^ 64 < ph.pVaddr then pure (.error .badseg)
  else do
    match ← mapImage t
      { segVa := ph.pVaddr, vmsize := ph.pMemsz, filesize := ph.pFilesz
        bytes := pointer image ph.pOffset
        prot := ⟨true, ph.pFlags.testBit 1, ph.pFlags.testBit 0, true⟩
        segVaWord := ph.pVaddrWord, filesizeWord := ph.pFileszWord } with
    | .ok => pure (.ok ())
    | .nomem => pure (.error .nomem)
    | .map => pure (.error .map)

/-- The loop of `elf_load` from program header `k` on, with `n` to go. -/
def programHeaders (t image size ePhoff : Nat) : Nat → Nat → Loader (Except ElfE Unit)
  | 0, _ => pure (.ok ())
  | n + 1, k => do
    let ph ← look (pointer image (ePhoff + k * 56)) 56 Elf64Phdr.parse
    if ph.pType ≠ 1 then programHeaders t image size ePhoff n (k + 1)
    else
      match ← elfLoadSegment t image size ph with
      | .error e => pure (.error e)
      | .ok () => programHeaders t image size ePhoff n (k + 1)

/-- `elf_load`: the entry. -/
def elfLoad (t image size : Nat) : Loader (Except ElfE Nat) := do
  if size < 64 then pure (.error .truncated)
  else do
    let eh ← look (pointer image 0) 64 Elf64Ehdr.parse
    match eh.check with
    | .error e => pure (.error e)
    | .ok () => do
      if size < (eh.ePhoff + eh.ePhnum * 56) % 2 ^ 64 then pure (.error .truncated)
      else
        match ← programHeaders t image size eh.ePhoff eh.ePhnum 0 with
        | .error e => pure (.error e)
        | .ok () => pure (.ok eh.eEntry)

/-! ### What the headers name -/

section

variable (ram : Frame → Nat → Byte) (image size : Nat)

abbrev Elf64Phdr.range (ph : Elf64Phdr) : FileRange :=
  ⟨image, size, ph.pOffset, ph.pFilesz, decide (ph.pType ≠ 1)⟩

abbrev Elf64Ehdr.table (eh : Elf64Ehdr) : FileRange :=
  ⟨image, size, eh.ePhoff, eh.ePhnum * 56, false⟩

def headerRanges (ePhoff : Nat) : Nat → Nat → List FileRange
  | 0, _ => []
  | n + 1, k =>
    (Elf64Phdr.parse (bytesAt ram (pointer image (ePhoff + k * 56)) 56)).range image size ::
    headerRanges ePhoff n (k + 1)

/-- The table of program headers, and what each of them names. -/
def elfRanges : List FileRange :=
  let eh := Elf64Ehdr.parse (bytesAt ram (pointer image 0) 64)
  if size < 64 ∨ eh.check.isOk = false then []
  else eh.table image size ::
    if size < (eh.ePhoff + eh.ePhnum * 56) % 2 ^ 64 then []
    else headerRanges ram image size eh.ePhoff eh.ePhnum 0

end

/-! ### Inside the image -/

section

variable {s₀ start : Memory} {src : Source s₀} {held : Multiset Frame} {fit : Prop} {i : Image}
  {t image size ePhoff : Nat}

theorem elfLoadSegment_confined {ph : Elf64Phdr} (used : ph.pType = 1) :
    Confined src start held fit (elfLoadSegment t image size ph) [ph.range image size] := by
  unfold elfLoadSegment
  split
  · exact .error _
  refine .compare (ph.range image size) _ (by simp [used]) fun _ inside => ?_
  split
  · exact .error _
  refine .mapImage inside fun result => ?_
  cases result with
  | ok | nomem | map => exact .pure _

theorem programHeaders_confined {n k total : Nat} (rest : k + n ≤ total)
    (table : fit → src.Allows (pointer image ePhoff) (total * 56)) :
    Confined src start held fit (programHeaders t image size ePhoff n k)
      (headerRanges s₀.ram image size ePhoff n k) := by
  induction n generalizing k with
  | zero => exact .pure _
  | succ n ih =>
  refine .look (fun fits => src.sub (table fits) (by omega) (by decide)) fun ph same => ?_
  have later := ih (k := k + 1) (by omega)
  have ranges : fit → [ph.range image size] ++ headerRanges s₀.ram image size ePhoff n (k + 1) =
      headerRanges s₀.ram image size ePhoff (n + 1) k := by
    intro fits
    rw [headerRanges, ← same fits]
    rfl
  split
  next other =>
    refine .congr ranges fun covers s safe => ?_
    refine (later (fun fits r member => covers fits r (List.mem_cons_of_mem _ member)) s safe).mono
      fun result s' after fits => ⟨(after fits).1, fun accepted => ?_⟩
    exact List.forall_mem_cons.mpr ⟨fun used => by simp [other] at used, (after fits).2 accepted⟩
  next used =>
    exact .congr ranges ((elfLoadSegment_confined (not_not.mp used)).bind (fun e => ⟨e, rfl⟩)
      fun _ => later)

theorem elfLoad_confined (holds : ∀ {a n}, i.Part a n → src.Allows a n) (part : i.Part image size) :
    Confined src start held fit (elfLoad t image size) (elfRanges s₀.ram image size) := by
  unfold elfLoad
  split
  · exact .error _
  next room =>
  refine .look (fun _ => holds (part.sub (by omega))) fun eh same => ?_
  cases checked : eh.check with
  | error e => exact .error _
  | ok _ =>
    refine .congr (fun fits => ?_) (.compare (eh.table image size)
      (if size < (eh.ePhoff + eh.ePhnum * 56) % 2 ^ 64 then []
        else headerRanges s₀.ram image size eh.ePhoff eh.ePhnum 0) rfl fun passes inside => ?_)
    · have accepted : ¬ (size < 64 ∨ eh.check.isOk = false) := by
        simp [checked, Except.isOk, Except.toBool, room]
      rw [elfRanges, ← same fits, if_neg accepted]
    · rw [if_neg (not_lt.mpr passes), ← List.append_nil (headerRanges ..)]
      exact (programHeaders_confined (by omega) inside).bind (fun e => ⟨e, rfl⟩) fun _ => .pure _

theorem elfRanges_part {ram : Frame → Nat → Byte} {r : FileRange} (part : i.Part image size)
    (member : r ∈ elfRanges ram image size) : i.Part r.base r.size := by
  have table {ePhoff n k : Nat} (listed : r ∈ headerRanges ram image size ePhoff n k) :
      i.Part r.base r.size := by
    induction n generalizing k with
    | zero => cases listed
    | succ n ih =>
      rcases List.mem_cons.mp listed with rfl | later
      · exact part
      · exact ih later
  unfold elfRanges at member
  dsimp only at member
  split at member
  · cases member
  rcases List.mem_cons.mp member with rfl | member
  · exact part
  split at member
  · cases member
  · exact table member

end

/-! ### The loaders -/

/-- The three entry points. -/
inductive Format where
  | macho
  | dylib (bias : Nat)
  | elf

def Format.load (format : Format) (t image size : Nat) : Loader Bool :=
  match format with
  | .macho => do pure (← machoLoad t image size).isOk
  | .dylib bias => do pure (← machoMapDylib t image size bias).isOk
  | .elf => do pure (← elfLoad t image size).isOk

/-- What the headers of an image name. -/
def Format.ranges (format : Format) (ram : Frame → Nat → Byte)
    (image size : Nat) : List FileRange :=
  match format with
  | .macho => machoRanges ram image size
  | .dylib _ => thinRanges ram image size machoMhDylib
  | .elf => elfRanges ram image size

theorem Format.ranges_part {i : Image} {ram : Frame → Nat → Byte} {r : FileRange} (format : Format)
    (member : r ∈ format.ranges ram i.base i.size) : i.Part r.base r.size := by
  have whole : i.Part i.base i.size := ⟨le_rfl, le_rfl⟩
  cases format with
  | macho => exact machoRanges_part whole member
  | dylib bias => exact thinRanges_part whole member
  | elf => exact elfRanges_part whole member

/-- A byte of the image, or zero. -/
def Image.Holds (i : Image) (ram : Frame → Nat → Byte) (b : Byte) : Prop :=
  b = 0 ∨ ∃ k < i.size, b = physByte ram (i.base + k)

instance (i : Image) (ram : Frame → Nat → Byte) (b : Byte) : Decidable (i.Holds ram b) :=
  inferInstanceAs (Decidable (b = 0 ∨ ∃ k < i.size, b = physByte ram (i.base + k)))

variable (off : Nat)

end Style9.Load
