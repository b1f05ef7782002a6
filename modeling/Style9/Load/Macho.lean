import Style9.Load.Read

/-!
# Mach-O images

`macho_load` and `macho_map_dylib`: the slice of a fat archive, the header and the load commands of
a thin image, and the segments they name. Offsets into the command area are sums of 32-bit fields
that were compared against its end; the file range of a segment is a sum of two 64-bit fields.
-/
namespace Style9.Load

open Style9.Lib Style9.Vm

/-! ### The format -/

/-- `MACHO_E_*`. -/
inductive MachoE where
  | truncated
  | badmag
  | badcpu
  | badtype
  | nomem
  | map
  | badcmd
  | noentry
  deriving DecidableEq

def machoMagic64 : Nat := 0xFEEDFACF
def machoFatMagic : Nat := 0xCAFEBABE
def machoFatCigam : Nat := 0xBEBAFECA
def machoCpuTypeX8664 : Nat := 0x01000007
def machoMhExecute : Nat := 0x2
def machoMhDylib : Nat := 0x6
def machoLcSegment64 : Nat := 0x19
def machoLcUnixthread : Nat := 0x5
def machoLcLoadDylinker : Nat := 0xE
def machoLcMain : Nat := 0x80000028
def machoLcBuildVersion : Nat := 0x32
def machoPlatformMacos : Nat := 1
def machoX86ThreadState64 : Nat := 4
def machoX86ThreadState64Count : Nat := 42
def machoImageBase : Nat := 0x50000000

structure MachHeader64 where
  magic : Nat
  cputype : Nat
  filetype : Nat
  ncmds : Nat
  sizeofcmds : Nat

variable (b : Bytes)

def MachHeader64.parse : MachHeader64 where
  magic := rdLe 4 b 0
  cputype := rdLe 4 b 4
  filetype := rdLe 4 b 12
  ncmds := rdLe 4 b 16
  sizeofcmds := rdLe 4 b 20

structure MachLoadCommand where
  cmd : Nat
  cmdsize : Nat

def MachLoadCommand.parse : MachLoadCommand := ⟨rdLe 4 b 0, rdLe 4 b 4⟩

structure MachSegmentCommand64 where
  vmaddr : Nat
  vmsize : Nat
  fileoff : Nat
  filesize : Nat
  initprot : Nat
  filesizeWord : filesize < 2 ^ 64

def MachSegmentCommand64.parse : MachSegmentCommand64 where
  vmaddr := rdLe 8 b 24
  vmsize := rdLe 8 b 32
  fileoff := rdLe 8 b 40
  filesize := rdLe 8 b 48
  initprot := rdLe 4 b 60
  filesizeWord := rdLe_lt 8 b 48

/-- Byte-swap a field of a fat header. -/
@[irreducible] def be32 (v : Nat) : Nat := leNat (leBytes 4 v).reverse

theorem be32_lt (v : Nat) : be32 v < 2 ^ 32 := by
  have bound := leNat_lt (leBytes 4 v).reverse
  rw [List.length_reverse, length_leBytes] at bound
  unfold be32
  exact bound

structure MachFatArch where
  cputype : Nat
  offset : Nat
  size : Nat
  offsetWord : offset < 2 ^ 32
  sizeWord : size < 2 ^ 32

def MachFatArch.parse : MachFatArch where
  cputype := be32 (rdLe 4 b 0)
  offset := be32 (rdLe 4 b 8)
  size := be32 (rdLe 4 b 12)
  offsetWord := be32_lt _
  sizeWord := be32_lt _

/-! ### Segments -/

/-- `load_segment` of `macho.c`. -/
def machoLoadSegment (t image size : Nat) (sg : MachSegmentCommand64)
    (bias : Nat) : Loader (Except MachoE Unit) := do
  if sg.initprot = 0 ∨ sg.vmsize = 0 then pure (.ok ())
  else if sg.vmsize < sg.filesize then pure (.error .badcmd)
  else if size < (sg.fileoff + sg.filesize) % 2 ^ 64 then pure (.error .truncated)
  else if (bias + sg.vmaddr + sg.vmsize) % 2 ^ 64 < (bias + sg.vmaddr) % 2 ^ 64 then
    pure (.error .badcmd)
  else do
    match ← mapImage t
      { segVa := (bias + sg.vmaddr) % 2 ^ 64, vmsize := sg.vmsize, filesize := sg.filesize
        bytes := pointer image sg.fileoff
        prot := ⟨sg.initprot.testBit 0, sg.initprot.testBit 1, sg.initprot.testBit 2, true⟩
        segVaWord := Nat.mod_lt _ (by decide), filesizeWord := sg.filesizeWord } with
    | .ok => pure (.ok ())
    | .nomem => pure (.error .nomem)
    | .map => pure (.error .map)

/-! ### A thin image -/

/-- The variables of `load_thin`. -/
structure Thin where
  baseVmaddr : Nat
  entry : Nat
  loadBias : Nat
  mainEntryoff : Nat
  darwinPlatform : Bool
  haveBase : Bool
  haveMain : Bool
  haveThread : Bool
  needsDyld : Bool

def Thin.start : Thin := ⟨0, 0, 0, 0, false, false, false, false, false⟩

/-- The bias is chosen at the first segment that holds the start of the file. -/
def Thin.segment (st : Thin) (sg : MachSegmentCommand64) : Thin :=
  if sg.fileoff = 0 ∧ 0 < sg.filesize ∧ !st.haveBase then
    let bias := if sg.vmaddr < vmUserVaLo ∨ vmUserVaHi ≤ sg.vmaddr then
      (machoImageBase + 2 ^ 64 - sg.vmaddr) % 2 ^ 64 else st.loadBias
    { st with loadBias := bias, baseVmaddr := (sg.vmaddr + bias) % 2 ^ 64, haveBase := true }
  else st

/-- One load command of `load_thin`. -/
def thinCommand (t image size off : Nat) (lc : MachLoadCommand)
    (st : Thin) : Loader (Except MachoE Thin) := do
  if lc.cmd = machoLcSegment64 then
    if lc.cmdsize < 72 then pure (.error .badcmd)
    else do
      let sg ← look (pointer image off) 72 MachSegmentCommand64.parse
      let st := st.segment sg
      match ← machoLoadSegment t image size sg st.loadBias with
      | .error e => pure (.error e)
      | .ok () => pure (.ok st)
  else if lc.cmd = machoLcUnixthread then
    if lc.cmdsize < 16 + 168 then pure (.error .badcmd)
    else do
      let (flavor, count) ← look (pointer image off) 16 fun b => (rdLe 4 b 8, rdLe 4 b 12)
      if flavor ≠ machoX86ThreadState64 ∨ count ≠ machoX86ThreadState64Count
        then pure (.error .badcmd)
      else do
        let rip ← look (pointer image (off + 16)) 168 fun b => rdLe 8 b 128
        pure (.ok { st with entry := rip, haveThread := true })
  else if lc.cmd = machoLcMain then
    if lc.cmdsize < 24 then pure (.error .badcmd)
    else do
      let entryoff ← look (pointer image off) 24 fun b => rdLe 8 b 8
      pure (.ok { st with mainEntryoff := entryoff, haveMain := true })
  else if lc.cmd = machoLcBuildVersion then
    if lc.cmdsize < 24 then pure (.error .badcmd)
    else do
      let platform ← look (pointer image off) 24 fun b => rdLe 4 b 8
      pure (.ok (if platform = machoPlatformMacos then { st with darwinPlatform := true } else st))
  else if lc.cmd = machoLcLoadDylinker then
    if lc.cmdsize < 12 then pure (.error .badcmd) else pure (.ok { st with needsDyld := true })
  else pure (.ok st)

/-- The command walk shared by `load_thin` and `macho_map_dylib`: `n` commands to go, the next at
`off`, and the area ends at `stop`. -/
def walkCommands {σ : Type} (image stop : Nat)
    (command : Nat → MachLoadCommand → σ → Loader (Except MachoE σ)) :
    Nat → Nat → σ → Loader (Except MachoE σ)
  | 0, _, st => pure (.ok st)
  | n + 1, off, st => do
    if stop < off + 8 then pure (.error .badcmd)
    else do
      let lc ← look (pointer image off) 8 MachLoadCommand.parse
      if lc.cmdsize < 8 ∨ stop < off + lc.cmdsize then pure (.error .badcmd)
      else
        match ← command off lc st with
        | .error e => pure (.error e)
        | .ok st => walkCommands image stop command n (off + lc.cmdsize) st

/-- The header checks shared by `load_thin` and `macho_map_dylib`. -/
def MachHeader64.check (mh : MachHeader64) (filetype size : Nat) : Except MachoE Unit :=
  if mh.magic ≠ machoMagic64 then .error .badmag
  else if mh.cputype ≠ machoCpuTypeX8664 then .error .badcpu
  else if mh.filetype ≠ filetype then .error .badtype
  else if size < 32 + mh.sizeofcmds then .error .truncated
  else .ok ()

inductive Personality where
  | style9
  | darwin
  deriving DecidableEq

/-- `struct macho_load_result`, and the personality the task is stamped with. -/
structure MachoLoadResult where
  entry : Nat
  imageBase : Nat
  needsDyld : Bool
  personality : Personality
  deriving DecidableEq

/-- The end of `load_thin`: `LC_UNIXTHREAD` wins. -/
def Thin.result (st : Thin) : Except MachoE MachoLoadResult :=
  let personality := if st.darwinPlatform then .darwin else .style9
  if st.haveThread then .ok ⟨(st.entry + st.loadBias) % 2 ^ 64, st.baseVmaddr, st.needsDyld,
    personality⟩
  else if st.haveMain && st.haveBase then
    .ok ⟨(st.baseVmaddr + st.mainEntryoff) % 2 ^ 64, st.baseVmaddr, st.needsDyld, personality⟩
  else .error .noentry

/-- The body shared by `load_thin` and `macho_map_dylib`: the header, the commands, and what is made
of them. -/
def walkImage {σ α : Type} (image size filetype : Nat)
    (command : Nat → MachLoadCommand → σ → Loader (Except MachoE σ)) (st : σ)
    (done : σ → Except MachoE α) : Loader (Except MachoE α) := do
  if size < 32 then pure (.error .truncated)
  else do
    let mh ← look (pointer image 0) 32 MachHeader64.parse
    match mh.check filetype size with
    | .error e => pure (.error e)
    | .ok () => do
      match ← walkCommands image (32 + mh.sizeofcmds) command mh.ncmds 32 st with
      | .error e => pure (.error e)
      | .ok st => pure (done st)

def loadThin (t image size : Nat) : Loader (Except MachoE MachoLoadResult) :=
  walkImage image size machoMhExecute (thinCommand t image size) Thin.start Thin.result

/-! ### Fat archives and libraries -/

/-- The slice loop of `load_fat`, with `n` headers to go. -/
def pickSlice (t image size : Nat) : Nat → Nat → Loader (Except MachoE MachoLoadResult)
  | 0, _ => pure (.error .badcpu)
  | n + 1, i => do
    if size < 8 + i * 20 + 20 then pure (.error .truncated)
    else do
      let fa ← look (pointer image (8 + i * 20)) 20 MachFatArch.parse
      if fa.cputype ≠ machoCpuTypeX8664 then pickSlice t image size n (i + 1)
      else if size < (fa.offset + fa.size) % 2 ^ 64 then pure (.error .truncated)
      else if fa.size < 32 then pure (.error .truncated)
      else loadThin t (pointer image fa.offset) fa.size

def loadFat (t image size : Nat) : Loader (Except MachoE MachoLoadResult) := do
  if size < 8 then pure (.error .truncated)
  else do
    let narch ← look (pointer image 0) 8 fun b => be32 (rdLe 4 b 4)
    if narch = 0 ∨ 64 < narch then pure (.error .badcmd) else pickSlice t image size narch 0

def machoLoad (t image size : Nat) : Loader (Except MachoE MachoLoadResult) := do
  if size < 4 then pure (.error .truncated)
  else do
    let magic ← look (pointer image 0) 4 fun b => rdLe 4 b 0
    if magic = machoFatMagic ∨ magic = machoFatCigam then loadFat t image size
      else loadThin t image size

/-- One load command of `macho_map_dylib`; the state is the end of the span so far. -/
def dylibCommand (t image size bias off : Nat) (lc : MachLoadCommand)
    (spanEnd : Nat) : Loader (Except MachoE Nat) := do
  if lc.cmd = machoLcSegment64 then
    if lc.cmdsize < 72 then pure (.error .badcmd)
    else do
      let sg ← look (pointer image off) 72 MachSegmentCommand64.parse
      match ← machoLoadSegment t image size sg bias with
      | .error e => pure (.error e)
      | .ok () => pure (.ok (max spanEnd ((bias + sg.vmaddr + sg.vmsize) % 2 ^ 64)))
  else pure (.ok spanEnd)

/-- `macho_map_dylib`: the page-rounded span. -/
def machoMapDylib (t image size bias : Nat) : Loader (Except MachoE Nat) :=
  walkImage image size machoMhDylib (dylibCommand t image size bias) bias fun spanEnd =>
    .ok (Word.vmAlignUp ((spanEnd + 2 ^ 64 - bias) % 2 ^ 64))

/-! ### What the headers name -/

section

variable (ram : Frame → Nat → Byte) (image size : Nat)

abbrev MachSegmentCommand64.range (sg : MachSegmentCommand64) : FileRange where
  base := image
  size := size
  off := sg.fileoff
  len := sg.filesize
  skipped := decide (sg.initprot = 0 ∨ sg.vmsize = 0)

/-- The range of a command, if it is a segment. -/
def commandRange (off : Nat) (lc : MachLoadCommand) : List FileRange :=
  if lc.cmd = machoLcSegment64 ∧ 72 ≤ lc.cmdsize then
    [(MachSegmentCommand64.parse (bytesAt ram (pointer image off) 72)).range image size]
  else []

def commandRanges (stop : Nat) : Nat → Nat → List FileRange
  | 0, _ => []
  | n + 1, off =>
    let lc := MachLoadCommand.parse (bytesAt ram (pointer image off) 8)
    if stop < off + 8 ∨ lc.cmdsize < 8 ∨ stop < off + lc.cmdsize then []
    else commandRange ram image size off lc ++ commandRanges stop n (off + lc.cmdsize)

/-- The ranges of a thin image, or of a library. -/
def thinRanges (filetype : Nat) : List FileRange :=
  let mh := MachHeader64.parse (bytesAt ram (pointer image 0) 32)
  if size < 32 ∨ (mh.check filetype size).isOk = false then []
  else commandRanges ram image size (32 + mh.sizeofcmds) mh.ncmds 32

def sliceRanges : Nat → Nat → List FileRange
  | 0, _ => []
  | n + 1, i =>
    let fa := MachFatArch.parse (bytesAt ram (pointer image (8 + i * 20)) 20)
    if size < 8 + i * 20 + 20 then []
    else if fa.cputype ≠ machoCpuTypeX8664 then sliceRanges n (i + 1)
    else ⟨image, size, fa.offset, fa.size, false⟩ ::
      if size < fa.offset + fa.size ∨ fa.size < 32 then []
      else thinRanges ram (pointer image fa.offset) fa.size machoMhExecute

def machoRanges : List FileRange :=
  let magic := rdLe 4 (bytesAt ram (pointer image 0) 4) 0
  let narch := be32 (rdLe 4 (bytesAt ram (pointer image 0) 8) 4)
  if size < 4 then []
  else if magic = machoFatMagic ∨ magic = machoFatCigam then
    if size < 8 ∨ narch = 0 ∨ 64 < narch then [] else sliceRanges ram image size narch 0
  else thinRanges ram image size machoMhExecute

end

/-! ### Inside the image -/

section

variable {s₀ start : Memory} {src : Source s₀} {held : Multiset Frame} {fit : Prop} {i : Image}
  {t image size off bias : Nat} {lc : MachLoadCommand}
  (holds : ∀ {a n}, i.Part a n → src.Allows a n) (part : i.Part image size)

omit part holds in
theorem machoLoadSegment_confined (sg : MachSegmentCommand64) :
    Confined src start held fit (machoLoadSegment t image size sg bias) [sg.range image size] := by
  unfold machoLoadSegment
  split
  next skips => exact .skip (List.forall_mem_singleton.mpr (decide_eq_true skips)) _
  next used =>
  split
  · exact .error _
  refine .compare (sg.range image size) _ (decide_eq_false used) fun _ inside => ?_
  split
  · exact .error _
  refine .mapImage inside fun result => ?_
  cases result with
  | ok | nomem | map => exact .pure _

include holds part

theorem walkCommands_confined {σ : Type} {stop n : Nat}
    {command : Nat → MachLoadCommand → σ → Loader (Except MachoE σ)} {st : σ} (area : stop ≤ size)
    (step : ∀ off lc st, off + lc.cmdsize ≤ size → Confined src start held fit (command off lc st)
      (commandRange s₀.ram image size off lc)) :
    Confined src start held fit (walkCommands image stop command n off st)
      (commandRanges s₀.ram image size stop n off) := by
  induction n generalizing off st with
  | zero => exact .pure _
  | succ n ih =>
  unfold walkCommands
  split
  · exact .error _
  next room =>
  refine .look (fun _ => holds (part.sub (by omega))) fun lc same => ?_
  split
  · exact .error _
  next bounded =>
  refine .congr (fun fits => ?_)
    ((step off lc st (by omega)).bind (fun e => ⟨e, rfl⟩) fun _ => ih)
  have here := same fits
  rw [commandRanges, ← here, if_neg (by omega)]

/-- A command that is a segment, of a thin image or of a library. -/
theorem segment_confined {σ : Type} {f : MachSegmentCommand64 → Loader (Except MachoE σ)}
    (inside : off + lc.cmdsize ≤ size) (segment : lc.cmd = machoLcSegment64)
    (rest : ∀ sg, Confined src start held fit (f sg) [sg.range image size]) :
    Confined src start held fit (if lc.cmdsize < 72 then pure (.error .badcmd) else do
      let sg ← look (pointer image off) 72 MachSegmentCommand64.parse
      f sg) (commandRange s₀.ram image size off lc) := by
  split
  · exact .error _
  next room =>
  refine .look (fun _ => holds (part.sub (by omega))) fun sg same =>
    .congr (fun fits => ?_) (rest sg)
  rw [commandRange, if_pos ⟨segment, by omega⟩, same fits]

omit holds part in
/-- Any other command. -/
theorem other_confined {σ : Type} {x : Loader (Except MachoE σ)} (other : lc.cmd ≠ machoLcSegment64)
    (confined : Confined src start held fit x []) :
    Confined src start held fit x (commandRange s₀.ram image size off lc) := by
  rwa [commandRange, if_neg fun both => other both.1]

theorem thinCommand_confined {st : Thin} (inside : off + lc.cmdsize ≤ size) :
    Confined src start held fit (thinCommand t image size off lc st)
      (commandRange s₀.ram image size off lc) := by
  unfold thinCommand
  split
  next segment =>
    exact segment_confined holds part inside segment fun sg =>
      (machoLoadSegment_confined sg).bind (fun e => ⟨e, rfl⟩) fun _ => .pure _
  next other =>
  refine other_confined other ?_
  split
  · -- the registers of the first thread
    split
    · exact .error _
    refine .look (fun _ => holds (part.sub (by omega))) fun flavor _ => ?_
    dsimp only
    split
    · exact .error _
    · exact .look (fun _ => holds (part.sub (by omega))) fun rip _ => .pure _
  split
  · split
    · exact .error _
    · exact .look (fun _ => holds (part.sub (by omega))) fun entryoff _ => .pure _
  split
  · split
    · exact .error _
    · exact .look (fun _ => holds (part.sub (by omega))) fun platform _ => .pure _
  split
  · split
    · exact .error _
    · exact .pure _
  · exact .pure _

omit holds part in
theorem MachHeader64.check_ok {mh : MachHeader64} {filetype : Nat}
    (passed : mh.check filetype size = .ok ()) : 32 + mh.sizeofcmds ≤ size := by
  unfold MachHeader64.check at passed
  split at passed
  · cases passed
  split at passed
  · cases passed
  split at passed
  · cases passed
  split at passed
  · cases passed
  · omega

theorem walkImage_confined {σ α : Type} {filetype : Nat} {st : σ} {done : σ → Except MachoE α}
    {command : Nat → MachLoadCommand → σ → Loader (Except MachoE σ)}
    (step : ∀ off lc st, off + lc.cmdsize ≤ size → Confined src start held fit (command off lc st)
      (commandRange s₀.ram image size off lc)) :
    Confined src start held fit (walkImage image size filetype command st done)
      (thinRanges s₀.ram image size filetype) := by
  unfold walkImage
  split
  · exact .error _
  next room =>
  refine .look (fun _ => holds (part.sub (by omega))) fun mh same => ?_
  cases checked : mh.check filetype size with
  | error e => exact .error _
  | ok _ =>
    refine .congr (fun fits => ?_) (.bind (walkCommands_confined holds part
      (MachHeader64.check_ok checked) step) (fun e => ⟨e, rfl⟩) fun st => .pure _)
    rw [thinRanges, ← same fits, if_neg, List.append_nil]
    rw [checked]
    simp [Except.isOk, Except.toBool, room]

theorem loadThin_confined : Confined src start held fit (loadThin t image size)
    (thinRanges s₀.ram image size machoMhExecute) :=
  walkImage_confined holds part fun _ _ _ inside => thinCommand_confined holds part inside

theorem pickSlice_confined {n k : Nat} : Confined src start held fit (pickSlice t image size n k)
    (sliceRanges s₀.ram image size n k) := by
  induction n generalizing k with
  | zero => exact .pure _
  | succ n ih =>
  unfold pickSlice
  split
  · exact .error _
  next room =>
  refine .look (fun _ => holds (part.sub (by omega))) fun fa same => ?_
  split
  next other =>
    refine .congr (fun fits => ?_) ih
    rw [sliceRanges, ← same fits, if_neg room, if_pos other]
  next picked =>
  -- the fields of a fat header have 32 bits, so their sum does not wrap
  have first := fa.offsetWord
  have length := fa.sizeWord
  refine .congr (fun fits => ?_) (.compare ⟨image, size, fa.offset, fa.size, false⟩
    (if size < fa.offset + fa.size ∨ fa.size < 32 then []
      else thinRanges s₀.ram (pointer image fa.offset) fa.size machoMhExecute) rfl fun passes _ =>
        ?_)
  · rw [sliceRanges, ← same fits, if_neg room, if_neg picked]
  split
  · exact .error _
  next large =>
  have fits : fa.offset + fa.size ≤ size := by
    unfold FileRange.Passes at passes
    dsimp only at passes
    omega
  rw [if_neg (by omega)]
  exact loadThin_confined holds (part.sub fits)

theorem machoLoad_confined : Confined src start held fit (machoLoad t image size)
    (machoRanges s₀.ram image size) := by
  unfold machoLoad
  split
  · exact .error _
  next four =>
  refine .look (fun _ => holds (part.sub (by omega))) fun magic same => ?_
  split
  next fat =>
    unfold loadFat
    split
    · exact .error _
    next eight =>
    refine .look (fun _ => holds (part.sub (by omega))) fun narch count => ?_
    split
    · exact .error _
    next some =>
    refine .congr (fun fits => ?_) (pickSlice_confined holds part)
    rw [machoRanges, ← same fits, ← count fits, if_neg four, if_pos fat, if_neg (by tauto)]
  next thin =>
    refine .congr (fun fits => ?_) (loadThin_confined holds part)
    rw [machoRanges, ← same fits, if_neg four, if_neg thin]

/-! ### Ranges of parts -/

omit holds

variable {ram : Frame → Nat → Byte} {r : FileRange}

theorem commandRanges_part {stop n : Nat} (member : r ∈ commandRanges ram image size stop n off) :
    i.Part r.base r.size := by
  induction n generalizing off with
  | zero => cases member
  | succ n ih =>
  unfold commandRanges at member
  dsimp only at member
  split at member
  · cases member
  rcases List.mem_append.mp member with here | later
  · unfold commandRange at here
    split at here
    · cases List.mem_singleton.mp here
      exact part
    · cases here
  · exact ih later

theorem thinRanges_part {filetype : Nat} (member : r ∈ thinRanges ram image size filetype) :
    i.Part r.base r.size := by
  unfold thinRanges at member
  dsimp only at member
  split at member
  · cases member
  · exact commandRanges_part part member

theorem sliceRanges_part {n k : Nat} (member : r ∈ sliceRanges ram image size n k) :
    i.Part r.base r.size := by
  induction n generalizing k with
  | zero => cases member
  | succ n ih =>
  unfold sliceRanges at member
  dsimp only at member
  split at member
  · cases member
  split at member
  · exact ih member
  rcases List.mem_cons.mp member with rfl | member
  · exact part
  split at member
  · cases member
  · exact thinRanges_part (part.sub (by omega)) member

theorem machoRanges_part (member : r ∈ machoRanges ram image size) : i.Part r.base r.size := by
  unfold machoRanges at member
  dsimp only at member
  split at member
  · cases member
  split at member
  · split at member
    · cases member
    · exact sliceRanges_part part member
  · exact thinRanges_part part member

end

end Style9.Load
