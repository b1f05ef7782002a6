import Style9.Lib.Ram
import Style9.Vm.Pmm

/-!
# The kernel heap

Eight buckets of chunks, powers of two from sixteen bytes on, each with a list of its free chunks
threaded through their first eight bytes; what fits no bucket is a run of whole pages. Every block
starts with a header of sixteen bytes. The bytes behind the payload of a chunk are a red zone,
checked when it is freed; a free chunk is poison but for its link, checked when it is taken again.

Pointers and sizes have 64 bits, so a size close to the end of that range wraps when the header is
added.
-/
namespace Style9.Kern

open Style9.Lib Style9.Vm Act

def kmemHdrSize : Nat := 16

def kmemNbuckets : Nat := 8

def kbSize (b : Nat) : Nat := 2 ^ (4 + b)

def kmemHdrMagic : Nat := 0x4B4D4348

def kmemBucketLarge : Nat := 0xFFFF

def kmemRzPattern : UInt8 := 0xFE

def kmemPoisonPattern : UInt8 := 0xDE

/-- `struct kmem_bucket`; a null pointer is zero. -/
structure Bucket where
  kbFree : Nat
  kbAlloc : Nat
  kbFreecnt : Nat
  kbInuse : Nat
  deriving DecidableEq

@[ext]
structure Heap where
  pmm : Allocator
  ram : Ram
  kmemBuckets : Nat → Bucket
  kmemLargeChunks : Nat
  kmemLargePages : Nat

inductive HeapPanic where
  | badMagic
  | bogusBucket
  | redZone
  | poison
  | largeUnaligned
  | frames (why : PmmPanic)
  deriving DecidableEq

abbrev HeapRun : Type → Type := Act Heap HeapPanic

def onFrames {α : Type} (x : Act Allocator PmmPanic α) : HeapRun α := fun h =>
  match x h.pmm with
  | (.ok a, p) => (.ok a, { h with pmm := p })
  | (.error e, p) => (.error (.frames e), { h with pmm := p })

def Heap.setBucket (h : Heap) (b : Nat) (bk : Bucket) : Heap :=
  { h with kmemBuckets := Function.update h.kmemBuckets b bk }

/-! ### Headers -/

variable (m : Ram)

variable (c : Nat)

/-- `struct kmem_hdr` at an address. -/
def khBucket : Nat := m.load c 2

def khNpages : Nat := m.load (c + 2) 2

def khMagic : Nat := m.load (c + 4) 4

def khSize : Nat := m.load (c + 8) 8

/-- `struct kmem_chunk` at the same address. -/
def kcNext : Nat := m.load c 8

def writeHdr (c bucket npages : Nat) : Ram :=
  ((m.store c (leBytes 2 bucket)).store (c + 2) (leBytes 2 npages)).store (c + 4)
    (leBytes 4 kmemHdrMagic)

def slack (c size : Nat) : Nat := (c + kmemHdrSize + size) % 2 ^ 64

/-! ### Taking -/

def bucketFor (size : Nat) : Option Nat := (List.range kmemNbuckets).find? fun b => size ≤ kbSize b

def slice (b c next : Nat) : Ram :=
  (m.fill (c + 8) (c + kbSize b) kmemPoisonPattern).store c (leBytes 8 next)

/-- One chunk of `refill_bucket`. -/
def sliceOne (b pa : Nat) (h : Heap) (i : Nat) : Heap :=
  let c := pa + i * kbSize b
  { h.setBucket b { h.kmemBuckets b with kbFree := c } with
    ram := slice h.ram b c (h.kmemBuckets b).kbFree }

def refillBucket (b : Nat) : HeapRun Unit := do
  let pa ← onFrames Allocator.pmmAllocPage
  if pa = paInvalid then pure ()
  else do
    let chunks := vmPageSize / kbSize b
    modify fun h => (List.range chunks).foldl (sliceOne b pa) h
    modify fun h => h.setBucket b { h.kmemBuckets b with
      kbAlloc := (h.kmemBuckets b).kbAlloc + chunks
      kbFreecnt := (h.kmemBuckets b).kbFreecnt + chunks }

/-- `refill_bucket`, if the list is empty. -/
def fillBucket (b : Nat) : HeapRun Unit := do
  let head ← read fun h => (h.kmemBuckets b).kbFree
  if head = 0 then refillBucket b else pure ()

def kmallocLarge (size : Nat) : HeapRun Nat :=
  let need := (size + kmemHdrSize) % 2 ^ 64
  let npages := (need + (vmPageSize - 1)) % 2 ^ 64 / vmPageSize
  if 0xFFFF < npages then pure 0
  else do
    let pa ← onFrames (Allocator.pmmAllocPages npages)
    if pa = paInvalid then pure 0
    else do
      modify fun h => { h with
        ram := writeHdr h.ram pa kmemBucketLarge npages
        kmemLargeChunks := h.kmemLargeChunks + 1
        kmemLargePages := h.kmemLargePages + npages }
      pure (pa + kmemHdrSize)

def verifyPoison (c size : Nat) : HeapRun Unit :=
  guard (fun h => h.ram.filled (c + 8) (c + size) kmemPoisonPattern) .poison

/-- The header and the red zone of a chunk that is handed out. -/
def dress (b c size : Nat) : Ram :=
  ((writeHdr m c b 0).store (c + 8) (leBytes 8 size)).fill (slack c size) (c + kbSize b)
    kmemRzPattern

/-- `kmalloc` from a bucket. -/
def kmallocBucket (b size : Nat) : HeapRun Nat := do
  fillBucket b
  let c ← read fun h => (h.kmemBuckets b).kbFree
  if c = 0 then pure 0
  else do
    modify fun h => h.setBucket b { h.kmemBuckets b with
      kbFree := kcNext h.ram c
      kbFreecnt := (h.kmemBuckets b).kbFreecnt - 1
      kbInuse := (h.kmemBuckets b).kbInuse + 1 }
    verifyPoison c (kbSize b)
    modify fun h => { h with ram := dress h.ram b c size }
    pure (c + kmemHdrSize)

def kmalloc (size : Nat) : HeapRun Nat :=
  if size = 0 then pure 0
  else
    match bucketFor ((size + kmemHdrSize) % 2 ^ 64) with
    | none => kmallocLarge size
    | some b => kmallocBucket b size

def kcalloc (n size : Nat) : HeapRun Nat :=
  if n ≠ 0 ∧ (2 ^ 64 - 1) / n < size then pure 0
  else do
    let p ← kmalloc (n * size)
    if p = 0 then pure 0
    else do
      modify fun h => { h with ram := h.ram.fill p (p + n * size) 0 }
      pure p

/-! ### Giving back -/

def kfreeLarge : HeapRun Unit := do
  let npages ← read fun h => khNpages h.ram c
  guard (fun _ => c % vmPageSize == 0) .largeUnaligned
  modify fun h => { h with
    ram := h.ram.store (c + 4) (leBytes 4 0)
    kmemLargeChunks := h.kmemLargeChunks - 1
    kmemLargePages := h.kmemLargePages - npages }
  onFrames (Allocator.pmmFreePages c npages)

def verifyRedzone (c size : Nat) : HeapRun Unit :=
  guard (fun h => h.ram.filled (slack c (khSize h.ram c)) (c + size) kmemRzPattern) .redZone

/-- A chunk that goes back on its list: poison, no magic, the link. -/
def undress (b c next : Nat) : Ram :=
  ((m.fill (c + 8) (c + kbSize b) kmemPoisonPattern).store (c + 4) (leBytes 4 0)).store c
    (leBytes 8 next)

def kfree (p : Nat) : HeapRun Unit :=
  if p = 0 then pure ()
  else do
    let c := (p + (2 ^ 64 - kmemHdrSize)) % 2 ^ 64
    guard (fun h => khMagic h.ram c == kmemHdrMagic) .badMagic
    let b ← read fun h => khBucket h.ram c
    if b = kmemBucketLarge then kfreeLarge c
    else do
      guard (fun _ => b < kmemNbuckets) .bogusBucket
      verifyRedzone c (kbSize b)
      modify fun h => { h.setBucket b { h.kmemBuckets b with
          kbFree := c
          kbFreecnt := (h.kmemBuckets b).kbFreecnt + 1
          kbInuse := (h.kmemBuckets b).kbInuse - 1 } with
        ram := undress h.ram b c (h.kmemBuckets b).kbFree }

/-- `kmem_init`, over whatever the frame allocator and the memory are. -/
def kmemInit (pmm : Allocator) (ram : Ram) : Heap := ⟨pmm, ram, fun _ => ⟨0, 0, 0, 0⟩, 0, 0⟩

end Style9.Kern
