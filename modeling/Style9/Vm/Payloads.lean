import Mathlib.Data.List.ReduceOption
import Style9.Vm.Faults

/-!
# The pages a message carries

Capturing a range takes an owner's share of each whole page that is there, clearing its write bit,
and copies the rest. Either way the sender sees no difference, and the frames carried hold the
bytes the sender had, with zeros after the last.
-/
namespace Style9.Vm

open Style9.Lib List Multiset Act Nat Option

variable {s s' : Memory} {t va page addr size k n : Nat} {e : VmMapEntry} {f : Frame} {l : Leaf}
  {held : Multiset Frame} {mem : Nat → Option Byte} {ram : Frame → Nat → Byte}
    {rest got : List (Option Frame)}

/-! ### Reading from the kernel -/

theorem touch_quiet (ok : VmOk s held) (aligned : page % vmPageSize = 0)
    (run : touch t page s = (.ok (), s')) :
    VmOk s' held ∧ Quiet held s s' ∧ (s'.leaf t page).isSome = true := by
  unfold touch at run
  rw [read_bind] at run
  cases leaf : s.leaf t page with
  | some l =>
    rw [leaf] at run
    cases run
    exact ⟨ok, .refl held _, by rw [leaf]; rfl⟩
  | none =>
  rw [leaf] at run
  obtain ⟨result, s₁, fault, run⟩ := bind_ok run
  obtain ⟨ok₁, quiet, there⟩ := vmFault_quiet ok fault
  split at run
  · cases run
  next filled =>
    cases run
    have filled : result = .ok := by simpa using filled
    exact ⟨ok₁, quiet, vmAlignDown_of_mod aligned ▸ there filled⟩

theorem touchAll_quiet {pages : List Nat} (aligned : ∀ page ∈ pages, page % vmPageSize = 0)
    (ok : VmOk s held) (run : touchAll t pages s = (.ok (), s')) :
    VmOk s' held ∧ Quiet held s s' ∧ ∀ page ∈ pages, (s'.leaf t page).isSome = true := by
  induction pages generalizing s with
  | nil =>
    cases run
    exact ⟨ok, .refl held _, fun _ member => nomatch member⟩
  | cons page rest ih =>
  obtain ⟨_, s₁, first, run⟩ := bind_ok run
  obtain ⟨ok₁, quiet₁, there⟩ := touch_quiet ok (aligned page (by simp)) first
  obtain ⟨ok₂, quiet₂, others⟩ := ih (fun p member => aligned p (by simp [member])) ok₁ run
  refine ⟨ok₂, quiet₁.trans quiet₂, fun p member => ?_⟩
  rcases mem_cons.mp member with rfl | member
  · exact quiet₂.present t p there
  · exact others p member

theorem Owned.view_loaded (owned : Owned s held)
    (there : (s.leaf t (vmAlignDown va)).isSome = true) :
    s.view t va = some (s.loaded t va) := by
  obtain ⟨l, present⟩ := isSome_iff_exists.mp there
  obtain ⟨e, backed⟩ := owned.backed t _ l present
  have found : vmMapLookup (s.entries t) va = some e := by
    rw [← vmMapLookup_page (owned.ranges t), backed.found]
  rw [Memory.view_present found present]
  unfold Memory.loaded
  rw [present]

/-! ### One page of a payload -/

/-- The bytes of page `k` of a payload: the range's, then zeros. -/
def PageOf (mem : Nat → Option Byte) (addr size k : Nat) (bytes : Nat → Byte) : Prop :=
  ∀ i < vmPageSize, if k * vmPageSize + i < size then
    mem (addr + k * vmPageSize + i) = some (bytes i) else bytes i = 0

theorem pageFromBytes_spec {got : Option Frame} (ok : VmOk s held)
    (run : pageFromBytes t addr (k * vmPageSize) size s = (.ok got, s')) :
    match got with
    | none => VmOk s' held ∧ Quiet held s s'
    | some f => VmOk s' (f ::ₘ held) ∧ Quiet held s s' ∧
      PageOf (s.view t) addr size k (s'.ram f) := by
  unfold pageFromBytes at run
  rcases pmmAllocPage_run s with none | ⟨pa, free, given⟩
  · cases (bind_of_ok none).symm.trans run
    exact ⟨ok, .refl held _⟩
  rw [bind_of_ok given] at run
  obtain ⟨_, s₂, touched, run⟩ := bind_ok run
  cases run
  have aligned : vmAlignDown (addr + k * vmPageSize) % vmPageSize = 0 := vmAlignDown_mod _
  obtain ⟨ok₂, quiet₂, there⟩ := touchAll_quiet
    (fun p member => ((mem_vmPages_iff aligned).mp member).1) (ok.alloc free) touched
  have one : s₂.pmm.refs pa = 1 := by
    refine quiet₂.sole pa (Multiset.mem_cons_self pa held) ?_
    change (s.pmm.alloc pa).refs pa = 1
    rw [Pmm.refs_alloc, if_pos rfl]
  have seen := (Quiet.alloc ok free).trans
    (quiet₂.mono fun _ member => Multiset.mem_cons_of_mem member)
  refine ⟨ok₂.fill pa _, seen.trans (Quiet.fill ok₂ one _), fun i small => ?_⟩
  rw [Memory.ram_fill, if_pos rfl]
  split
  next inside =>
    have enough : i < min (size - k * vmPageSize) vmPageSize := by omega
    rw [if_pos enough, ← seen.view]
    refine ok₂.view_loaded (there _ ((mem_vmPages_iff aligned).mpr ⟨vmAlignDown_mod _, ?_, ?_⟩))
    · exact (le_vmAlignDown_iff aligned).mpr ((vmAlignDown_le _).trans (le_add_right _ _))
    · exact (vmAlignDown_le _).trans_lt (by omega)
  next past => rw [if_neg (by omega)]

/-! ### Sharing -/

section

variable (ok : VmOk s held) (present : s.leaf t va = some l)
include ok present

/-- A frame that is mapped and held has two owners at least, so one more changes no sole owner. -/
theorem Quiet.ref : Quiet held s (s.setPmm (s.pmm.ref l.pa)) := by
  refine Quiet.setPmm fun g member one => ?_
  have other : g ≠ l.pa := by
    rintro rfl
    have count := ok.counted l.pa (by omega)
    have mapped := one_le_count_iff_mem.mpr (Memory.mem_mapped present)
    have carried := one_le_count_iff_mem.mpr member
    rw [Multiset.count_add] at count
    omega
  rw [Pmm.refs_ref, if_neg other]
  exact one

theorem VmOk.share (live : s.pmm.refs l.pa ≠ 0)
    (readonly : l.prot.write = false) : VmOk (s.setPmm (s.pmm.ref l.pa)) (l.pa ::ₘ held) := by
  refine ⟨ok.ref live, fun x page l' present' write => ?_⟩
  have present' := present'
  have other : l'.pa ≠ l.pa := by
    intro same
    obtain ⟨rfl, rfl⟩ := (ok.alone present' write).2 t va l present same.symm
    cases present.symm.trans present'
    rw [readonly] at write
    cases write
  change (s.pmm.ref l.pa).refs l'.pa = 1
  rw [Pmm.refs_ref, if_neg other]
  exact ok.exclusive x page l' present' write

theorem VmOk.clearWrite {prot : Prot} (readonly : prot.write = false) :
    VmOk (s.setLeaf t va ⟨l.pa, prot⟩) held := by
  obtain ⟨e, backed⟩ := ok.backed t va l present
  refine ⟨ok.protect present rfl (e := e) ⟨backed.found, backed.owned, backed.borrowed, ?_⟩,
    ok.exclusive.setLeaf ?_⟩
  all_goals
    intro write
    rw [readonly] at write
    cases write

end

theorem captureShare_spec {got : Option Frame} (ok : VmOk s held)
    (found : vmMapLookup (s.entries t) va = some e) (run : captureShare t e va s = (.ok got, s')) :
    (∀ x, s'.entries x = s.entries x) ∧ Quiet held s s' ∧
      match got with
      | none => VmOk s' held
      | some f => VmOk s' (f ::ₘ held) ∧ ∃ l, s.leaf t va = some l ∧ l.pa = f ∧
        s'.ram f = s.ram f := by
  unfold captureShare at run
  rw [read_bind] at run
  cases leaf : s.leaf t va with
  | none =>
    rw [leaf] at run
    cases run
    exact ⟨fun _ => rfl, .refl held _, ok⟩
  | some l =>
  rw [leaf] at run
  obtain ⟨_, s₁, taken, run⟩ := bind_ok run
  obtain ⟨live, rfl⟩ := pmmPageRef_run taken
  obtain ⟨e', backed⟩ := ok.backed t va l leaf
  cases backed.found.symm.trans found
  have shared := Quiet.ref ok leaf
  split at run
  next writable =>
    have leaf₁ : (s.setPmm (s.pmm.ref l.pa)).leaf t va = some l := leaf
    cases (bind_of_ok (pmapEnter_present leaf₁)).symm.trans run
    refine ⟨fun x => Memory.entries_setLeaf .., shared.trans (Quiet.replace leaf₁ fun _ => rfl), ?_,
      l, rfl, rfl, rfl⟩
    -- the two steps commute: with the write bit gone first, the frame may be shared
    have cleared : VmOk (s.setLeaf t va ⟨l.pa, e.vmeProt.noWrite⟩) held := ok.clearWrite leaf rfl
    exact cleared.share (l := ⟨l.pa, e.vmeProt.noWrite⟩)
      (by rw [Memory.leaf_setLeaf, if_pos ⟨rfl, rfl⟩]) live rfl
  next fixed =>
  cases run
  have readonly : l.prot.write = false := by
    cases bit : l.prot.write with
    | false => rfl
    | true => exact absurd (backed.write bit) fixed
  exact ⟨fun _ => rfl, shared, ok.share leaf live readonly, l, rfl, rfl, rfl⟩

/-- What the array of the first pass holds, as frames. -/
abbrev taken (got : List (Option Frame)) : Multiset Frame := (got.reduceOption : Multiset Frame)

@[simp] theorem taken_none (rest : List (Option Frame)) : taken (none :: rest) = taken rest := by
  rw [taken, reduceOption_cons_of_none]

@[simp] theorem taken_some (f : Frame) (rest : List (Option Frame)) :
    taken (some f :: rest) = f ::ₘ taken rest := by
  rw [taken, reduceOption_cons_of_some, cons_coe]

theorem taken_append (frames : List Frame) (rest : List (Option Frame)) :
    taken (frames.map some ++ rest) = (frames : Multiset Frame) + taken rest := by
  induction frames with
  | nil => exact (zero_add _).symm
  | cons f frames ih =>
    rw [List.map_cons, cons_append, taken_some, ih, ← cons_coe, cons_add]

/-- Each page the array has, from page `k` of the payload on, holds its bytes. -/
def Pages (mem : Nat → Option Byte) (addr size k : Nat) (ram : Frame → Nat → Byte)
    (got : List (Option Frame)) : Prop :=
  ∀ j f, got[j]? = some (some f) → PageOf mem addr size (k + j) (ram f)

theorem Pages.cons {o : Option Frame} (first : ∀ f, o = some f → PageOf mem addr size k (ram f))
    (others : Pages mem addr size (k + 1) ram rest) : Pages mem addr size k ram (o :: rest) := by
  intro j f here
  cases j with
  | zero => exact first f (some.inj here)
  | succ j =>
    have := others j f (by simpa using here)
    rwa [add_assoc, add_comm 1 j] at this

theorem mem_taken {j : Nat} (here : got[j]? = some (some f)) : f ∈ taken got := by
  have member := mem_of_getElem? here
  rw [mem_coe]
  exact reduceOption_mem_iff.mpr member

theorem captureShared_spec (ok : VmOk s held) (aligned : addr % vmPageSize = 0)
    (whole : (k + n) * vmPageSize ≤ size)
    (found : ∀ va, addr + k * vmPageSize ≤ va → va < addr + (k + n) * vmPageSize →
      vmMapLookup (s.entries t) va = some e)
    (run : captureShared t e ((range' k n).map fun i => addr + i * vmPageSize) s = (.ok got, s')) :
    got.length = n ∧ VmOk s' (taken got + held) ∧ Quiet held s s' ∧
      (∀ x, s'.entries x = s.entries x) ∧ Pages (s.view t) addr size k s'.ram got := by
  induction n generalizing k s got held with
  | zero =>
    cases run
    exact ⟨rfl, (zero_add held).symm ▸ ok, .refl held _, fun _ => rfl, fun j f here => nomatch here⟩
  | succ n ih =>
  obtain ⟨first, s₁, shared, run⟩ := bind_ok run
  obtain ⟨more, s₂, later, run⟩ := bind_ok run
  cases run
  have here :=
    found _ le_rfl (by simp only [vmPageSize]; omega)
  obtain ⟨entries₁, quiet₁, got₁⟩ := captureShare_spec ok here shared
  have whole' : (k + 1 + n) * vmPageSize ≤ size := by
    rw [add_assoc, add_comm 1 n]
    exact whole
  have found' : ∀ va, addr + (k + 1) * vmPageSize ≤ va → va < addr + (k + 1 + n) * vmPageSize →
      vmMapLookup (s₁.entries t) va = some e := by
    intro va lower upper
    rw [entries₁]
    refine found va ((Nat.add_le_add_left (Nat.mul_le_mul_right _ (Nat.le_succ k)) addr).trans
      lower) ?_
    rwa [Nat.add_assoc, Nat.add_comm 1 n] at upper
  have view₁ := funext fun va => quiet₁.view t va
  cases first with
  | none =>
    obtain ⟨length, ok₂, quiet₂, entries₂, pages⟩ := ih got₁ whole' found' later
    rw [view₁] at pages
    refine ⟨by simp [length], ?_, quiet₁.trans quiet₂, fun x => (entries₂ x).trans (entries₁ x),
      .cons (fun f none => nomatch none) pages⟩
    rw [taken_none]
    exact ok₂
  | some f =>
  obtain ⟨ok₁, l, present, rfl, same⟩ := got₁
  obtain ⟨length, ok₂, quiet₂, entries₂, pages⟩ := ih ok₁ whole' found' later
  rw [view₁] at pages
  refine ⟨by simp [length], ?_, quiet₁.trans (quiet₂.mono fun _ m => Multiset.mem_cons_of_mem m),
    fun x => (entries₂ x).trans (entries₁ x), .cons (fun f some => ?_) pages⟩
  · rw [taken_some, cons_add]
    rwa [add_cons] at ok₂
  cases some
  intro i small
  have inside : k * vmPageSize + i < size := by unfold vmPageSize at *; omega
  have onPage : (addr + k * vmPageSize) % vmPageSize = 0 := by
    unfold vmPageSize at *
    omega
  obtain ⟨down, offset⟩ := vmAlignDown_add_lt onPage small
  rw [if_pos inside, quiet₂.ram l.pa (Multiset.mem_cons_self _ _), same]
  have entry : vmMapLookup (s.entries t) (addr + k * vmPageSize + i) = some e :=
    found _ (le_add_right _ _) (by unfold vmPageSize at *; omega)
  rw [Memory.view_present entry (down.symm ▸ present), offset]

/-! ### Copying the rest -/

/-- The pages of a payload that has been taken in full. -/
def Payload (mem : Nat → Option Byte) (addr size : Nat) (ram : Frame → Nat → Byte)
    (frames : List Frame) : Prop :=
  ∀ k f, frames[k]? = some f → PageOf mem addr size k (ram f)

theorem vmPagesRelease_quiet (ok : VmOk s (taken got + held))
    (run : vmPagesRelease got s = (.ok (), s')) : VmOk s' held ∧ Quiet held s s' := by
  induction got generalizing s with
  | nil =>
    cases run
    exact ⟨zero_add held ▸ ok, .refl held _⟩
  | cons o rest ih =>
  cases o with
  | none =>
    exact ih ok run
  | some f =>
  obtain ⟨_, s₁, dropped, run⟩ := bind_ok run
  rw [taken_some, cons_add] at ok
  obtain ⟨ok₁, quiet₁⟩ := ok.dropped dropped
  obtain ⟨ok₂, quiet₂⟩ := ih ok₁ run
  exact ⟨ok₂, (quiet₁.mono fun _ member => mem_add.mpr (.inr member)).trans quiet₂⟩

theorem Payload.snoc {frames : List Frame}
    (payload : Payload mem addr size ram frames)
    (page : PageOf mem addr size frames.length (ram f)) :
    Payload mem addr size ram (frames ++ [f]) := by
  intro k g here
  by_cases early : k < frames.length
  · rw [getElem?_append_left early] at here
    exact payload k g here
  rw [getElem?_append_right (not_lt.mp early), getElem?_singleton] at here
  split at here
  next last =>
    cases here
    obtain rfl : k = frames.length := by omega
    exact page
  · cases here

/-- How a capture of `n` pages ends: with frames that hold the payload, or with nothing. -/
def Captured (mem : Nat → Option Byte) (addr size n : Nat) (held : Multiset Frame) (s' : Memory) :
    Option (List Frame) → Prop
  | none => VmOk s' held
  | some frames => VmOk s' ((frames : Multiset Frame) + held) ∧ frames.length = n ∧
      Payload mem addr size s'.ram frames

/-- The second pass: everything taken so far and everything copied, or nothing. -/
theorem captureCopied_spec {done : List Frame}
    {got : Option (List Frame)} (ok : VmOk s ((done : Multiset Frame) + taken rest + held))
    (seen : s.view t = mem) (early : Payload mem addr size s.ram done)
    (late : Pages mem addr size done.length s.ram rest)
    (run : captureCopied t addr size done.length done rest s = (.ok got, s')) :
    Quiet held s s' ∧ Captured mem addr size (done.length + rest.length) held s' got := by
  induction rest generalizing s done with
  | nil =>
    cases run
    refine ⟨.refl held _, ?_, rfl, early⟩
    have none : taken [] = 0 := rfl
    rwa [none, add_zero] at ok
  | cons o rest ih =>
  -- from one page to the next: the frame of this page joins those done
  have next : ∀ {s₁ : Memory} {f : Frame},
    VmOk s₁ (f ::ₘ ((done : Multiset Frame) + taken rest + held)) →
      s₁.view t = mem → Payload mem addr size s₁.ram done →
      PageOf mem addr size done.length (s₁.ram f) →
        Pages mem addr size (done.length + 1) s₁.ram rest →
      captureCopied t addr size (done.length + 1) (done ++ [f]) rest s₁ = (.ok got, s') →
      Quiet held s₁ s' ∧ Captured mem addr size (done.length + (rest.length + 1)) held s' got := by
    intro s₁ f ok seen early page late run
    have length : (done ++ [f]).length = done.length + 1 := by simp
    have ok : VmOk s₁ (((done ++ [f] : List Frame) : Multiset Frame) + taken rest + held) := by
      rw [← coe_add, coe_singleton, add_comm _ ({f} : Multiset Frame), add_assoc,
        add_assoc, singleton_add, ← add_assoc]
      exact ok
    rw [← length] at run late
    have result := ih ok seen (early.snoc page) late run
    rwa [length, add_assoc, add_comm 1] at result
  cases o with
  | some f =>
    refine next ?_ seen early (late 0 f rfl) (fun j g here => ?_) run
    · rw [taken_some, add_cons, cons_add] at ok
      exact ok
    · have := late (j + 1) g (by simpa using here)
      rwa [add_comm j 1, ← add_assoc] at this
  | none =>
  rw [taken_none] at ok
  obtain ⟨page, s₁, copied, run⟩ := bind_ok run
  have spec := pageFromBytes_spec ok copied
  cases page with
  | none =>
    obtain ⟨ok₁, quiet₁⟩ := spec
    obtain ⟨_, s₂, released, run⟩ := bind_ok run
    cases run
    rw [← taken_append] at ok₁
    obtain ⟨ok₂, quiet₂⟩ := vmPagesRelease_quiet ok₁ released
    exact ⟨(quiet₁.mono fun _ member => mem_add.mpr (.inr member)).trans quiet₂, ok₂⟩
  | some f =>
  obtain ⟨ok₁, quiet₁, page⟩ := spec
  rw [seen] at page
  have kept : ∀ g ∈ (done : Multiset Frame) + taken rest, s₁.ram g = s.ram g := fun g member =>
    quiet₁.ram g (mem_add.mpr (.inl member))
  have early₁ : Payload mem addr size s₁.ram done := by
    intro k g here
    rw [kept g (mem_add.mpr (.inl (mem_coe.mpr (mem_of_getElem? here))))]
    exact early k g here
  have late₁ : Pages mem addr size (done.length + 1) s₁.ram rest := by
    intro j g here
    rw [kept g (mem_add.mpr (.inr (mem_taken here)))]
    have := late (j + 1) g (by simpa using here)
    rwa [add_comm j 1, ← add_assoc] at this
  obtain ⟨quiet₂, result⟩ := next ok₁ ((funext (quiet₁.view t)).trans seen) early₁ page late₁ run
  exact ⟨(quiet₁.mono fun _ member => mem_add.mpr (.inr member)).trans quiet₂, result⟩

theorem captureFrom_some {es : List VmMapEntry} (ranges : Ranges es)
    (source : captureFrom es addr n = some e) : addr % vmPageSize = 0 ∧
      ∀ va, addr ≤ va → va < addr + n * vmPageSize → vmMapLookup es va = some e := by
  unfold captureFrom at source
  split at source
  · cases source
  next aligned =>
  obtain ⟨found, fits⟩ := filter_eq_some_iff.mp source
  obtain ⟨member, covers⟩ := (vmMapLookup_some_iff ranges).mp found
  simp only [Bool.and_eq_true, decide_eq_true_eq] at fits
  refine ⟨not_not.mp aligned, fun va lower upper => ?_⟩
  exact (vmMapLookup_some_iff ranges).mpr ⟨member, covers.1.trans lower, upper.trans_le fits.2⟩

theorem vmPages_whole (addr n : Nat) : vmPages addr (addr + n * vmPageSize) =
    (range' 0 n).map fun i => addr + i * vmPageSize := by
  have count : (addr + n * vmPageSize - addr + (vmPageSize - 1)) / vmPageSize = n := by
    rw [Nat.add_sub_cancel_left]
    unfold vmPageSize
    omega
  unfold vmPages
  rw [count, range_eq_range']

theorem taken_replicate (n : Nat) : taken (replicate n none) = 0 := by
  rw [taken, reduceOption_replicate_none]
  rfl

theorem vmPagesCaptureUser_spec {maxPages : Nat} {got : Option (List Frame)} (ok : VmOk s held)
    (run : vmPagesCaptureUser t addr size maxPages s = (.ok got, s')) :
    Quiet held s s' ∧ Captured (s.view t) addr size (vmAlignUp size / vmPageSize) held s' got := by
  unfold vmPagesCaptureUser at run
  split at run
  · cases run
    exact ⟨.refl held _, ok⟩
  rw [read_bind] at run
  cases source : captureFrom (s.entries t) addr (vmAlignUp size / vmPageSize) with
  | none =>
    rw [source] at run
    have nothing : VmOk s ((([] : List Frame) : Multiset Frame) +
        taken (replicate (vmAlignUp size / vmPageSize) none) + held) := by
      rw [taken_replicate]
      simpa using ok
    have result := captureCopied_spec nothing rfl (fun k f here => nomatch here)
      (fun j f here => by simp [getElem?_replicate] at here) run
    simpa using result
  | some e =>
  rw [source] at run
  obtain ⟨aligned, found⟩ := captureFrom_some (ok.ranges t) source
  have fits : size / vmPageSize ≤ vmAlignUp size / vmPageSize := by
    unfold vmAlignUp vmPageSize
    omega
  obtain ⟨shared, s₁, pass, run⟩ := bind_ok run
  rw [vmPages_whole] at pass
  have whole : (0 + size / vmPageSize) * vmPageSize ≤ size := by
    rw [zero_add]
    exact div_mul_le_self size vmPageSize
  obtain ⟨length, ok₁, quiet₁, -, pages⟩ := captureShared_spec ok aligned whole
    (fun va lower upper => found va (by omega) (upper.trans_le (by
      rw [Nat.zero_add]
      exact Nat.add_le_add_left (Nat.mul_le_mul_right _ fits) addr))) pass
  -- the mark on the entry changes nothing the second pass depends on
  have finish : ∀ {s₂ : Memory}, VmOk s₂ (taken shared + held) → Quiet (taken shared + held) s₁ s₂ →
      captureCopied t addr size 0 [] (shared ++ List.replicate (vmAlignUp size / vmPageSize -
        size / vmPageSize) none) s₂ = (.ok got, s') →
      Quiet held s s' ∧ Captured (s.view t) addr size (vmAlignUp size / vmPageSize) held s'
        got := by
    intro s₂ ok₂ quiet₂ run
    have within :=
      quiet₁.trans (quiet₂.mono fun _ member => mem_add.mpr (.inr member))
    have all : VmOk s₂ ((([] : List Frame) : Multiset Frame) + taken (shared ++ List.replicate
        (vmAlignUp size / vmPageSize - size / vmPageSize) none) + held) := by
      rw [taken, reduceOption_append, reduceOption_replicate_none, append_nil]
      simpa using ok₂
    have late : Pages (s.view t) addr size 0 s₂.ram (shared ++ List.replicate
        (vmAlignUp size / vmPageSize - size / vmPageSize) none) := by
      intro j f here
      have early : j < shared.length := by
        by_contra late
        rw [List.getElem?_append_right (not_lt.mp late)] at here
        simp [List.getElem?_replicate] at here
      rw [List.getElem?_append_left early] at here
      rw [quiet₂.ram f (mem_add.mpr (.inl (mem_taken here)))]
      exact pages j f here
    obtain ⟨quiet₃, result⟩ := captureCopied_spec all (funext (within.view t))
      (fun k f here => nomatch here) late run
    refine ⟨within.trans quiet₃, ?_⟩
    rwa [length_append, length_replicate, length, length_nil, zero_add, add_sub_of_le fits]
      at result
  split at run
  · rw [modify_bind] at run
    obtain ⟨ok₂, quiet₂⟩ := ok₁.markCow (t := t) e.vmeStart
    exact finish ok₂ quiet₂ run
  · exact finish ok₁ (.refl _ _) run

end Style9.Vm
