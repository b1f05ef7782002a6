import Style9.Apfs.Accounting
import Style9.Apfs.Records

/-!
# Where a volume's blocks come from

The calls on files run over a volume that is told where its allocations land and what is refused.
Here the container tells it: whatever `alloc_blocks` and `free_blocks` answer, there are grants and
refusals with which the volume answers the same and has the same blocks in use and in the queue. As
long as the queue has room nothing leaves it before the transaction ends.
-/
namespace Style9.Apfs.Runs

open Style9.Lib List

inductive BlockCall where
  | alloc (count near : Nat)
  | free (first count : Nat)

/-- The container's answer: the first block of the run, unless the call was refused. -/
def BlockCall.ask : BlockCall → Kern → Option Nat × Kern
  | .alloc count near, s =>
    let (result, s) := Apfs.allocBlocks count near s
    (result.toOption, s)
  | .free first count, s =>
    let (result, s) := Apfs.freeBlocks first count s
    (result.toOption.map fun _ => first, s)

/-- The volume's. -/
def BlockCall.serve : BlockCall → Vol → Option Nat × Vol
  | .alloc count _, v =>
    let (result, v) := allocBlocks count v
    (result.toOption, v)
  | .free first count, v =>
    let (result, v) := freeBlocks first count v
    (result.toOption.map fun _ => first, v)

/-- The calls in turn, with what they were answered. -/
def inTurn {σ : Type} (answer : BlockCall → σ → Option Nat × σ) :
    List BlockCall → σ → List (Option Nat) × σ
  | [], s => ([], s)
  | call :: rest, s =>
    let (first, s) := answer call s
    let (others, s) := inTurn answer rest s
    (first :: others, s)

/-- The caller owns what it gives back, and the queue has room for it. -/
def BlockCall.Fair (s : Kern) : BlockCall → Prop
  | .alloc _ _ => True
  | .free first count =>
    OwnedRun s first count ∧ ∀ n, s.gFq .main = some n → n.hasRoom count = true

def FairCalls : List BlockCall → Kern → Prop
  | [], _ => True
  | call :: rest, s => call.Fair s ∧ FairCalls rest (call.ask s).2

/-- The volume has the container's blocks in use, and those of its main queue. -/
structure InStep (s : Kern) (v : Vol) : Prop where
  used : ∀ b, v.used b = true ↔ s.Used b
  queue : ∀ b, b ∈ v.queue ↔ ∃ e ∈ s.queue .main, e.Covers b

variable {s s' : Kern} {v : Vol} {first count : Nat}

/-! ### One call -/

/-- The volume is told the answer to the call it is about to make. -/
def BlockCall.told (answer : Option Nat) (v : Vol) : BlockCall → Vol
  | .alloc _ _ => { v with grants := answer :: v.grants }
  | .free _ _ => { v with refuse := answer.isNone :: v.refuse }

/-- What the call does to the volume, the answer being known. -/
def BlockCall.after (answer : Option Nat) (v : Vol) : BlockCall → Vol
  | .alloc count _ => (answer.map fun first => v.take first count).getD v
  | .free first count =>
    if answer.isNone then v else { v with queue := v.queue ++ range' first count }

theorem InStep.refused (inStep : InStep s v) (used : ∀ b, s'.Used b ↔ s.Used b)
    (queue : s'.queue .main = s.queue .main) : InStep s' v := by
  refine ⟨fun b => (inStep.used b).trans (used b).symm, fun b => ?_⟩
  rw [queue]
  exact inStep.queue b

theorem InStep.taken (inStep : InStep s v) (taken : Taken s s' first count) :
    InStep s' (v.take first count) := by
  refine ⟨fun b => ?_, fun b => ?_⟩
  · simp only [Vol.take, Bool.or_eq_true, Bool.and_eq_true, decide_eq_true_eq]
    exact (or_congr_left (inStep.used b)).trans (taken.used b).symm
  · rw [taken.frame.queue]
    exact inStep.queue b

theorem InStep.put (inStep : InStep s v) (ok : SpaceOk s) (positive : 0 < count) {n : FqNode}
    (found : s.gFq .main = some n) (xid : Nat) :
    InStep (fqPut s .main n xid first count)
      { v with queue := v.queue ++ range' first count } := by
  have young : ∀ e ∈ n.ents, 0 < e.xid := fun e member =>
    (ok.main.queue.positive e (Kern.queue_of_some found ▸ member)).2
  obtain ⟨new, -, paddr, length, order, -⟩ := fqPut_spec xid first found positive young
    (ok.main.counts .main n (by decide) found)
  refine ⟨inStep.used, fun b => ?_⟩
  have covers : new.Covers b ↔ b ∈ range' first count := by
    rw [FqEnt.Covers, paddr, length, mem_range'_1]
  simp only [mem_append, order.mem_iff, mem_cons, exists_eq_or_imp, covers, inStep.queue b]
  exact or_comm

theorem alloc_in_step (ok : SpaceOk s) (inStep : InStep s v) (near : Nat) :
    let call := BlockCall.alloc count near
    let answer := (call.ask s).1
    call.serve (call.told answer v) = (answer, call.after answer v) ∧
      InStep (call.ask s).2 (call.after answer v) := by
  rcases allocBlocks_spec ok.main.chunks count near with
    ⟨first, result, taken⟩ | ⟨e, result, refused⟩
  · have free : (range' first count).all (fun b => !v.used b) = true := by
      rw [all_eq_true]
      intro b member
      rw [mem_range'_1] at member
      have unused := mt (inStep.used b).mp (taken.free b member.1 member.2)
      rw [Bool.not_eq_true] at unused
      rw [unused, Bool.not_false]
    simp only [BlockCall.ask, result, Except.toOption, BlockCall.told, BlockCall.serve, allocBlocks,
      free, if_true, BlockCall.after, Option.map_some, Option.getD_some]
    exact ⟨rfl, inStep.taken taken⟩
  · simp only [BlockCall.ask, result, Except.toOption, BlockCall.told, BlockCall.serve, allocBlocks,
      BlockCall.after, Option.map_none, Option.getD_none]
    exact ⟨trivial, inStep.refused refused.used (refused.frame.queue .main)⟩

/-- `free_blocks` refuses a run that is not in one chunk, or queues it. -/
theorem freeBlocks_cases (ok : SpaceOk s) (fair : (BlockCall.free first count).Fair s) :
    ∃ t, SpaceOk t ∧ (∀ b, t.Used b ↔ s.Used b) ∧ t.queue .main = s.queue .main ∧
      ((∃ e, Apfs.freeBlocks first count s = (.error e, t)) ∨
        ∃ n xid, t.gFq .main = some n ∧
          Apfs.freeBlocks first count s = (.ok (), fqPut t .main n xid first count)) := by
  obtain ⟨-, room⟩ := fair
  unfold Apfs.freeBlocks
  split
  · exact ⟨s, ok, fun _ => Iff.rfl, rfl, .inl ⟨_, rfl⟩⟩
  next =>
  obtain ⟨adm, -⟩ := chunkFor_spec ok.main.chunks first
  have kept := ok.moved adm.ok adm.frame fun b inUse => (adm.used b).mpr inUse
  refine ⟨(chunkFor s first).2, kept, adm.used, adm.frame.queue .main, ?_⟩
  have node := congrFun adm.frame.fq .main
  split
  next t reached =>
    rw [reached]
    exact .inl ⟨_, rfl⟩
  next c t reached =>
  rw [reached] at node ⊢
  dsimp only at node ⊢
  split
  · exact .inl ⟨_, rfl⟩
  next =>
  unfold fqInsert
  split
  · exact .inl ⟨_, rfl⟩
  next n found =>
  rw [if_pos (room n (node.symm.trans found))]
  exact .inr ⟨n, _, found, rfl⟩

theorem free_in_step (ok : SpaceOk s) (inStep : InStep s v)
    (fair : (BlockCall.free first count).Fair s) :
    let call := BlockCall.free first count
    let answer := (call.ask s).1
    call.serve (call.told answer v) = (answer, call.after answer v) ∧
      InStep (call.ask s).2 (call.after answer v) := by
  obtain ⟨t, kept, used, queue, outcome⟩ := freeBlocks_cases ok fair
  have there := inStep.refused used queue
  rcases outcome with ⟨e, result⟩ | ⟨n, xid, found, result⟩
  · simp only [BlockCall.ask, result]
    exact ⟨rfl, there⟩
  · simp only [BlockCall.ask, result]
    exact ⟨rfl, there.put kept fair.1.positive found xid⟩

theorem BlockCall.in_step (call : BlockCall) (ok : SpaceOk s) (inStep : InStep s v)
    (fair : call.Fair s) :
    call.serve (call.told (call.ask s).1 v) = ((call.ask s).1, call.after (call.ask s).1 v) ∧
      InStep (call.ask s).2 (call.after (call.ask s).1 v) := by
  cases call with
  | alloc count near => exact alloc_in_step ok inStep near
  | free first count => exact free_in_step ok inStep fair

theorem BlockCall.spaceOk (call : BlockCall) (ok : SpaceOk s) (fair : call.Fair s) :
    SpaceOk (call.ask s).2 := by
  cases call with
  | alloc count near => exact (ok.allocBlocks count near).1
  | free first count => exact (ok.freeBlocks fair.1).1

/-! ### Any calls -/

/-- The grants and refusals are those of the container's answers, in turn. -/
theorem container_tells_volume (calls : List BlockCall) (ok : SpaceOk s) (inStep : InStep s v)
    (fair : FairCalls calls s) :
    ∃ grants refuse, let told := { v with grants := grants, refuse := refuse }
      (inTurn BlockCall.serve calls told).1 = (inTurn BlockCall.ask calls s).1 ∧
      InStep (inTurn BlockCall.ask calls s).2 (inTurn BlockCall.serve calls told).2 := by
  induction calls generalizing s v with
  | nil => exact ⟨[], [], rfl, { inStep with }⟩
  | cons call rest ih =>
    have later := (call.in_step ok inStep fair.1).2
    obtain ⟨grants, refuse, answers, ends⟩ := ih (call.spaceOk ok fair.1) later fair.2
    -- the call's own answer goes before those of the rest
    let told := call.told (call.ask s).1 { v with grants := grants, refuse := refuse }
    have served := (call.in_step ok (v := { v with grants := grants, refuse := refuse })
      { inStep with } fair.1).1
    have same : call.after (call.ask s).1 { v with grants := grants, refuse := refuse } =
        { call.after (call.ask s).1 v with grants := grants, refuse := refuse } := by
      cases call <;> cases (BlockCall.ask _ s).1 <;> rfl
    have only : { v with grants := told.grants, refuse := told.refuse } = told := by
      cases call <;> rfl
    rw [same] at served
    refine ⟨told.grants, told.refuse, ?_⟩
    rw [only]
    simp only [inTurn, told, served]
    exact ⟨congrArg _ answers, ends⟩

/-- A volume of the small container. -/
def smallVol : Vol where
  runs := []
  extref := .leaf []
  slots := []
  place _ := 0
  spinePath _ := []
  used b := decide (b < 24)
  queue := []
  data _ _ := 0
  acFsAllocCount := 0
  grants := []
  refuse := []

theorem smallVol_inStep : InStep smallKern smallVol := by
  refine ⟨fun b => ?_, fun b => ?_⟩
  · rw [smallKern_used]
    exact decide_eq_true_iff
  · exact iff_of_false not_mem_nil fun ⟨_, queued, _⟩ => not_mem_nil queued

def smallCalls : List BlockCall := [.free 2 2, .alloc 2 0, .alloc 7 0, .alloc 3 0]

/-- The run given back is not handed out again, and seven blocks are not to be had. -/
theorem container_tells_volume_small :
    (inTurn BlockCall.ask smallCalls smallKern).1 = [some 2, some 24, none, some 26] ∧
    ∃ grants refuse, let told := { smallVol with grants := grants, refuse := refuse }
      (inTurn BlockCall.serve smallCalls told).1 = [some 2, some 24, none, some 26] ∧
      InStep (inTurn BlockCall.ask smallCalls smallKern).2
        (inTurn BlockCall.serve smallCalls told).2 := by
  have answers : (inTurn BlockCall.ask smallCalls smallKern).1 =
      [some 2, some 24, none, some 26] := by decide +kernel
  have room : ∀ n, smallKern.gFq .main = some n → n.hasRoom 2 = true := by
    rintro n ⟨⟩
    decide
  have told := container_tells_volume smallCalls smallKern_ok smallVol_inStep
    ⟨⟨smallKern_owned, room⟩, trivial, trivial, trivial, trivial⟩
  rw [answers] at told
  exact ⟨answers, told⟩

end Style9.Apfs.Runs
