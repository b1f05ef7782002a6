import Style9.Apfs.Alloc

/-!
# What a free queue holds

A queue is read as a list of runs with the transaction that gave each up. The invariant of
one queue asks that its runs be disjoint and still marked in use, wherever the queue's blocks
are marked: in the chunk bitmaps for the device, in the pool bitmap for the pool.
-/
namespace Style9.Apfs

open Style9.Lib List

/-- Block `b` lies in the entry's run. -/
def FqEnt.Covers (e : FqEnt) (b : Nat) : Prop := e.paddr ≤ b ∧ b < e.paddr + e.count

/-- The runs of a queue are disjoint, not empty, and still marked. -/
structure QueueOk (marked : Nat → Prop) (ents : List FqEnt) : Prop where
  marked : ∀ e ∈ ents, ∀ b, e.Covers b → marked b
  apart : ents.Pairwise fun e e' => ∀ b, e.Covers b → ¬ e'.Covers b
  positive : ∀ e ∈ ents, 0 < e.count ∧ 0 < e.xid

/-- `x` is the least xid queued, zero when nothing is. -/
def IsOldest (ents : List FqEnt) (x : Nat) : Prop :=
  ents = [] ∧ x = 0 ∨ (∃ e ∈ ents, e.xid = x) ∧ ∀ e ∈ ents, x ≤ e.xid

/-- The space manager's record of a queue agrees with its entries. -/
structure CountsOk (ents : List FqEnt) (fq : FreeQueue) : Prop where
  count : fq.sfqCount = (ents.map FqEnt.count).sum
  oldest : IsOldest ents fq.sfqOldestXid

variable {marked marked' : Nat → Prop} {ents ents' : List FqEnt} {e : FqEnt}

theorem QueueOk.mono (ok : QueueOk marked ents)
    (weaker : ∀ e ∈ ents, ∀ b, e.Covers b → marked b → marked' b) : QueueOk marked' ents :=
  ⟨fun e member b covers => weaker e member b covers (ok.marked e member b covers), ok.apart,
    ok.positive⟩

theorem QueueOk.perm (ok : QueueOk marked ents) (same : ents.Perm ents') :
    QueueOk marked ents' where
  marked e member := ok.marked e (same.mem_iff.mpr member)
  apart := by
    refine (same.pairwise_iff ?_).mp ok.apart
    exact fun disjoint b covers covers' => disjoint b covers' covers
  positive e member := ok.positive e (same.mem_iff.mpr member)

theorem QueueOk.cons (ok : QueueOk marked ents) (count : 0 < e.count) (xid : 0 < e.xid)
    (inUse : ∀ b, e.Covers b → marked b)
    (fresh : ∀ b, e.Covers b → ∀ e' ∈ ents, ¬ e'.Covers b) : QueueOk marked (e :: ents) where
  marked e' member := by
    rcases mem_cons.mp member with rfl | old
    · exact inUse
    · exact ok.marked e' old
  apart := pairwise_cons.mpr ⟨fun e' member b covers => fresh b covers e' member, ok.apart⟩
  positive e' member := by
    rcases mem_cons.mp member with rfl | old
    · exact ⟨count, xid⟩
    · exact ok.positive e' old

theorem QueueOk.remove {front back : List FqEnt} (ok : QueueOk marked (front ++ e :: back))
    (others : ∀ b, marked b → ¬ e.Covers b → marked' b) : QueueOk marked' (front ++ back) := by
  have split : (front ++ e :: back).Perm (e :: (front ++ back)) := perm_middle
  have ok' := ok.perm split
  obtain ⟨disjoint, apart⟩ := pairwise_cons.mp ok'.apart
  refine ⟨fun e' member b covers => ?_, apart, fun e' member => ok'.positive e' (by simp [member])⟩
  refine others b (ok'.marked e' (mem_cons_of_mem _ member) b covers) ?_
  exact fun covers' => disjoint e' member b covers' covers

/-! ### The oldest entry -/

theorem IsOldest.perm {x : Nat} (old : IsOldest ents x) (same : ents.Perm ents') :
    IsOldest ents' x := by
  rcases old with ⟨rfl, rfl⟩ | ⟨⟨e, member, here⟩, least⟩
  · exact .inl ⟨nil_perm.mp same ▸ rfl, rfl⟩
  · exact .inr ⟨⟨e, same.mem_iff.mp member, here⟩,
      fun e' member' => least e' (same.mem_iff.mpr member')⟩

theorem IsOldest.insert {x : Nat} (old : IsOldest ents x) (positive : ∀ e ∈ ents, 0 < e.xid) :
    IsOldest (e :: ents) (if x = 0 ∨ e.xid < x then e.xid else x) := by
  rcases old with ⟨rfl, rfl⟩ | ⟨⟨e', member, here⟩, least⟩
  · exact .inr ⟨⟨e, by simp, by simp⟩, by simp⟩
  have nonzero := positive e' member
  right
  by_cases smaller : e.xid < x
  · rw [if_pos (.inr smaller)]
    refine ⟨⟨e, mem_cons_self, rfl⟩, fun f memberF => ?_⟩
    rcases mem_cons.mp memberF with rfl | later
    · exact le_rfl
    · exact Nat.le_of_lt (Nat.lt_of_lt_of_le smaller (least f later))
  rw [if_neg (by omega)]
  refine ⟨⟨e', mem_cons_of_mem _ member, here⟩, fun f memberF => ?_⟩
  rcases mem_cons.mp memberF with rfl | later
  · omega
  · exact least f later

theorem IsOldest.foldl {x : Nat} (old : IsOldest ents x) (positive : ∀ e ∈ ents, 0 < e.xid)
    {more : List FqEnt}
    (positive' : ∀ e ∈ more, 0 < e.xid) : IsOldest (more.reverse ++ ents)
      (more.foldl (fun oldest e => if oldest = 0 ∨ e.xid < oldest then e.xid else oldest) x) := by
  induction more generalizing ents x with
  | nil => exact old
  | cons e rest ih =>
    obtain ⟨first, later⟩ := forall_mem_cons.mp positive'
    rw [reverse_cons, append_assoc, singleton_append, foldl_cons]
    exact ih (old.insert positive) (forall_mem_cons.mpr ⟨first, positive⟩) later

theorem fqOldest_isOldest (ents : List FqEnt) (positive : ∀ e ∈ ents, 0 < e.xid) :
    IsOldest ents (fqOldest ents) := by
  have old := IsOldest.foldl (.inl ⟨rfl, rfl⟩) (forall_mem_nil _) positive
  rw [append_nil] at old
  exact old.perm (reverse_perm ents)

/-! ### The entry an insert adds -/

theorem fqOrdered_perm (new : FqEnt) (ents : List FqEnt) :
    (fqOrdered new ents).Perm (new :: ents) := by
  induction ents with
  | nil => exact List.Perm.refl _
  | cons e rest ih =>
  rw [fqOrdered]
  split
  · exact List.Perm.refl _
  · exact (ih.cons e).trans (List.Perm.swap new e rest)

theorem FqNode.insert_ents (n : FqNode) (xid paddr : Nat) {count : Nat} (positive : 0 < count) :
    ∃ new : FqEnt, new.xid = xid ∧ new.paddr = paddr ∧ new.count = count ∧
      (n.insert xid paddr count).ents = fqOrdered new n.ents := by
  refine ⟨⟨xid, paddr, if (n.placeKey.2.placeVal count).1.isNone then 1 else count,
    n.placeKey.1, (n.placeKey.2.placeVal count).1⟩, rfl, rfl, ?_, rfl⟩
  unfold FqNode.placeVal
  by_cases one : count ≤ 1
  · simp only [if_pos one, Option.isNone_none, if_true]
    omega
  · rw [if_neg one]
    cases n.placeKey.2.valHoles <;> rfl

end Style9.Apfs
