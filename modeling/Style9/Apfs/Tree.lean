import Style9.Apfs.Read
import Style9.Lib.Cut

/-!
# Catalog trees

The shape a catalog has when it is well formed, apart from how it is stored: a tree of
uniform depth whose leaves hold records and whose index nodes hold one entry per child.
`Stored` says that a reader finds exactly that tree on the device.
-/
namespace Style9.Apfs

open Style9.Lib

/-- A leaf: the block it lies in and its entries. -/
structure LeafShape where
  bno : Nat
  ents : List Ent

/-- An index node over children of one kind: the block, and each entry with its child. -/
structure IndexShape (C : Type) where
  bno : Nat
  kids : List (Ent × C)

/-- Trees with `n` index levels above the leaves. -/
def Tree : Nat → Type
  | 0 => LeafShape
  | n + 1 => IndexShape (Tree n)

namespace Tree

def leafEnts (t : Tree 0) : List Ent := LeafShape.ents t

def kids {n : Nat} (t : Tree (n + 1)) : List (Ent × Tree n) := IndexShape.kids t

def bno : {n : Nat} → Tree n → Nat
  | 0, t => LeafShape.bno t
  | _ + 1, t => IndexShape.bno t

/-- The entries of the top node. -/
def ents : {n : Nat} → Tree n → List Ent
  | 0, t => t.leafEnts
  | _ + 1, t => t.kids.map Prod.fst

/-- All records in tree order, each with the leaf that holds it. -/
def recs : {n : Nat} → Tree n → List CatRec
  | 0, t => t.leafEnts.map fun e => ⟨e.key, e.val, t.bno⟩
  | _ + 1, t => t.kids.flatMap fun kid => recs kid.2

/-- Every index node names a child, and files each child under that child's first key. -/
def Exact : {n : Nat} → Tree n → Prop
  | 0, _ => True
  | _ + 1, t => t.kids ≠ [] ∧
      ∀ kid ∈ t.kids, kid.2.ents.head?.map Ent.key = some kid.1.key ∧ Exact kid.2

def Stored (r : Reader) : {n : Nat} → Tree n → Prop
  | 0, t => ∃ node, r.disk t.bno = .node node ∧ node.leaf = true ∧ node.ents = t.ents
  | _ + 1, t => (∃ node, r.disk t.bno = .node node ∧ node.leaf = false ∧ node.ents = t.ents) ∧
      ∀ kid ∈ t.kids, r.child kid.1 = .ok kid.2.bno ∧ Stored r kid.2

@[simp] theorem recs_zero (t : Tree 0) :
    t.recs = t.leafEnts.map fun e => ⟨e.key, e.val, t.bno⟩ := rfl

@[simp] theorem recs_succ {n : Nat} (t : Tree (n + 1)) :
    t.recs = t.kids.flatMap fun kid => kid.2.recs := rfl

theorem Exact.head_key {n : Nat} {t : Tree n} (exact : t.Exact) :
    t.ents.head?.map Ent.key = t.recs.head?.map CatRec.key := by
  induction n with
  | zero => cases leaf : t.leafEnts <;> simp [ents, leaf]
  | succ n ih =>
  cases kids : t.kids with
  | nil => exact absurd kids exact.1
  | cons kid rest =>
  obtain ⟨filed, below⟩ := exact.2 kid (by simp [kids])
  have first := ih below
  rw [filed] at first
  cases records : kid.2.recs with
  | nil => simp [records] at first
  | cons rec later =>
    simpa [ents, kids, records] using first

theorem Exact.kid_head {n : Nat} {t : Tree (n + 1)} (exact : t.Exact) {kid : Ent × Tree n}
    (member : kid ∈ t.kids) : ∃ rec later, kid.2.recs = rec :: later ∧ rec.key = kid.1.key := by
  obtain ⟨filed, below⟩ := exact.2 kid member
  rw [below.head_key] at filed
  cases records : kid.2.recs with
  | nil => simp [records] at filed
  | cons rec later => exact ⟨rec, later, rfl, by simpa [records] using filed⟩

end Tree

end Style9.Apfs
