import Style9.Apfs.Types

/-!
# The order of file-system tree keys

`jkeyCmp` orders two keys by object id, then by type, then by the rule of the type: file
extents by offset, directory entries by name. Keys too short for their rule, and keys of a
type without one, compare equal; so equality here is weaker than equality of bytes, and the
order is total only among keys long enough to be ordered.
-/
namespace Style9.Apfs

open Style9.Lib

def jRaw (key : Bytes) : Nat := rdLe 8 key 0

/-- The object id: the low 60 bits of the key's first word. -/
def jId (key : Bytes) : Nat := jRaw key % 2 ^ apfsJObjIdBits

/-- The record type: its top four bits. -/
def jType (key : Bytes) : Nat := jRaw key / 2 ^ apfsJObjIdBits

/-- The header word of a key: `id` masked to 60 bits, with the type above it. -/
def jKey (type id : Nat) : Bytes := leBytes 8 (id % 2 ^ apfsJObjIdBits + type * 2 ^ apfsJObjIdBits)

/-- `extent_key`: where one of a data stream's runs sorts. -/
def extentKey (id logical : Nat) : Bytes := jKey apfsTypeFileExtent id ++ leBytes 8 logical

variable (hashed : Bool)

/-- Where a directory entry's name starts. -/
def drecOff : Nat := if hashed then 12 else 10

/-- Byte by byte over the common length, then the shorter first. -/
def nameCmp (a b : Bytes) : Ordering := List.compareLex compare a b

def drecCmp (a b : Bytes) : Ordering :=
  (if hashed then compare (rdLe 4 a 8) (rdLe 4 b 8) else .eq).then
    (nameCmp (a.drop (drecOff hashed)) (b.drop (drecOff hashed)))

/-- The order of two keys of one object and one type. -/
def jBodyCmp (a b : Bytes) : Ordering :=
  if jType a = apfsTypeFileExtent ∧ 16 ≤ a.length ∧ 16 ≤ b.length then
    compare (rdLe 8 a 8) (rdLe 8 b 8)
  else if jType a = apfsTypeDirRec then
    if a.length < drecOff hashed ∨ b.length < drecOff hashed then .eq else drecCmp hashed a b
  else .eq

def jkeyCmp (a b : Bytes) : Ordering :=
  if a.length < 8 ∨ b.length < 8 then .eq
  else if jId a ≠ jId b then compare (jId a) (jId b)
  else if jType a ≠ jType b then compare (jType a) (jType b)
  else jBodyCmp hashed a b

/-- Long enough for the rule of its type, so that the order says where it belongs. -/
def Ordered (key : Bytes) : Prop :=
  8 ≤ key.length ∧ (jType key = apfsTypeFileExtent → 16 ≤ key.length) ∧
    (jType key = apfsTypeDirRec → drecOff hashed ≤ key.length)

instance (hashed : Bool) (key : Bytes) : Decidable (Ordered hashed key) :=
  inferInstanceAs (Decidable (_ ∧ _ ∧ _))

private theorem transCmp_comap {α β : Type} (cmp : β → β → Ordering) [Std.TransCmp cmp]
    (f : α → β) : Std.TransCmp fun a b => cmp (f a) (f b) where
  eq_swap := Std.OrientedCmp.eq_swap
  isLE_trans := Std.TransCmp.isLE_trans

instance (hashed : Bool) : Std.TransCmp (drecCmp hashed) := by
  have name : Std.TransCmp fun a b : Bytes => nameCmp (a.drop (drecOff hashed))
      (b.drop (drecOff hashed)) :=
    transCmp_comap (List.compareLex compare) fun a : Bytes => a.drop (drecOff hashed)
  cases hashed with
  | false => exact name
  | true =>
    have word :=
      transCmp_comap compare fun a : Bytes => rdLe 4 a 8
    exact inferInstanceAs (Std.TransCmp (compareLex (fun a b : Bytes =>
      compare (rdLe 4 a 8) (rdLe 4 b 8)) _))

/-! ### The order, taken apart -/

section
variable {hashed : Bool} {a b c : Bytes}

theorem jkeyCmp_eq_lt_iff : jkeyCmp hashed a b = .lt ↔ 8 ≤ a.length ∧ 8 ≤ b.length ∧
    (jId a < jId b ∨ jId a = jId b ∧ (jType a < jType b ∨
      jType a = jType b ∧ jBodyCmp hashed a b = .lt)) := by
  unfold jkeyCmp
  split
  next short => simp; omega
  next long =>
  split
  next ids => rw [Nat.compare_eq_lt]; omega
  next ids =>
  split
  next types => rw [Nat.compare_eq_lt]; omega
  next types =>
    have same : jId a = jId b ∧ jType a = jType b := ⟨not_not.mp ids, not_not.mp types⟩
    have long' : 8 ≤ a.length ∧ 8 ≤ b.length := by omega
    simp [same, long']

/-- Not above: the form in which a descent asks whether a separator is at or below a key. -/
theorem jkeyCmp_isLE_iff : (jkeyCmp hashed a b).isLE ↔ (a.length < 8 ∨ b.length < 8) ∨
    (jId a < jId b ∨ jId a = jId b ∧ (jType a < jType b ∨
      jType a = jType b ∧ (jBodyCmp hashed a b).isLE)) := by
  unfold jkeyCmp
  split
  next short => simp [short]
  next long =>
  split
  next ids => rw [Nat.isLE_compare]; omega
  next ids =>
  split
  next types => rw [Nat.isLE_compare]; omega
  next types =>
    have same : jId a = jId b ∧ jType a = jType b := ⟨not_not.mp ids, not_not.mp types⟩
    simp [same, long]

theorem jBodyCmp_fileExtent (type : jType a = apfsTypeFileExtent) (lenA : 16 ≤ a.length)
    (lenB : 16 ≤ b.length) : jBodyCmp hashed a b = compare (rdLe 8 a 8) (rdLe 8 b 8) :=
  if_pos ⟨type, lenA, lenB⟩

theorem jBodyCmp_dirRec (type : jType a = apfsTypeDirRec) (lenA : drecOff hashed ≤ a.length)
    (lenB : drecOff hashed ≤ b.length) : jBodyCmp hashed a b = drecCmp hashed a b := by
  have notFile : ¬ apfsTypeDirRec = apfsTypeFileExtent := by decide
  rw [jBodyCmp, type, if_neg (fun h => notFile h.1), if_pos rfl, if_neg (by omega)]

/-- Only the two types with a rule are told apart, and only keys long enough for it. -/
theorem jBodyCmp_lt_cases (body : jBodyCmp hashed a b = .lt) :
    (jType a = apfsTypeFileExtent ∧ 16 ≤ a.length ∧ 16 ≤ b.length) ∨
      (jType a = apfsTypeDirRec ∧ drecOff hashed ≤ a.length ∧ drecOff hashed ≤ b.length) := by
  unfold jBodyCmp at body
  split at body
  next file => exact .inl file
  next =>
  split at body
  next dir =>
    split at body
    · cases body
    next lens => exact .inr ⟨dir, by omega, by omega⟩
  · cases body

/-- Within one object and one type the order is transitive as far as the last key is long
enough for the rule. -/
private theorem jBodyCmp_lt_of_lt_of_isLE (ab : jType a = jType b) (bc : jType b = jType c)
    (long : Ordered hashed c)
    (first : jBodyCmp hashed a b = .lt) (second : (jBodyCmp hashed b c).isLE) :
    jBodyCmp hashed a c = .lt := by
  obtain ⟨-, extent, dirRec⟩ := long
  rcases jBodyCmp_lt_cases first with ⟨type, lenA, lenB⟩ | ⟨type, lenA, lenB⟩
  · have lenC := extent (bc ▸ ab ▸ type)
    rw [jBodyCmp_fileExtent type lenA lenB] at first
    rw [jBodyCmp_fileExtent (ab ▸ type) lenB lenC] at second
    rw [jBodyCmp_fileExtent type lenA lenC]
    exact Std.TransCmp.lt_of_lt_of_isLE first second
  have lenC := dirRec (bc ▸ ab ▸ type)
  rw [jBodyCmp_dirRec type lenA lenB] at first
  rw [jBodyCmp_dirRec (ab ▸ type) lenB lenC] at second
  rw [jBodyCmp_dirRec type lenA lenC]
  exact Std.TransCmp.lt_of_lt_of_isLE first second

theorem jkeyCmp_lt_of_lt_of_isLE (long : Ordered hashed c)
    (first : jkeyCmp hashed a b = .lt) (second : (jkeyCmp hashed b c).isLE) :
    jkeyCmp hashed a c = .lt := by
  rw [jkeyCmp_eq_lt_iff] at first ⊢
  rw [jkeyCmp_isLE_iff] at second
  obtain ⟨lenA, lenB, below⟩ := first
  have lenC := long.1
  refine ⟨lenA, lenC, ?_⟩
  rcases second with short | second
  · omega
  rcases below with ids | ⟨ids, types | ⟨types, body⟩⟩ <;>
    rcases second with ids' | ⟨ids', types' | ⟨types', body'⟩⟩ <;> try omega
  exact .inr ⟨ids.trans ids',
    .inr ⟨types.trans types', jBodyCmp_lt_of_lt_of_isLE types types' long body body'⟩⟩

private theorem jBodyCmp_lt_ordered (lenB : 8 ≤ b.length) (types : jType a = jType b)
    (body : jBodyCmp hashed a b = .lt) : Ordered hashed b := by
  have differ : apfsTypeFileExtent ≠ apfsTypeDirRec := by decide
  rcases jBodyCmp_lt_cases body with ⟨type, -, len⟩ | ⟨type, -, len⟩ <;> rw [types] at type
  · exact ⟨lenB, fun _ => len, fun other => absurd (type.symm.trans other) differ⟩
  · exact ⟨lenB, fun other => absurd (other.symm.trans type) differ, fun _ => len⟩

theorem jkeyCmp_lt_trans (first : jkeyCmp hashed a b = .lt) (second : jkeyCmp hashed b c = .lt) :
    jkeyCmp hashed a c = .lt := by
  rw [jkeyCmp_eq_lt_iff] at first second ⊢
  obtain ⟨lenA, lenB, below⟩ := first
  obtain ⟨-, lenC, below'⟩ := second
  refine ⟨lenA, lenC, ?_⟩
  rcases below with ids | ⟨ids, types | ⟨types, body⟩⟩ <;>
    rcases below' with ids' | ⟨ids', types' | ⟨types', body'⟩⟩ <;> try omega
  exact .inr ⟨ids.trans ids', .inr ⟨types.trans types',
      jBodyCmp_lt_of_lt_of_isLE types types' (jBodyCmp_lt_ordered lenC types' body') body
      (by rw [body']; rfl)⟩⟩

end

end Style9.Apfs
