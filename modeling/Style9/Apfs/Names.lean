import Style9.Apfs.Key

/-!
# The keys of directory entries

A directory entry is stored under its name, and on a hashed volume under the hash of the name first.
`jkeyCmp` is a strict total order on the keys a volume stores: keys it does not tell apart are the
same bytes.
-/
namespace Style9.Apfs

open Style9.Lib List

def apfsTypeInode : Nat := 3
def apfsTypeDstreamId : Nat := 6
def fsApfsNameMax : Nat := 255

def crc32c (crc : UInt32) (p : Bytes) : UInt32 :=
  p.foldl (fun crc b => (range 8).foldl (fun crc _ => if crc &&& 1 ≠ 0 then crc >>> 1 ^^^ 0x82F63B78
    else crc >>> 1)
    (crc ^^^ b.toUInt32)) crc

/-- The loop of `drec_key` over the bytes of a name: they are folded, and one that is not ASCII is
refused. -/
def nameHash : Bytes → UInt32 → Option UInt32
  | [], crc => some crc
  | c :: rest, crc =>
    if 0x80 ≤ c then none
      else nameHash rest (crc32c crc [if 0x41 ≤ c ∧ c ≤ 0x5A then c + 0x20 else c, 0, 0, 0])

variable (hashed : Bool)

/-- A key of a directory entry: the word before the name is hash and length, or the length alone. -/
def drecBytes (parent word : Nat) (name : Bytes) : Bytes :=
  jKey apfsTypeDirRec parent ++ (leBytes (drecOff hashed - 8) word ++ name)

/-- `drec_key`; the only error is `FS_APFS_E_INVAL`. -/
def drecKey (parent : Nat) (name : Bytes) : Option Bytes :=
  if fsApfsNameMax < name.length then none
  else if hashed then (nameHash name 0xFFFFFFFF).map fun crc =>
    drecBytes hashed parent (crc.toNat % 2 ^ 22 * 2 ^ 10 + (name.length + 1) % 2 ^ 10) (name ++ [0])
  else some (drecBytes hashed parent (name.length + 1) (name ++ [0]))

def drecName (key : Bytes) : Option Bytes :=
  let n := if hashed then rdLe 4 key 8 % 2 ^ 10 else rdLe 2 key 8
  if key.length < drecOff hashed + 1 ∨ n = 0 ∨ key.length - drecOff hashed < n then none
  else some ((key.drop (drecOff hashed)).take (n - 1))

def drecLowKey (dir : Nat) : Bytes := drecBytes hashed dir 0 []

/-- The keys this volume stores. -/
inductive Stored (key : Bytes) : Prop
  | object (len : key.length = 8) (type : jType key = apfsTypeInode ∨ jType key = apfsTypeDstreamId)
  | extent (len : key.length = 16) (type : jType key = apfsTypeFileExtent)
  | entry {parent : Nat} {name : Bytes} (built : drecKey hashed parent name = some key)

/-- What `drec_key` builds. -/
def Entry (parent : Nat) (name key : Bytes) : Prop :=
  ∃ word < 256 ^ (drecOff hashed - 8), key = drecBytes hashed parent word (name ++ [0]) ∧
    (if hashed then word % 2 ^ 10 else word) = name.length + 1

variable {hashed} {a b key name name' : Bytes} {parent parent' word word' : Nat}

theorem jkeyCmp_swap (a b : Bytes) : jkeyCmp hashed b a = (jkeyCmp hashed a b).swap := by
  have names : drecCmp hashed b a = (drecCmp hashed a b).swap := Std.OrientedCmp.eq_swap
  have numbers : ∀ m n : Nat, compare n m = (compare m n).swap := fun _ _ => Std.OrientedCmp.eq_swap
  unfold jkeyCmp jBodyCmp
  grind [Ordering.swap]

theorem jkeyCmp_self (a : Bytes) : jkeyCmp hashed a a = .eq := by
  have swap : jkeyCmp hashed a a = _ := jkeyCmp_swap a a
  cases cmp : jkeyCmp hashed a a <;> rw [cmp] at swap <;> cases swap

/-! ### What is read back from a key -/

theorem jId_drecBytes : jId (drecBytes hashed parent word name) = parent % 2 ^ 60 ∧
    jType (drecBytes hashed parent word name) = 9 := by
  have raw : jRaw (drecBytes hashed parent word name) = parent % 2 ^ 60 + 9 * 2 ^ 60 :=
    leNat_take_leBytes (by simp [apfsJObjIdBits, apfsTypeDirRec]; omega)
  simp only [jId, jType, raw, apfsJObjIdBits]
  omega

theorem length_drecBytes :
    (drecBytes hashed parent word name).length = drecOff hashed + name.length := by
  cases hashed <;> simp [drecBytes, jKey, drecOff] <;> omega

theorem drop_drecBytes :
    (drecBytes hashed parent word name).drop 8 = leBytes (drecOff hashed - 8) word ++ name :=
  drop_left' (length_leBytes ..)

theorem drecBytes_name : (drecBytes hashed parent word name).drop (drecOff hashed) = name := by
  cases hashed <;> simp [drecBytes, jKey, drecOff, drop_append]

theorem rdLe_drecBytes (parent : Nat) (name : Bytes) (low : word < 256 ^ (drecOff hashed - 8)) :
    rdLe (drecOff hashed - 8) (drecBytes hashed parent word name) 8 = word := by
  rw [rdLe, drop_drecBytes]
  exact leNat_take_leBytes low

theorem eight_le_drecBytes : 8 ≤ (drecBytes hashed parent word name).length := by
  rw [length_drecBytes]
  grind [drecOff]

theorem jBodyCmp_drecBytes (low : word < 256 ^ (drecOff hashed - 8))
    (low' : word' < 256 ^ (drecOff hashed - 8)) :
    jBodyCmp hashed (drecBytes hashed parent word name) (drecBytes hashed parent' word' name') =
      (if hashed then compare word word' else .eq).then (nameCmp name name') := by
  have read := rdLe_drecBytes parent name low
  have read' := rdLe_drecBytes parent' name' low'
  rw [jBodyCmp_dirRec jId_drecBytes.2 (by simp [length_drecBytes]) (by simp [length_drecBytes]),
    drecCmp, drecBytes_name,
    drecBytes_name]
  cases hashed with
  | false => rfl
  | true => exact congrArg₂ (fun m n => (compare m n).then (nameCmp name name')) read read'

theorem drecKey_entry (built : drecKey hashed parent name = some key) :
    Entry hashed parent name key := by
  unfold drecKey fsApfsNameMax at built
  cases hashed with
  | false =>
    simp at built
    exact ⟨name.length + 1, by simp [drecOff]; omega, built.2.symm, rfl⟩
  | true =>
    simp at built
    obtain ⟨short, crc, -, rfl⟩ := built
    exact ⟨_, by simp [drecOff]; omega, rfl, by simp; omega⟩

theorem drecKey_ordered (built : drecKey hashed parent name = some key) : Ordered hashed key := by
  obtain ⟨word, -, rfl, -⟩ := drecKey_entry built
  refine ⟨eight_le_drecBytes, fun type => ?_, fun _ => by simp [length_drecBytes]⟩
  rw [jId_drecBytes.2] at type
  cases type

theorem Entry.drecName (entry : Entry hashed parent name key) :
    drecName hashed key = some name := by
  obtain ⟨word, low, rfl, len⟩ := entry
  have read := rdLe_drecBytes parent (name ++ [0]) low
  unfold Apfs.drecName
  rw [drecBytes_name]
  cases hashed <;> simp [drecOff, length_drecBytes] at read len ⊢ <;> simp only [read] <;>
    simp [len] <;> omega

/-- The type of a key tells its form. -/
theorem Stored.form (stored : Stored hashed key) :
    jType key < 8 ∧ key.length = 8 ∨ jType key = 8 ∧ key.length = 16 ∨
    jType key = 9 ∧ 8 ≤ key.length ∧ ∃ parent name, Entry hashed parent name key := by
  cases stored with
  | object len type =>
    exact .inl ⟨by simp only [apfsTypeInode, apfsTypeDstreamId] at type; omega, len⟩
  | extent len type => exact .inr (.inl ⟨type, len⟩)
  | entry built =>
    obtain ⟨word, low, rfl, len⟩ := drecKey_entry built
    exact .inr (.inr ⟨jId_drecBytes.2, eight_le_drecBytes, _, _, word, low, rfl, len⟩)

theorem Stored.length (stored : Stored hashed key) : 8 ≤ key.length := by
  have := stored.form
  omega

theorem Stored.eq_of_cmp (stored : Stored hashed a) (stored' : Stored hashed b)
    (same : jkeyCmp hashed a b = .eq) :
    a = b := by
  have long := stored.length
  have long' := stored'.length
  obtain ⟨id, type, body⟩ : jId a = jId b ∧ jType a = jType b ∧ jBodyCmp hashed a b = .eq := by
    unfold jkeyCmp at same
    grind [Nat.compare_eq_eq]
  have raw : jRaw a = jRaw b := by grind [jId, jType, apfsJObjIdBits]
  rw [← take_append_drop 8 a, ← take_append_drop 8 b]
  refine congrArg₂ (· ++ ·) (leNat_injective (by simp [long, long']) raw) ?_
  rcases stored.form with ⟨t, len⟩ | ⟨t, len⟩ | ⟨t, -, _, name, word, low, rfl, len⟩ <;>
    rcases stored'.form with ⟨t', len'⟩ | ⟨t', len'⟩ | ⟨t', -, _, name', word', low', rfl, len'⟩ <;>
      try omega
  · rw [drop_of_length_le len.le, drop_of_length_le len'.le]
  · rw [jBodyCmp_fileExtent t len.ge len'.ge, Nat.compare_eq_eq] at body
    refine leNat_injective (by simp [len, len']) ?_
    rwa [rdLe, rdLe, take_of_length_le (by simp [len]), take_of_length_le (by simp [len'])] at body
  · rw [jBodyCmp_drecBytes low low', Ordering.then_eq_eq] at body
    have names : name = name' :=
      append_cancel_right (List.instLawfulEqCmpCompareLex.eq_of_compare body.2)
    have words : word = word' := by
      cases hashed with
      | false => exact len.trans (names ▸ len'.symm)
      | true => exact Nat.compare_eq_eq.mp body.1
    rw [drop_drecBytes, drop_drecBytes, names, words]

/-- `jkeyCmp` is a strict total order on the keys a volume stores: it keeps the records of an object
together, by type, and the low key of a directory under the names in it; and the name given to
`drecKey` is read back. -/
theorem jkey_cmp_strict_order (hashed : Bool) :
    (∀ a b, jkeyCmp hashed b a = (jkeyCmp hashed a b).swap) ∧
    (∀ a b c, jkeyCmp hashed a b = .lt → jkeyCmp hashed b c = .lt → jkeyCmp hashed a c = .lt) ∧
    (∀ a b, Stored hashed a → Stored hashed b → (jkeyCmp hashed a b = .eq ↔ a = b)) ∧
    (∀ a b c, jkeyCmp hashed a b = .lt → jkeyCmp hashed b c = .lt → jId a = jId c →
      jId b = jId a ∧ jType a ≤ jType b ∧ jType b ≤ jType c) ∧
    (∀ dir key, Stored hashed key → jId key = dir % 2 ^ 60 →
      (jType key = apfsTypeDirRec → jkeyCmp hashed (drecLowKey hashed dir) key = .lt) ∧
      (jType key < apfsTypeDirRec → jkeyCmp hashed key (drecLowKey hashed dir) = .lt)) ∧
    ∀ parent name key, drecKey hashed parent name = some key → drecName hashed key = some name := by
  refine ⟨jkeyCmp_swap, fun a b c => jkeyCmp_lt_trans, fun a b stored stored' =>
    ⟨stored.eq_of_cmp stored', ?_⟩, ?_, ?_,
    fun parent name key built => (drecKey_entry built).drecName⟩
  · rintro rfl
    exact jkeyCmp_self a
  · intro a b c first second same
    rw [jkeyCmp_eq_lt_iff] at first second
    omega
  intro dir key stored same
  simp only [jkeyCmp_eq_lt_iff, drecLowKey, jId_drecBytes, eight_le_drecBytes, same, stored.length,
    true_and, lt_irrefl,
    false_or]
  refine ⟨fun (type : jType key = 9) => .inr ⟨type.symm, ?_⟩, .inl⟩
  rcases stored.form with form | form | ⟨-, -, parent, name, word, below, rfl, len⟩
  · omega
  · omega
  rw [jBodyCmp_drecBytes (Nat.pow_pos (by decide)) below]
  cases hashed with
  | false => cases name <;> rfl
  | true =>
    have positive : 0 < word := by
      simp at len
      omega
    simp [Nat.compare_eq_lt.mpr positive]

theorem jkey_cmp_strict_order_entry :
    ∃ key, drecKey false 2 [97] = some key ∧ drecName false key = some [97] :=
  ⟨_, rfl, (jkey_cmp_strict_order false).2.2.2.2.2 2 [97] _ rfl⟩

end Style9.Apfs
