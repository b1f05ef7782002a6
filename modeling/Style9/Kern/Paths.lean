import Mathlib.Data.List.TakeWhile
import Style9.Lib.Bytes

/-!
# Resolving a path

`darwin_path_resolve` writes the normal form of a path into a buffer, and uses the buffer itself as
the stack of components: a component is appended behind a separator, and `..` takes bytes away down
to one. What it writes is the reading of the components one after the other over a list, and it
fails only where that does not fit.
-/
namespace Style9.Kern.Paths

open Style9.Lib List Nat

def slash : UInt8 := 47

def dot : UInt8 := 46

/-- A buffer is written with its last byte first. -/
abbrev Buffer := List UInt8

/-- The working directory is copied a byte at a time. -/
def copy (cap : Nat) : Bytes → Buffer → Option Buffer
  | [], out => some out
  | c :: rest, out => if cap ≤ out.length + 1 then none else copy cap rest (c :: out)

/-- Bytes go until there is a separator in front, or only the first byte is left. -/
def unwind : Buffer → Buffer
  | c :: b :: rest => if c ≠ slash then unwind (b :: rest) else c :: b :: rest
  | out => out

def pop (out : Buffer) : Buffer :=
  let out := unwind out
  let out := if 1 < out.length then out.tail else out
  if out = [] then [slash] else out

def component (cap : Nat) (comp : Bytes) (out : Buffer) : Option Buffer :=
  if comp = [dot] then some out
  else if comp = [dot, dot] then some (pop out)
  else
    (if out.head? ≠ some slash then if cap ≤ out.length + 1 then none else some (slash :: out)
      else some out).bind fun out =>
      if cap ≤ out.length + comp.length then none else some (comp.reverse ++ out)

/-- The loop over the components of the path. -/
def walk (cap : Nat) (path : Bytes) (out : Buffer) : Option Buffer :=
  match path with
  | [] => some out
  | c :: rest =>
    if c = slash then walk cap rest out
    else (component cap (c :: rest.takeWhile (· != slash)) out).bind
      (walk cap (rest.dropWhile (· != slash)))
termination_by path.length
decreasing_by
  · simp
  · exact lt_succ_of_le (dropWhile_suffix _).length_le

def darwinPathResolve (cwd path : Bytes) (cap : Nat) : Option Bytes :=
  if cap < 2 then none
  else
    (if path.head? ≠ some slash then copy cap cwd [] else some []).bind fun out =>
      (walk cap path (if out = [] then [slash] else out)).map fun out =>
        (if 1 < out.length ∧ out.head? = some slash then out.tail else out).reverse

/-! ### What a path means -/

def components (path : Bytes) : List Bytes := (path.splitOn slash).filter (· ≠ [])

/-- One more component is read; the last one read is in front. -/
def enter (stack : List Bytes) (comp : Bytes) : List Bytes :=
  if comp = [dot] then stack else if comp = [dot, dot] then stack.tail else comp :: stack

def body : List Bytes → Bytes
  | [] => []
  | comp :: stack => body stack ++ slash :: comp

def render (stack : List Bytes) : Bytes := if stack = [] then [slash] else body stack

structure Plain (comp : Bytes) : Prop where
  nonempty : comp ≠ []
  noSlash : slash ∉ comp
  notDot : comp ≠ [dot]
  notDots : comp ≠ [dot, dot]

/-- Absolute, with no empty, `.` or `..` component, and no separator at the end but for the root. -/
def Normal (path : Bytes) : Prop := ∃ stack, path = render stack ∧ ∀ comp ∈ stack, Plain comp

/-- The components that are read: those of the working directory come first if the path is relative.
-/
def given (cwd path : Bytes) : List Bytes :=
  (if path.head? ≠ some slash then components cwd else []) ++ components path

variable {cap : Nat} {cwd path rest comp : Bytes} {stack comps : List Bytes} {out : Buffer}
  {result : Option Buffer}

theorem components_nil : components [] = [] := by simp [components]

theorem components_slash : components (slash :: rest) = components rest := by
  have split := splitOn_append_cons_self_of_not_mem (not_mem_nil (a := slash)) rest
  rw [nil_append] at split
  simp [components, split]

theorem components_append (nonempty : comp ≠ []) (noSlash : slash ∉ comp)
    (ends : rest = [] ∨ rest.head? = some slash) :
    components (comp ++ rest) = comp :: components rest := by
  rcases ends with rfl | ends
  · have split : comp.splitOn slash = [comp] := splitOnP_eq_singleton fun x member => by
      simp only [beq_eq_false_iff_ne]
      rintro rfl
      exact noSlash member
    rw [append_nil]
    simp [components, split, nonempty]
  · obtain ⟨tail, rfl⟩ := head?_eq_some_iff.mp ends
    rw [components_slash]
    simp [components, splitOn_append_cons_self_of_not_mem noSlash, nonempty]

theorem render_cons : render (comp :: stack) = body stack ++ slash :: comp := rfl

theorem length_render_tail : (render stack.tail).length ≤ (render stack).length := by
  cases stack with
  | nil => exact le_rfl
  | cons comp stack => cases stack <;> simp [render, body]

theorem enter_plain (plain : ∀ c ∈ stack, Plain c) (nonempty : comp ≠ []) (noSlash : slash ∉ comp) :
    ∀ c ∈ enter stack comp, Plain c := by
  have := Plain.mk nonempty noSlash
  grind [enter, mem_of_mem_tail]

/-! ### The buffer is the stack -/

theorem unwind_append (noSlash : slash ∉ comp) : unwind (comp ++ slash :: out) = slash :: out := by
  induction comp with
  | nil => cases out <;> simp [unwind]
  | cons c rest ih =>
    obtain ⟨b, tail, next⟩ : ∃ b tail, rest ++ slash :: out = b :: tail := by cases rest <;> simp
    grind [unwind]

theorem pop_render (plain : ∀ c ∈ stack, Plain c) :
    pop (render stack).reverse = (render stack.tail).reverse := by
  cases stack with
  | nil => decide
  | cons comp stack =>
  have noSlash := (plain comp mem_cons_self).noSlash
  have bytes : (render (comp :: stack)).reverse = comp.reverse ++
      slash :: (body stack).reverse := by simp [render_cons]
  rw [bytes, pop, unwind_append (by simpa using noSlash)]
  cases stack with
  | nil => rfl
  | cons => simp [render, body]

theorem head_render (plain : ∀ c ∈ stack, Plain c) :
    (render stack).reverse.head? = some slash ↔ stack = [] := by
  cases stack with
  | nil => simp [render]
  | cons comp stack =>
  obtain ⟨nonempty, noSlash, -, -⟩ := plain comp mem_cons_self
  obtain ⟨last, front, bytes⟩ := exists_cons_of_ne_nil (reverse_ne_nil_iff.mpr nonempty)
  have member := mem_reverse.mp (bytes ▸ mem_cons_self)
  simp [render_cons, bytes]
  rintro rfl
  exact noSlash member

/-- A component fits, or the buffer is too small for the path so far. -/
theorem component_render (plain : ∀ c ∈ stack, Plain c) (fits : (render stack).length < cap) :
    component cap comp (render stack).reverse =
      if (render (enter stack comp)).length < cap then some (render (enter stack comp)).reverse
        else none := by
  by_cases one : comp = [dot]
  · simp [component, enter, one, fits]
  by_cases two : comp = [dot, dot]
  · simp [component, enter, two, pop_render plain, lt_of_le_of_lt length_render_tail fits]
  simp only [component, enter, one, two, if_false, ne_eq, head_render plain]
  -- at the root there is a separator already
  cases stack with
  | nil => grind [render, body]
  | cons last stack =>
    have longer : (render (comp :: last :: stack)).length = (render (last :: stack)).length + 1 +
        comp.length := by
      simp [render, body]
      omega
    have bytes : (render (comp :: last :: stack)).reverse = comp.reverse ++
        slash :: (render (last :: stack)).reverse := by
      simp [render, body]
    rw [longer, bytes]
    grind

/-- What a run of the loop has to give: the components read over the stack, or a prefix of them that
does not fit. -/
def Reads (cap : Nat) (stack comps : List Bytes) : Option Buffer → Prop
  | some out => (∀ c ∈ comps.foldl enter stack, Plain c) ∧
    (render (comps.foldl enter stack)).length < cap ∧
      out = (render (comps.foldl enter stack)).reverse
  | none => ∃ k, cap ≤ (render ((comps.take k).foldl enter stack)).length

theorem Reads.cons (later : Reads cap (enter stack comp) comps result) :
    Reads cap stack (comp :: comps) result := by
  cases result with
  | some out => exact later
  | none =>
    obtain ⟨k, long⟩ := later
    exact ⟨k + 1, long⟩

theorem walk_reads (path : Bytes) (plain : ∀ c ∈ stack, Plain c)
    (fits : (render stack).length < cap) (same : out = (render stack).reverse) :
    Reads cap stack (components path) (walk cap path out) := by
  fun_induction walk cap path out generalizing stack with
  | case1 out =>
    rw [components_nil]
    exact ⟨plain, fits, same⟩
  | case2 out rest ih =>
    rw [components_slash]
    exact ih plain fits same
  | case3 out c rest other ih =>
  have noSlash : slash ∉ c :: rest.takeWhile (· != slash) := by
    rw [mem_cons, not_or]
    exact ⟨Ne.symm other, fun member => by simpa using mem_takeWhile_imp member⟩
  have ends : rest.dropWhile (· != slash) = [] ∨
      (rest.dropWhile (· != slash)).head? = some slash := by
    cases left : rest.dropWhile (· != slash) with
    | nil => exact .inl rfl
    | cons b tail =>
      have stop := head?_dropWhile_not (· != slash) rest
      rw [left] at stop
      exact .inr (by simpa using stop)
  have split := components_append (cons_ne_nil c _) noSlash ends
  rw [cons_append, takeWhile_append_dropWhile] at split
  rw [split, same, component_render plain fits]
  split
  next room => exact (ih _ (enter_plain plain (cons_ne_nil c _) noSlash) room rfl).cons
  next full => exact ⟨1, not_lt.mp full⟩

/-! ### Normal forms are read back -/

theorem components_body (plain : ∀ c ∈ stack, Plain c)
    (ends : rest = [] ∨ rest.head? = some slash) :
    components (body stack ++ rest) = stack.reverse ++ components rest := by
  induction stack generalizing rest with
  | nil => rfl
  | cons comp stack ih =>
    obtain ⟨first, plain⟩ := forall_mem_cons.mp plain
    rw [body, append_assoc, cons_append, ih plain (.inr rfl), components_slash,
      components_append first.nonempty first.noSlash ends,
      reverse_cons, append_assoc, singleton_append]

theorem components_render (plain : ∀ c ∈ stack, Plain c) :
    components (render stack) = stack.reverse := by
  cases stack with
  | nil => rw [render, if_pos rfl, components_slash, components_nil, reverse_nil]
  | cons comp stack =>
    have read := components_body plain (.inl rfl)
    rwa [append_nil, components_nil, append_nil] at read

theorem foldl_enter (plain : ∀ c ∈ comps, Plain c) :
    comps.foldl enter stack = comps.reverse ++ stack := by
  induction comps generalizing stack with
  | nil => rfl
  | cons comp comps ih =>
    obtain ⟨first, plain⟩ := forall_mem_cons.mp plain
    rw [foldl_cons, ih plain, enter, if_neg first.notDot, if_neg first.notDots, reverse_cons,
      append_assoc, singleton_append]

theorem Reads.append (plain : ∀ c ∈ stack, Plain c)
    (reads : Reads cap stack comps result) : Reads cap [] (stack.reverse ++ comps) result := by
  have before : stack.reverse.foldl enter [] = stack := by
    rw [foldl_enter fun c member => plain c (mem_reverse.mp member), reverse_reverse, append_nil]
  cases result with
  | some out =>
    unfold Reads
    rw [foldl_append, before]
    exact reads
  | none =>
  obtain ⟨k, long⟩ := reads
  refine ⟨stack.reverse.length + k, ?_⟩
  rw [take_length_add_append, foldl_append, before]
  exact long

theorem copy_eq (nonempty : path ≠ []) : copy cap path out =
    if out.length + path.length < cap then some (path.reverse ++ out) else none := by
  induction path generalizing out with
  | nil => exact absurd rfl nonempty
  | cons c rest ih =>
  rw [copy]
  by_cases full : cap ≤ out.length + 1
  · rw [if_pos full, if_neg (by rw [length_cons]; omega)]
  rw [if_neg full]
  cases rest with
  | nil => rw [copy, if_pos (by simpa using full)]; rfl
  | cons b tail =>
    rw [ih (cons_ne_nil b tail)]
    simp [add_assoc, add_comm 1]

theorem darwinPathResolve_reads (cwd path : Bytes) (normal : path.head? = some slash ∨ Normal cwd)
    (room : 2 ≤ cap) :
    Reads cap [] (given cwd path) ((darwinPathResolve cwd path cap).map reverse) := by
  have stripped : ∀ {stack}, (∀ c ∈ stack, Plain c) → (render stack).length < cap →
      Reads cap stack (components path) (((walk cap path (render stack).reverse).map fun out =>
        (if 1 < out.length ∧ out.head? = some slash then out.tail
          else out).reverse).map reverse) := by
    intro stack plain fits
    have reads := walk_reads path plain fits rfl
    cases done : walk cap path (render stack).reverse with
    | none =>
      rw [done] at reads
      exact reads
    | some out =>
    rw [done] at reads
    obtain ⟨plain', fits', rfl⟩ := reads
    refine ⟨plain', fits', ?_⟩
    -- only the root ends in a separator
    rw [reverse_reverse, if_neg]
    rintro ⟨long, ends⟩
    rw [(head_render plain').mp ends] at long
    simp [render] at long
  unfold darwinPathResolve given
  rw [if_neg (not_lt.mpr room)]
  by_cases absolute : path.head? = some slash
  · have reads := @stripped [] (by simp) room
    simpa [absolute, render] using reads
  obtain ⟨stack, rfl, plain⟩ := normal.resolve_left absolute
  rw [if_pos absolute, if_pos absolute, components_render plain]
  have nonempty : render stack ≠ [] := by cases stack <;> simp [render, body]
  rw [copy_eq nonempty, length_nil, zero_add, append_nil]
  refine .append plain ?_
  split
  next fits => simpa [nonempty] using stripped plain fits
  next long => exact ⟨0, not_lt.mp long⟩

theorem render_head : (render stack).head? = some slash := by
  induction stack with
  | nil => rfl
  | cons comp stack ih =>
  cases stack with
  | nil => rfl
  | cons last stack =>
    change (render (last :: stack) ++ slash :: comp).head? = _
    rw [head?_append, ih, Option.some_or]

theorem length_render_drop (stack : List Bytes) (k : Nat) :
    (render (stack.drop k)).length ≤ (render stack).length := by
  induction k with
  | zero => exact le_rfl
  | succ k ih =>
    rw [← tail_drop]
    exact le_trans length_render_tail ih

/-- Paths are normalised exactly. -/
theorem path_normalised (cwd path : Bytes) (cap : Nat) (normal : Normal cwd) (room : 2 ≤ cap) :
    (∀ out, darwinPathResolve cwd path cap = some out → Normal out ∧ out.length < cap ∧
      out = render ((given cwd path).foldl enter []) ∧
        ∀ cwd', darwinPathResolve cwd' out cap = some out) ∧
    (darwinPathResolve cwd path cap = none →
      ∃ k, cap ≤ (render (((given cwd path).take k).foldl enter [])).length) := by
  have reads := darwinPathResolve_reads cwd path (.inr normal) room
  constructor
  · intro out done
    rw [done] at reads
    obtain ⟨plain, fits, same⟩ := reads
    have same := reverse_injective same
    generalize (given cwd path).foldl enter [] = stack at *
    refine ⟨⟨stack, same, plain⟩, same ▸ fits, same, fun cwd' => ?_⟩
    -- the components are read back, and every prefix of them fits
    have absolute := same ▸ render_head
    have again := darwinPathResolve_reads cwd' _ (.inl absolute) room
    have comps : given cwd' out = stack.reverse := by
      rw [given, absolute, if_neg (not_not.mpr rfl), nil_append, same, components_render plain]
    have plain' : ∀ c ∈ stack.reverse, Plain c := fun c member => plain c (mem_reverse.mp member)
    rw [comps] at again
    cases twice : darwinPathResolve cwd' out cap with
    | none =>
      rw [twice] at again
      obtain ⟨k, long⟩ := again
      rw [foldl_enter fun c member => plain' c (mem_of_mem_take member), append_nil, take_reverse,
        reverse_reverse] at long
      have short := length_render_drop stack (stack.length - k)
      omega
    | some out' =>
    rw [twice] at again
    have read := again.2.2
    rw [foldl_enter plain', append_nil, reverse_reverse, ← same] at read
    rw [reverse_injective read]
  · intro failed
    rw [failed] at reads
    exact reads

theorem path_normalised_parent : Normal [slash, 97] ∧
    darwinPathResolve [slash, 97] [dot, dot, slash, 98] 8 = some [slash, 98] ∧ Normal [slash, 98] ∧
    ∀ cwd', darwinPathResolve cwd' [slash, 98] 8 = some [slash, 98] := by
  have normal : Normal [slash, 97] :=
    ⟨[[97]], rfl, by simpa using ⟨by decide, by decide, by decide, by decide⟩⟩
  have done : darwinPathResolve [slash, 97] [dot, dot, slash, 98] 8 = some [slash, 98] := by
    decide +kernel
  obtain ⟨result, -, -, again⟩ :=
    (path_normalised [slash, 97] [dot, dot, slash, 98] 8 normal (by decide)).1 _ done
  exact ⟨normal, done, result, again⟩

/-! ### Working directories -/

def darwinPathMax : Nat := 256

/-- `chdir`, with what `fs_stat` says of the directory wanted; a call that is refused changes
nothing. -/
def darwinChdir (cwd : Bytes) (call : Bytes × Bool) : Bytes :=
  match darwinPathResolve cwd call.1 darwinPathMax with
  | none => cwd
  | some want => if want = [slash] ∨ call.2 then want else cwd

/-- A working directory that paths can be resolved against. -/
def Home (cwd : Bytes) : Prop := Normal cwd ∧ cwd.length < darwinPathMax

theorem Home.resolve {out : Bytes} (settled : Home cwd)
    (done : darwinPathResolve cwd path darwinPathMax = some out) :
    Home out ∧ out = render ((given cwd path).foldl enter []) := by
  have reads := darwinPathResolve_reads cwd path (.inr settled.1) (by decide : 2 ≤ darwinPathMax)
  rw [done] at reads
  have same := reverse_injective reads.2.2
  exact ⟨⟨⟨_, same, reads.1⟩, same ▸ reads.2.1⟩, same⟩

theorem Home.chdir (settled : Home cwd) (call : Bytes × Bool) : Home (darwinChdir cwd call) := by
  unfold darwinChdir
  split
  · exact settled
  next done => grind [settled.resolve done]

/-- Whatever directories a task and those it was forked from have changed to since the root, its
working directory is in normal form and fits its buffer, and its paths resolve, if at all, to what
their components say. -/
theorem working_directory_settled (calls : List (Bytes × Bool)) :
    let cwd := calls.foldl darwinChdir [slash]
    Home cwd ∧ ∀ path out, darwinPathResolve cwd path darwinPathMax = some out →
      Home out ∧ out = render ((given cwd path).foldl enter []) := by
  have root : Home [slash] := ⟨⟨[], rfl, by simp⟩, by decide⟩
  have settled := foldlRecOn (motive := Home) calls darwinChdir root fun _ settled call _ =>
    settled.chdir call
  exact ⟨settled, fun path out => settled.resolve⟩

end Style9.Kern.Paths
