import Mathlib.Logic.Basic

/-!
# Actions that may fail part-way

A routine that changes a state and returns an error code: unlike in a transaction, what it
did before failing stays done. The lemmas take a successful run apart one action at a time.
-/
namespace Style9.Lib

/-- Run from a state to a result or an error, and a state either way. -/
def Act (σ ε α : Type) : Type := σ → Except ε α × σ

namespace Act

variable {σ ε α β : Type}

instance : Monad (Act σ ε) where
  pure a := fun s => (.ok a, s)
  bind x f := fun s =>
    match x s with
    | (.ok a, s') => f a s'
    | (.error e, s') => (.error e, s')

def fail (e : ε) : Act σ ε α := fun s => (.error e, s)

def read (f : σ → α) : Act σ ε α := fun s => (.ok (f s), s)

def modify (f : σ → σ) : Act σ ε Unit := fun s => (.ok (), f s)

/-- Go on only if the state satisfies a test. -/
def guard (test : σ → Bool) (e : ε) : Act σ ε Unit := fun s =>
  if test s then (.ok (), s) else (.error e, s)

/-- A computation on values that may fail. -/
def lift (x : σ → Except ε α) : Act σ ε α := fun s => (x s, s)

/-- If the action fails, do this to the state before reporting it. -/
def onFail (x : Act σ ε α) (undo : σ → σ) : Act σ ε α := fun s =>
  match x s with
  | (.ok a, s') => (.ok a, s')
  | (.error e, s') => (.error e, undo s')

/-- Run an action whose error code is ignored. -/
def ignore (x : Act σ ε α) : σ → σ := fun s => (x s).2

variable {x : Act σ ε α} {f : α → Act σ ε β} {s s' : σ} {a : α} {b : β} {e : ε}

@[simp] theorem pure_ok_iff {a' : α} : (pure a : Act σ ε α) s = (.ok a', s') ↔ a' = a ∧ s' = s := by
  change (Except.ok a, s) = (.ok a', s') ↔ _
  simp [eq_comm]

theorem bind_ok_iff :
    (x >>= f) s = (.ok b, s') ↔ ∃ a t, x s = (.ok a, t) ∧ f a t = (.ok b, s') := by
  change (match x s with
    | (.ok a, t) => f a t
    | (.error e, t) => (.error e, t)) = _ ↔ _
  rcases h : x s with ⟨_ | a, t⟩
  · simp
  constructor
  · exact fun run => ⟨a, t, rfl, run⟩
  · rintro ⟨a', t', same, run⟩
    cases same
    exact run

theorem bind_ok (run : (x >>= f) s = (.ok b, s')) : ∃ a t, x s = (.ok a, t) ∧ f a t = (.ok b, s') :=
  bind_ok_iff.mp run

theorem onFail_ok {undo : σ → σ} (run : onFail x undo s = (.ok a, s')) : x s = (.ok a, s') := by
  unfold onFail at run
  split at run
  next ran => rw [ran, run]
  · cases run

theorem run_out {out : Except ε α} (returned : (x s).1 = out) : x s = (out, (x s).2) :=
  Prod.ext returned rfl

theorem run_eq (returned : (x s).1 = .ok a) : x s = (.ok a, (x s).2) := run_out returned

theorem bind_of_ok {t : σ} (run : x s = (.ok a, t)) : (x >>= f) s = f a t := by
  change (match x s with
    | (.ok a, t) => f a t
    | (.error e, t) => (.error e, t)) = _
  rw [run]

theorem bind_of_error {t : σ} (run : x s = (.error e, t)) : (x >>= f) s = (.error e, t) := by
  change (match x s with
    | (.ok a, t) => f a t
    | (.error e, t) => (.error e, t)) = _
  rw [run]

theorem bind_assoc {γ : Type} (x : Act σ ε α) (f : α → Act σ ε β) (g : β → Act σ ε γ) :
    x >>= f >>= g = x >>= fun a => f a >>= g := by
  funext s
  rcases run : x s with ⟨e | a, t⟩
  · rw [bind_of_error run, bind_of_error (bind_of_error run)]
  rw [bind_of_ok run]
  rcases more : f a t with ⟨e | b, u⟩
  · rw [bind_of_error more, bind_of_error ((bind_of_ok run).trans more)]
  · rw [bind_of_ok more, bind_of_ok ((bind_of_ok run).trans more)]

theorem bind_error_iff : (x >>= f) s = (.error e, s') ↔
    x s = (.error e, s') ∨ ∃ a t, x s = (.ok a, t) ∧ f a t = (.error e, s') := by
  change (match x s with
    | (.ok a, t) => f a t
    | (.error e, t) => (.error e, t)) = _ ↔ _
  rcases h : x s with ⟨_ | a, t⟩
  · simp
  constructor
  · exact fun run => .inr ⟨a, t, rfl, run⟩
  rintro (same | ⟨a', t', same, run⟩)
  · cases same
  · cases same
    exact run

theorem bind_error (run : (x >>= f) s = (.error e, s')) :
    x s = (.error e, s') ∨ ∃ a t, x s = (.ok a, t) ∧ f a t = (.error e, s') := bind_error_iff.mp run

theorem bind_cases {out : Except ε β} (run : (x >>= f) s = (out, s')) :
    (∃ e, x s = (.error e, s') ∧ out = .error e) ∨ ∃ a t, x s = (.ok a, t) ∧ f a t = (out, s') := by
  cases out with
  | ok b => exact .inr (bind_ok_iff.mp run)
  | error e => exact (bind_error_iff.mp run).imp_left fun failed => ⟨e, failed, rfl⟩

theorem read_bind (g : σ → α) (f : α → Act σ ε β) (s : σ) : (read g >>= f) s = f (g s) s := rfl

theorem modify_bind (g : σ → σ) (f : Unit → Act σ ε β) (s : σ) :
    (modify g >>= f) s = f () (g s) := rfl

@[simp] theorem read_ok_iff {g : σ → α} :
    (read g : Act σ ε α) s = (.ok a, s') ↔ a = g s ∧ s' = s := by
  simp [read, eq_comm]

@[simp] theorem modify_ok_iff {g : σ → σ} {u : Unit} :
    (modify g : Act σ ε Unit) s = (.ok u, s') ↔ s' = g s := by
  simp [modify, eq_comm]

@[simp] theorem guard_ok_iff {test : σ → Bool} {u : Unit} :
    (guard test e : Act σ ε Unit) s = (.ok u, s') ↔ test s = true ∧ s' = s := by
  unfold guard
  split
  next holds => simp [holds, eq_comm]
  next fails => simp [fails]

@[simp] theorem lift_ok_iff {g : σ → Except ε α} :
    (lift g : Act σ ε α) s = (.ok a, s') ↔ g s = .ok a ∧ s' = s := by
  simp [lift, eq_comm]

end Act

end Style9.Lib
