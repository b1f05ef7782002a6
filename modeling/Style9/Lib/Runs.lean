import Mathlib.Logic.Basic

/-!
# Runs of a machine

A machine is a partial step function on states and events: an event that cannot happen in a state,
or that stops the machine there, has no next state. A run may be restricted to steps that meet a
condition; what every step preserves holds in every state reached.
-/
namespace Style9.Lib

variable {σ ε : Type*} {next : σ → ε → Option σ} {meets : σ → ε → σ → Prop} {s₀ s s' : σ} {e : ε}

/-- The states reached by steps that all meet a condition. -/
inductive Runs (next : σ → ε → Option σ) (meets : σ → ε → σ → Prop) (s₀ : σ) : σ → Prop
  | start : Runs next meets s₀ s₀
  | step {s s' : σ} {e : ε} (earlier : Runs next meets s₀ s) (taken : next s e = some s')
      (met : meets s e s') : Runs next meets s₀ s'

/-- What holds at the start and is kept by every step holds in every state reached. -/
theorem Runs.invariant {P : σ → Prop} (run : Runs next meets s₀ s) (start : P s₀)
    (keep : ∀ s e s', P s → next s e = some s' → meets s e s' → P s') : P s := by
  induction run with
  | start => exact start
  | step _ taken met ih => exact keep _ _ _ ih taken met

theorem Runs.mono {weaker : σ → ε → σ → Prop} (run : Runs next meets s₀ s)
    (implies : ∀ s e s', meets s e s' → weaker s e s') : Runs next weaker s₀ s := by
  induction run with
  | start => exact .start
  | step _ taken met ih => exact .step ih taken (implies _ _ _ met)

/-- The events of a list, one after the other, as long as each step passes a test. -/
def follow (next : σ → ε → Option σ) (passes : σ → ε → σ → Bool) (s : σ) : List ε → Option σ
  | [] => some s
  | e :: rest => (next s e).bind fun s' =>
    if passes s e s' then follow next passes s' rest else none

theorem Runs.of_follow {passes : σ → ε → σ → Bool} {events : List ε} (run : Runs next meets s₀ s)
    (sound : ∀ s e s', passes s e s' = true → meets s e s')
    (followed : follow next passes s events = some s') :
    Runs next meets s₀ s' := by
  induction events generalizing s with
  | nil =>
    cases followed
    exact run
  | cons e rest ih =>
  obtain ⟨s₁, taken, followed⟩ := Option.bind_eq_some_iff.mp followed
  split at followed
  next passed => exact ih (.step run taken (sound _ _ _ passed)) followed
  · cases followed

/-- A run is shown by its events: the steps meet the condition, and the state they lead to is as
wanted. -/
theorem Runs.exists_of_follow {P : σ → Prop} [∀ s e s', Decidable (meets s e s')] [DecidablePred P]
    (events : List ε)
    (ends : (follow next (fun s e s' => decide (meets s e s')) s₀ events).any (fun s =>
      decide (P s)) = true) :
    ∃ s, Runs next meets s₀ s ∧ P s := by
  obtain ⟨s, followed, holds⟩ := (Option.any_eq_true _ _).mp ends
  exact ⟨s, .of_follow .start (fun _ _ _ passed => of_decide_eq_true passed) followed,
    of_decide_eq_true holds⟩

end Style9.Lib
