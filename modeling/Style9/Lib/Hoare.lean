import Style9.Lib.Act

/-!
# Pre- and postconditions for actions that may fail

A triple says what holds when an action returns and what holds when it gives up: the second
matters as much, since what was done before the failure stays done.
-/
namespace Style9.Lib

open Act

namespace Act

variable {σ ε α β : Type}

/-- From a state with `P`, success leads to `Q` and failure to `E`. -/
structure Triple (P : σ → Prop) (x : Act σ ε α) (Q : α → σ → Prop) (E : ε → σ → Prop) : Prop where
  ok : ∀ {s a s'}, P s → x s = (.ok a, s') → Q a s'
  error : ∀ {s e s'}, P s → x s = (.error e, s') → E e s'

variable {P : σ → Prop} {Q : α → σ → Prop} {R : β → σ → Prop} {E E' : ε → σ → Prop} {x : Act σ ε α}
  {f : α → Act σ ε β} {g : σ → α} {undo : σ → σ}

/-- From this state success leads to `Q` and failure to `E`. -/
abbrev Ends (x : Act σ ε α) (s : σ) (Q : α → σ → Prop) (E : ε → σ → Prop) : Prop :=
  Triple (· = s) x Q E

section Ends

variable {Q' : α → σ → Prop} {s t : σ} {a : α} {e : ε}

theorem Ends.of_result (success : ∀ a, (x s).1 = .ok a → Q a (x s).2) (failure : ∀ e, E e (x s).2) :
    x.Ends s Q E := by
  constructor
  · rintro _ a s' rfl run
    have post := success a (by rw [run])
    rwa [run] at post
  · rintro _ e s' rfl run
    have post := failure e
    rwa [run] at post

theorem Ends.of_ok (run : x s = (.ok a, t)) (post : Q a t) : x.Ends s Q E := by
  constructor
  · rintro _ _ _ rfl ran
    cases run.symm.trans ran
    exact post
  · rintro _ _ _ rfl ran
    cases run.symm.trans ran

theorem Ends.of_error (run : x s = (.error e, t)) (post : E e t) : x.Ends s Q E := by
  constructor
  · rintro _ _ _ rfl ran
    cases run.symm.trans ran
  · rintro _ _ _ rfl ran
    cases run.symm.trans ran
    exact post

theorem Ends.pure (post : Q a s) : (Pure.pure a : Act σ ε α).Ends s Q E := .of_ok rfl post

/-- An action that never returns. -/
theorem Ends.failed (ends : x.Ends s (fun _ _ => False) E) :
    ∃ e t, x s = (.error e, t) ∧ E e t := by
  rcases run : x s with ⟨e | a, t⟩
  · exact ⟨e, t, rfl, ends.error rfl run⟩
  · exact (ends.ok rfl run).elim

theorem Ends.congr {y : Act σ ε α} (same : x s = y t) (ends : y.Ends t Q E) : x.Ends s Q E := by
  constructor
  · rintro _ a s' rfl run
    exact ends.ok rfl (same.symm.trans run)
  · rintro _ e s' rfl run
    exact ends.error rfl (same.symm.trans run)

theorem Ends.mono (ends : x.Ends s Q E) (after : ∀ a t, Q a t → Q' a t)
    (failed : ∀ e t, E e t → E' e t) :
    x.Ends s Q' E' :=
  ⟨fun here run => after _ _ (ends.ok here run), fun here run => failed _ _ (ends.error here run)⟩

theorem Ends.bind (first : x.Ends s Q E) (rest : ∀ a t, Q a t → (f a).Ends t R E) :
    (x >>= f).Ends s R E := by
  constructor
  · intro _ b s' here run
    obtain ⟨a, t, ran, run⟩ := bind_ok run
    exact (rest a t (first.ok here ran)).ok rfl run
  intro _ e s' here run
  rcases bind_error run with ran | ⟨a, t, ran, run⟩
  · exact first.error here ran
  · exact (rest a t (first.ok here ran)).error rfl run

theorem Ends.read_bind (rest : (f (g s)).Ends s R E) : (read g >>= f).Ends s R E :=
  .congr (y := f (g s)) rfl rest

theorem Ends.guard_bind {test : σ → Bool} {f : Unit → Act σ ε β} (fails : E e s)
    (rest : test s = true → (f ()).Ends s R E) :
    (guard test e >>= f).Ends s R E := by
  cases passed : test s with
  | true => exact .congr (bind_of_ok (guard_ok_iff.mpr ⟨passed, rfl⟩)) (rest passed)
  | false => exact .of_error (bind_of_error (if_neg (by simp [passed]))) fails

theorem Ends.onFail (ends : x.Ends s Q E) (back : ∀ e t, E e t → E' e (undo t)) :
    (onFail x undo).Ends s Q E' := by
  rcases run : x s with ⟨e | a, t⟩
  · exact .of_error (by rw [Act.onFail, run]) (back e t (ends.error rfl run))
  · exact .of_ok (by rw [Act.onFail, run]) (ends.ok rfl run)

theorem Ends.lift_bind {g : σ → Except ε α} (fails : ∀ e, E e s)
    (rest : ∀ a, g s = .ok a → (f a).Ends s R E) :
    (lift g >>= f).Ends s R E := by
  refine .bind (Q := fun a t => t = s ∧
    g s = .ok a) (.of_result (fun _ returned => ⟨rfl, returned⟩) fails) ?_
  rintro a _ ⟨rfl, value⟩
  exact rest a value

end Ends

/-! ### The outcome from one state -/

/-- From this state the action returns with `Q`, or stops with an error that is allowed. -/
def Yields (allowed : ε → Prop) (x : Act σ ε α) (s : σ) (Q : α → σ → Prop) : Prop :=
  match x s with
  | (.ok a, s') => Q a s'
  | (.error e, _) => allowed e

variable {allowed : ε → Prop} {s s' : σ} {Q' : α → σ → Prop} {a : α} {e : ε}

theorem Yields.ok (yields : x.Yields allowed s Q) (run : x s = (.ok a, s')) : Q a s' := by
  unfold Yields at yields
  rw [run] at yields
  exact yields

theorem Yields.error (yields : x.Yields allowed s Q) (run : x s = (.error e, s')) : allowed e := by
  unfold Yields at yields
  rw [run] at yields
  exact yields

theorem Yields.intro (success : ∀ a s', x s = (.ok a, s') → Q a s')
    (failure : ∀ e s', x s = (.error e, s') → allowed e) : x.Yields allowed s Q := by
  unfold Yields
  split
  next a s' run => exact success a s' run
  next e s' run => exact failure e s' run

theorem Yields.pure (post : Q a s) : (Pure.pure a : Act σ ε α).Yields allowed s Q := post

theorem Yields.read_bind : (read g >>= f).Yields allowed s R ↔ (f (g s)).Yields allowed s R := .rfl

theorem Yields.after (run : x s = (.ok a, s')) (rest : (f a).Yields allowed s' R) :
    (x >>= f).Yields allowed s R := by
  unfold Yields
  rw [bind_of_ok run]
  exact rest

theorem Yields.stops (run : x s = (.error e, s')) (known : allowed e) :
    (x >>= f).Yields allowed s R := by
  unfold Yields
  rw [bind_of_error run]
  exact known

theorem Yields.mono (yields : x.Yields allowed s Q) (after : ∀ a s', Q a s' → Q' a s') :
    x.Yields allowed s Q' :=
  .intro (fun a s' run => after a s' (yields.ok run)) fun _ _ run => yields.error run

theorem Yields.bind (first : x.Yields allowed s Q)
    (rest : ∀ a s', Q a s' → (f a).Yields allowed s' R) : (x >>= f).Yields allowed s R := by
  refine .intro (fun b s' run => ?_) fun e s' run => ?_
  · obtain ⟨a, t, ran, run⟩ := bind_ok run
    exact (rest a t (first.ok ran)).ok run
  · rcases bind_error run with ran | ⟨a, t, ran, run⟩
    · exact first.error ran
    · exact (rest a t (first.ok ran)).error run

/-! ### What an action keeps -/

/-- From states with `P` the action leads to states with `P`, whether it returns or gives up. -/
def Keeps (P : σ → Prop) (x : Act σ ε α) : Prop := ∀ s, P s → P (x s).2

theorem Keeps.ok (keeps : x.Keeps P) (before : P s) (run : x s = (.ok a, s')) : P s' := by
  have after := keeps s before
  rwa [run] at after

theorem Keeps.error (keeps : x.Keeps P) (before : P s) (run : x s = (.error e, s')) : P s' := by
  have after := keeps s before
  rwa [run] at after

theorem Keeps.pure (a : α) : (Pure.pure a : Act σ ε α).Keeps P := fun _ before => before

theorem Keeps.fail (e : ε) : (fail e : Act σ ε α).Keeps P := fun _ before => before

theorem Keeps.read (g : σ → α) : (read g : Act σ ε α).Keeps P := fun _ before => before

theorem Keeps.modify {g : σ → σ} (step : ∀ s, P s → P (g s)) :
    (modify g : Act σ ε Unit).Keeps P := step

theorem Keeps.bind (first : x.Keeps P) (rest : ∀ a, (f a).Keeps P) : (x >>= f).Keeps P := by
  intro s before
  rcases run : x s with ⟨e | a, t⟩
  · rw [bind_of_error run]
    have after := first s before
    rwa [run] at after
  · rw [bind_of_ok run]
    exact rest a t (first.ok before run)

theorem Keeps.bind_option {x : Act σ ε (Option α)} {f : Option α → Act σ ε β} (first : x.Keeps P)
    (none : (f none).Keeps P)
    (some : ∀ a, (f (some a)).Keeps P) : (x >>= f).Keeps P :=
  first.bind fun | .none => none | .some a => some a

theorem Keeps.onFail (keeps : x.Keeps P) (back : ∀ s, P s → P (undo s)) :
    (onFail x undo).Keeps P := by
  intro s before
  have after := keeps s before
  unfold Act.onFail
  split
  next ran => rwa [ran] at after
  next ran =>
    rw [ran] at after
    exact back _ after

theorem Keeps.ends (keeps : x.Keeps P) (before : P s) : x.Ends s (fun _ => P) fun _ => P :=
  ⟨fun here => keeps.ok (here ▸ before), fun here => keeps.error (here ▸ before)⟩

/-- What is read off the state may be used in the rest. -/
theorem Keeps.read_bind (rest : ∀ s, P s → P (f (g s) s).2) : (Act.read g >>= f).Keeps P := rest

/-! ### Actions that never give up -/

def Returns (x : Act σ ε α) : Prop := ∀ s, ∃ a s', x s = (.ok a, s')

theorem Returns.pure (a : α) : (Pure.pure a : Act σ ε α).Returns := fun s => ⟨a, s, rfl⟩

theorem Returns.bind (first : x.Returns) (rest : ∀ a, (f a).Returns) : (x >>= f).Returns := by
  intro s
  obtain ⟨a, s₁, run⟩ := first s
  obtain ⟨b, s₂, later⟩ := rest a s₁
  exact ⟨b, s₂, (bind_of_ok run).trans later⟩

end Act

end Style9.Lib
