import Mathlib

/-!
# Fallible computations

Computations that read and change a state, and that return a result, fail with
an error or panic. A failed action leaves its changes behind; a panic ends
everything. `wlp m Q E s` says that `m` from `s`, if it does not panic, returns
with `Q` or fails with `E`. `Runs` is the states that a sequence of calls reaches.
-/

def Fallible (σ ε α : Type) : Type := σ → Option (Except ε α × σ)

namespace Fallible

variable {σ ε α β : Type}

/-- Go on with the result, unless the first action failed. -/
def andThen (m : Fallible σ ε α) (f : α → Fallible σ ε β) : Fallible σ ε β := fun s =>
  match m s with
  | none => none
  | some (.error e, s) => some (.error e, s)
  | some (.ok a, s) => f a s

instance : Monad (Fallible σ ε) where
  pure a := fun s => some (.ok a, s)
  bind := andThen

def fail (e : ε) : Fallible σ ε α := fun s => some (.error e, s)

/-- Panics on `none`. -/
def lift (o : Option α) : Fallible σ ε α := fun s => o.map fun a => (.ok a, s)

/-- A pure result, an error or a panic. -/
def liftExcept (o : Option (Except ε α)) : Fallible σ ε α := fun s => o.map fun r => (r, s)

def get : Fallible σ ε σ := fun s => some (.ok s, s)

def modify (f : σ → σ) : Fallible σ ε Unit := fun s => some (.ok (), f s)

/-- Change the state when the action fails. -/
def onError (m : Fallible σ ε α) (f : σ → σ) : Fallible σ ε α := fun s =>
  match m s with
  | some (.error e, s) => some (.error e, f s)
  | r => r

/-- Go on with what is to be done for an error. -/
def handle (m : Fallible σ ε α) (f : ε → Fallible σ ε α) : Fallible σ ε α := fun s =>
  match m s with
  | some (.error e, s) => f e s
  | r => r

variable {m : Fallible σ ε α} {a : α} {s s₁ : σ} {f : α → Fallible σ ε β} {e : ε}
  {g : σ → σ}

theorem handle_of_ok {f : ε → Fallible σ ε α} (h : m s = some (.ok a, s₁)) :
    handle m f s = some (.ok a, s₁) := by
  rw [handle, h]

theorem bind_eq_some {s' : σ} {r : Except ε β} : (m >>= f) s = some (r, s') ↔
      (∃ e, m s = some (.error e, s') ∧ r = .error e) ∨
        ∃ a s₁, m s = some (.ok a, s₁) ∧ f a s₁ = some (r, s') := by
  show andThen m f s = some (r, s') ↔ _
  unfold andThen
  cases h : m s with
  | none => simp
  | some p =>
    obtain ⟨e | a, s₁⟩ := p
    · constructor
      · intro run
        cases run
        exact .inl ⟨e, rfl, rfl⟩
      · rintro (⟨_, run, rfl⟩ | ⟨_, _, run, _⟩)
        · cases run
          rfl
        · cases run
    · constructor
      · exact fun run => .inr ⟨a, s₁, rfl, run⟩
      · rintro (⟨_, run, _⟩ | ⟨_, _, run, run'⟩)
        · cases run
        · cases run
          exact run'

theorem bind_of_ok (h : m s = some (.ok a, s₁)) : (m >>= f) s = f a s₁ := by
  show andThen m f s = f a s₁
  rw [andThen, h]

theorem bind_of_error (h : m s = some (.error e, s₁)) : (m >>= f) s = some (.error e, s₁) := by
  show andThen m f s = _
  rw [andThen, h]

theorem bind_of_panic (h : m s = none) : (m >>= f) s = none := by
  show andThen m f s = _
  rw [andThen, h]

section Execution

@[simp] theorem pure_run : (pure a : Fallible σ ε α) s = some (.ok a, s) := rfl

@[simp] theorem pure_andThen : ((pure a : Fallible σ ε α) >>= f) = f a := rfl

@[simp] theorem fail_run : (fail e : Fallible σ ε α) s = some (.error e, s) := rfl

@[simp] theorem fail_andThen : ((fail e : Fallible σ ε α) >>= f) = fail e := rfl

@[simp] theorem get_bind {f : σ → Fallible σ ε β} : (get >>= f) s = f s s := rfl

@[simp] theorem modify_run : (modify g : Fallible σ ε Unit) s = some (.ok (), g s) := rfl

@[simp] theorem modify_bind {f : Unit → Fallible σ ε β} : (modify g >>= f) s = f () (g s) :=
  rfl

@[simp] theorem lift_some_bind : (lift (some a) >>= f) s = f a s := rfl

@[simp] theorem liftExcept_ok_bind : (liftExcept (some (.ok a)) >>= f) s = f a s := rfl

@[simp] theorem liftExcept_run {r : Except ε α} : liftExcept (some r) s = some (r, s) := rfl

@[simp] theorem bind_bind {γ : Type} {g : β → Fallible σ ε γ} :
    (m >>= f) >>= g = m >>= fun a => f a >>= g := by
  funext s
  show andThen (andThen m f) g s = andThen m (fun a => andThen (f a) g) s
  unfold andThen
  cases m s with
  | none => rfl
  | some p =>
    obtain ⟨e | a, s₁⟩ := p
    · rfl
    · rfl

end Execution

/-- The weakest condition on the state under which a run of `m` that does not
panic returns with `Q` or fails with `E`. -/
def wlp (m : Fallible σ ε α) (Q : α → σ → Prop) (E : σ → Prop) (s : σ) : Prop :=
  ∀ r s', m s = some (r, s') → match r with
    | .ok a => Q a s'
    | .error _ => E s'

variable {Q Q' : α → σ → Prop} {R : β → σ → Prop}
  {E E' : σ → Prop}

theorem wlp.mono (h : wlp m Q E s) (hq : ∀ a s', Q a s' → Q' a s') (he : ∀ s', E s' → E' s') :
    wlp m Q' E' s := by
  intro r s' run
  have key := h r s' run
  cases r with
  | error e => exact he s' key
  | ok a => exact hq a s' key

theorem wlp.imp (h : wlp m Q E s) (hq : ∀ a s', Q a s' → Q' a s') : wlp m Q' E s :=
  h.mono hq fun _ he => he

theorem wlp.and (h : wlp m Q E s) (h' : wlp m Q' E' s) :
    wlp m (fun a s' => Q a s' ∧ Q' a s') E s := by
  intro r s' run
  have key := h r s' run
  have key' := h' r s' run
  cases r with
  | error e => exact key
  | ok a => exact ⟨key, key'⟩

theorem wlp.both (h : wlp m Q E s) (h' : wlp m Q' E' s) :
    wlp m (fun a s' => Q a s' ∧ Q' a s') (fun s' => E s' ∧ E' s') s := by
  intro r s' run
  have key := h r s' run
  have key' := h' r s' run
  cases r with
  | error e | ok a => exact ⟨key, key'⟩

/-- What holds whether it succeeds or fails. -/
theorem wlp_same : wlp m (fun _ => E) E s ↔ ∀ r s', m s = some (r, s') → E s' := by
  constructor
  · intro h r s' run
    have key := h r s' run
    cases r with
    | error e | ok a => exact key
  · intro h r s' run
    cases r with
    | error e | ok a => exact h _ _ run

theorem wlp_bind : wlp (m >>= f) R E s ↔ wlp m (fun a => wlp (f a) R E) E s := by
  constructor
  · intro h r s₁ run
    cases r with
    | error e => exact h (.error e) s₁ (bind_eq_some.mpr (.inl ⟨e, run, rfl⟩))
    | ok a => exact fun r s' run' => h r s' (bind_eq_some.mpr (.inr ⟨a, s₁, run, run'⟩))
  · intro h r s' run
    obtain ⟨e, failed, rfl⟩ | ⟨a, s₁, first, rest⟩ := bind_eq_some.mp run
    · exact h (.error e) s' failed
    · exact h (.ok a) s₁ first r s' rest

theorem wlp_pure : wlp (pure a : Fallible σ ε α) Q E s ↔ Q a s := by
  constructor
  · exact fun h => h _ _ rfl
  · intro h r s' run
    cases run
    exact h

theorem wlp_fail : wlp (fail e : Fallible σ ε α) Q E s ↔ E s := by
  constructor
  · exact fun h => h _ _ rfl
  · intro h r s' run
    cases run
    exact h

/-- A result that is not used. -/
theorem wlp.andPure {b : β} (h : wlp m (fun _ => R b) E s) : wlp (m >>= fun _ => pure b) R E s :=
  wlp_bind.mpr (h.imp fun _ _ => wlp_pure.mpr)

theorem wlp_lift {o : Option α} : wlp (lift o : Fallible σ ε α) Q E s ↔
    ∀ a, o = some a → Q a s := by
  constructor
  · rintro h a rfl
    exact h _ _ rfl
  · intro h r s' run
    cases o with
    | none => cases run
    | some a =>
      cases run
      exact h a rfl

theorem wlp_liftExcept {o : Option (Except ε α)} :
    wlp (liftExcept o : Fallible σ ε α) Q E s ↔ (∀ a, o = some (.ok a) → Q a s) ∧
      ∀ e, o = some (.error e) → E s := by
  constructor
  · intro h
    refine ⟨?_, ?_⟩
    · rintro a rfl
      exact h _ _ rfl
    · rintro e rfl
      exact h _ _ rfl
  · intro h r s' run
    cases o with
    | none => cases run
    | some r =>
      cases run
      cases r with
      | error e => exact h.2 e rfl
      | ok a => exact h.1 a rfl

theorem wlp_get {Q : σ → σ → Prop} : wlp (get : Fallible σ ε σ) Q E s ↔ Q s s := by
  constructor
  · exact fun h => h _ _ rfl
  · intro h r s' run
    cases run
    exact h

theorem wlp_modify {Q : Unit → σ → Prop} : wlp (modify g : Fallible σ ε Unit) Q E s ↔
    Q () (g s) := by
  constructor
  · exact fun h => h _ _ rfl
  · intro h r s' run
    cases run
    exact h

theorem wlp_onError : wlp (m.onError g) Q E s ↔ wlp m Q (fun s => E (g s)) s := by
  have error : ∀ e s', m s = some (.error e, s') → m.onError g s = some (.error e, g s') := by
    intro e s' run
    simp only [onError, run]
  have ok : ∀ a s', m s = some (.ok a, s') → m.onError g s = some (.ok a, s') := by
    intro a s' run
    simp only [onError, run]
  constructor
  · intro h r s' run
    cases r with
    | error e => exact h _ _ (error e s' run)
    | ok a => exact h _ _ (ok a s' run)
  · intro h r s' run
    cases hm : m s with
    | none =>
      simp only [onError, hm] at run
      cases run
    | some p =>
      obtain ⟨e | a, s₁⟩ := p
      · rw [error e s₁ hm] at run
        cases run
        exact h _ _ hm
      · rw [ok a s₁ hm] at run
        cases run
        exact h _ _ hm

section Loops

variable {κ : Type} {body : κ → Fallible σ ε Unit} {I : List κ → σ → Prop}

/-- One action after another. -/
def forEach (body : κ → Fallible σ ε Unit) : List κ → Fallible σ ε Unit
  | [] => pure ()
  | k :: rest => do
    body k
    forEach body rest

end Loops

section Runs

variable {κ : Type} {exec : κ → Fallible σ ε α} {allowed : σ → κ → Prop} {s₀ : σ}

/-- The states that calls reach, whether or not they succeed, if each call is
allowed in the state before it. -/
inductive Runs (exec : κ → Fallible σ ε α) (allowed : σ → κ → Prop) (s₀ : σ) : σ →
    Prop
  | init : Runs exec allowed s₀ s₀
  | step {s s' : σ} {call : κ} {r : Except ε α} (h : Runs exec allowed s₀ s)
    (ok : allowed s call)
      (run : exec call s = some (r, s')) : Runs exec allowed s₀ s'

/-- What every allowed call keeps holds in every state that is reached. -/
theorem Runs.invariant {I : σ → Prop} (h : Runs exec allowed s₀ s) (init : I s₀)
    (step : ∀ {call s}, allowed s call → I s → wlp (exec call) (fun _ => I) I s) : I s := by
  induction h with
  | init => exact init
  | step _ ok run ih => exact wlp_same.mp (step ok ih) _ _ run

/-- Run allowed calls one after another. -/
def runAll (exec : κ → Fallible σ ε α) (allowed : σ → κ → Prop)
    [∀ s call, Decidable (allowed s call)] : List κ → σ → Option σ
  | [], s => some s
  | call :: rest, s =>
    if allowed s call then (exec call s).bind fun (_, s) => runAll exec allowed rest s else none

theorem Runs.of_runAll [∀ s call, Decidable (allowed s call)] {calls : List κ} :
    ∀ {s₁ : σ}, Runs exec allowed s₀ s₁ → runAll exec allowed calls s₁ = some s →
    Runs exec allowed s₀ s := by
  induction calls with
  | nil =>
    intro s₁ h run
    cases run
    exact h
  | cons call rest ih =>
    intro s₁ h run
    unfold runAll at run
    split at run
    · rename_i ok
      simp only [Option.bind_eq_some_iff, Prod.exists] at run
      obtain ⟨r, s₂, first, run⟩ := run
      exact ih (h.step ok first) run
    · cases run

/-- A state with a property that calls lead to. -/
theorem exists_of_runAll [∀ s call, Decidable (allowed s call)] {P : σ → Prop}
    [DecidablePred P] (calls : List κ)
    (ran : (runAll exec allowed calls s₀).any (fun s => P s) = true) : ∃ s,
    Runs exec allowed s₀ s ∧ P s := by
  obtain ⟨s, ran, holds⟩ := (Option.any_eq_true ..).mp ran
  exact ⟨s, .of_runAll .init ran, of_decide_eq_true holds⟩

end Runs

section Coupling

variable {R : σ → σ → Prop}

/-- From related states the computation has the same result and ends in related
states again. -/
def Coupled (m : Fallible σ ε α) (R : σ → σ → Prop) : Prop :=
  ∀ {s s'}, R s s' → (m s = none ∧ m s' = none) ∨ ∃ r s₁ s₁', m s = some (r, s₁) ∧
    m s' = some (r, s₁') ∧ R s₁ s₁'

theorem Coupled.pure (a : α) : Coupled (Pure.pure a : Fallible σ ε α) R :=
  fun h => .inr ⟨.ok a, _, _, rfl, rfl, h⟩

theorem Coupled.fail (e : ε) : Coupled (Fallible.fail e : Fallible σ ε α) R :=
  fun h => .inr ⟨.error e, _, _, rfl, rfl, h⟩

theorem Coupled.lift (o : Option α) : Coupled (Fallible.lift o : Fallible σ ε α) R := by
  intro s s' h
  cases o with
  | none => exact .inl ⟨rfl, rfl⟩
  | some a => exact .inr ⟨.ok a, s, s', rfl, rfl, h⟩

theorem Coupled.bind (hm : Coupled m R) (hf : ∀ a, Coupled (f a) R) : Coupled (m >>= f) R := by
  intro s s' h
  obtain ⟨panic, panic'⟩ | ⟨r, s₁, s₁', run, run', h₁⟩ := hm h
  · left
    exact ⟨bind_of_panic panic, bind_of_panic panic'⟩
  · cases r with
    | error e =>
      exact .inr ⟨.error e, s₁, s₁', bind_eq_some.mpr (.inl ⟨e, run, rfl⟩),
        bind_eq_some.mpr (.inl ⟨e, run', rfl⟩), h₁⟩
    | ok a =>
      rw [bind_of_ok run, bind_of_ok run']
      exact hf a h₁

/-- Related states stay related over a sequence of calls. -/
theorem Coupled.runAll {κ : Type} {exec : κ → Fallible σ ε α} {allowed : σ → κ → Prop}
    [∀ s call, Decidable (allowed s call)] (every : ∀ s call, allowed s call)
    (step : ∀ call, Coupled (exec call) R) {calls : List κ} : ∀ {s s' : σ}, R s s' →
    (Fallible.runAll exec allowed calls s = none ∧
    Fallible.runAll exec allowed calls s' = none) ∨
      ∃ s₁ s₁', Fallible.runAll exec allowed calls s = some s₁ ∧
        Fallible.runAll exec allowed calls s' = some s₁' ∧ R s₁ s₁' := by
  induction calls with
  | nil => exact fun h => .inr ⟨_, _, rfl, rfl, h⟩
  | cons call rest ih =>
    intro s s' h
    unfold Fallible.runAll
    rw [if_pos (every s call), if_pos (every s' call)]
    obtain ⟨panic, panic'⟩ | ⟨r, s₁, s₁', run, run', h₁⟩ := step call h
    · rw [panic, panic']
      exact .inl ⟨rfl, rfl⟩
    · rw [run, run']
      exact ih h₁

end Coupling

end Fallible
