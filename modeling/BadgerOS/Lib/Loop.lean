import Mathlib

/-!
# Loops

A loop takes steps from state to state until a step stops it with a result. `loop`
runs it for some number of steps, and `Returns` says that it stops at all.
-/

namespace Loop

variable {σ ρ : Type} {step : σ → σ ⊕ ρ} {s s' : σ} {r r' : ρ}

/-- Take at most `fuel` steps. -/
def loop (step : σ → σ ⊕ ρ) : Nat → σ → Option ρ
  | 0, _ => none
  | fuel + 1, s => match step s with
    | .inl s' => loop step fuel s'
    | .inr r => some r

def Returns (step : σ → σ ⊕ ρ) (s : σ) (r : ρ) : Prop :=
  ∃ fuel, loop step fuel s = some r

theorem Returns.stop (h : step s = .inr r) : Returns step s r := ⟨1, by rw [loop, h]⟩

theorem Returns.go (h : step s = .inl s') (rest : Returns step s' r) : Returns step s r := by
  obtain ⟨fuel, run⟩ := rest
  exists fuel + 1
  rw [loop, h]
  exact run

/-- What is returned from the outcome of a step. -/
def Continues (step : σ → σ ⊕ ρ) (r : ρ) : σ ⊕ ρ → Prop
  | .inl s => Returns step s r
  | .inr r' => r' = r

theorem Continues.returns (h : Continues step r (step s)) : Returns step s r := by
  cases hs : step s with
  | inl s' =>
    rw [hs] at h
    exact .go hs h
  | inr r' =>
    rw [hs] at h
    cases h
    exact .stop hs

theorem loop_unique {fuel fuel' : Nat} (h : loop step fuel s = some r)
    (h' : loop step fuel' s = some r') : r = r' := by
  induction fuel generalizing fuel' s with
  | zero => cases h
  | succ fuel ih =>
    cases fuel' with
    | zero => cases h'
    | succ fuel' =>
      unfold loop at h h'
      cases hs : step s with
      | inl s₁ =>
        rw [hs] at h h'
        exact ih h h'
      | inr r₁ =>
        rw [hs] at h h'
        exact Option.some.inj (h.symm.trans h')

theorem Returns.unique (h : Returns step s r) (h' : Returns step s r') : r = r' := by
  obtain ⟨_, h⟩ := h
  obtain ⟨_, h'⟩ := h'
  exact loop_unique h h'

/-- What every step keeps holds where the loop stops. -/
theorem loop_invariant {I : σ → Prop} {Q : ρ → Prop}
    (keeps : ∀ {s s'}, I s → step s = .inl s' → I s') (stops : ∀ {s r}, I s → step s = .inr r → Q r)
    {fuel : Nat} (h : loop step fuel s = some r) (init : I s) : Q r := by
  induction fuel generalizing s with
  | zero => cases h
  | succ fuel ih =>
    unfold loop at h
    cases hs : step s with
    | inl s' =>
      rw [hs] at h
      exact ih h (keeps init hs)
    | inr r' =>
      rw [hs] at h
      cases Option.some.inj h
      exact stops init hs

/-- A loop that takes the same steps on other states. -/
theorem loop_map {σ' ρ' : Type} {step' : σ' → σ' ⊕ ρ'} {f : σ → σ'} {g : ρ → ρ'}
    (same : ∀ s, step' (f s) = (step s).map f g) (fuel : Nat) (s : σ) :
    loop step' fuel (f s) = (loop step fuel s).map g := by
  induction fuel generalizing s with
  | zero => rfl
  | succ fuel ih =>
    unfold loop
    rw [same]
    cases step s with
    | inl s' => exact ih s'
    | inr r => rfl

/-- A loop returns if each step that goes on makes a measure smaller. -/
theorem returns_of_measure {α : Type} [WellFoundedRelation α] (measure : σ → α)
    (smaller : ∀ {s s'}, step s = .inl s' → WellFoundedRelation.rel (measure s') (measure s))
    (s : σ) : ∃ r, Returns step s r := by
  have wf := InvImage.wf measure WellFoundedRelation.wf
  induction s using wf.induction with
  | _ s ih =>
    cases hs : step s with
    | inl s' =>
      obtain ⟨r, rest⟩ := ih s' (smaller hs)
      exact ⟨r, .go hs rest⟩
    | inr r => exact ⟨r, .stop hs⟩

end Loop
