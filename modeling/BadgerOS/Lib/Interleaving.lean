import Mathlib

/-!
# Interleavings

A system of threads takes one step after another. A step `k` is enabled in a state
where `step k` has a result. `Reaches` is the states of all interleavings whose
steps are allowed in the states they are taken from.
-/

namespace Interleaving

open Option List

variable {σ κ : Type} {step : κ → σ → Option σ} {allowed : σ → κ → Prop}
  {s₀ s : σ}

inductive Reaches (step : κ → σ → Option σ) (allowed : σ → κ → Prop)
    (s₀ : σ) : σ → Prop
  | init : Reaches step allowed s₀ s₀
  | next {s s' : σ} {k : κ} (h : Reaches step allowed s₀ s) (ok : allowed s k)
    (run : step k s = some s') :
      Reaches step allowed s₀ s'

/-- What every allowed step keeps holds in every state that is reached. -/
theorem Reaches.invariant {I : σ → Prop} (h : Reaches step allowed s₀ s) (init : I s₀)
    (keeps : ∀ {k s s'}, allowed s k → I s → step k s = some s' → I s') : I s := by
  induction h with
  | init => exact init
  | next _ ok run ih => exact keeps ok ih run

theorem Reaches.mono {allowed' : σ → κ → Prop} (h : Reaches step allowed s₀ s)
    (weaker : ∀ {s k}, allowed s k → allowed' s k) : Reaches step allowed' s₀ s := by
  induction h with
  | init => exact .init
  | next _ ok run ih => exact ih.next (weaker ok) run

/-- Take allowed steps one after another. -/
def run (step : κ → σ → Option σ) (allowed : σ → κ → Prop)
    [∀ s k, Decidable (allowed s k)] : List κ → σ → Option σ
  | [], s => some s
  | k :: rest, s => if allowed s k then (step k s).bind (run step allowed rest) else none

theorem Reaches.of_run [∀ s k, Decidable (allowed s k)] {steps : List κ} : ∀ {s₁ : σ},
    Reaches step allowed s₀ s₁ → run step allowed steps s₁ = some s →
      Reaches step allowed s₀ s := by
  induction steps with
  | nil =>
    intro s₁ h hrun
    cases hrun
    exact h
  | cons k rest ih =>
    intro s₁ h hrun
    unfold run at hrun
    split at hrun
    · rename_i ok
      obtain ⟨s₂, first, hrun⟩ := bind_eq_some_iff.mp hrun
      exact ih (h.next ok first) hrun
    · cases hrun

/-- A state with a property that steps lead to. -/
theorem exists_of_run [∀ s k, Decidable (allowed s k)] {P : σ → Prop} [DecidablePred P]
    (steps : List κ)
    (ran : (run step allowed steps s₀).any (fun s => P s) = true) : ∃ s,
    Reaches step allowed s₀ s ∧ P s := by
  obtain ⟨s, ran, holds⟩ := (Option.any_eq_true ..).mp ran
  exact ⟨s, .of_run .init ran, of_decide_eq_true holds⟩

/-! ### Threads in a list -/

section Threads

variable {α : Type} {ts : List α} {t : Nat} {x y : α}

/-- A sum over the threads, when one of them changes. -/
theorem sum_set (f : α → Nat) (here : ts[t]? = some x) :
    ((ts.set t y).map f).sum + f x = (ts.map f).sum + f y := by
  induction ts generalizing t with
  | nil => cases here
  | cons z ts ih =>
    cases t with
    | zero =>
      cases here
      simp only [set_cons_zero, map_cons, sum_cons]
      omega
    | succ t =>
      have rest := ih here
      simp only [set_cons_succ, map_cons, sum_cons]
      omega

theorem sum_eq_zero (f : α → Nat) (zero : ∀ x ∈ ts, f x = 0) : (ts.map f).sum = 0 :=
  List.sum_eq_zero (List.forall_mem_map.mpr zero)

/-- One thread has all there is, so the others have nothing. -/
theorem sum_eq_of_alone {f h : α → Nat} (le : ∀ x, f x ≤ h x) (here : ts[t]? = some x)
    (free : h y = 0) (alone : (ts.map h).sum ≤ h x) : (ts.map f).sum = f x := by
  have others := sum_set (y := y) h here
  have rest := sum_set (y := y) f here
  have less : ((ts.set t y).map f).sum ≤ ((ts.set t y).map h).sum :=
    List.sum_le_sum fun x _ => le x
  have none := le y
  omega

theorem le_sum (f : α → Nat) (here : ts[t]? = some x) : f x ≤ (ts.map f).sum :=
  le_sum_of_mem (mem_map_of_mem (List.mem_of_getElem? here))

/-- Two threads. -/
theorem add_le_sum (f : α → Nat) {t' : Nat} (here : ts[t]? = some x) (there : ts[t']? = some y)
    (ne : t' ≠ t) : f x + f y ≤ (ts.map f).sum := by
  obtain ⟨less, at_t⟩ := List.getElem?_eq_some_iff.mp here
  have other : f y ∈ (ts.map f).eraseIdx t :=
    mem_eraseIdx_iff_getElem?.mpr ⟨t', ne, by rw [List.getElem?_map, there]; rfl⟩
  have inside : t < (ts.map f).length := by rwa [length_map]
  have all := add_sum_eraseIdx inside fun _ _ => AddCommute.all ..
  rw [getElem_map, at_t] at all
  have rest := le_sum_of_mem other
  omega

/-- What a thread keeps when it changes. -/
theorem map_set_same {β : Type} (f : α → β) (here : ts[t]? = some x) (same : f y = f x) :
    (ts.set t y).map f = ts.map f := by
  obtain ⟨less, rfl⟩ := List.getElem?_eq_some_iff.mp here
  have inside : t < (ts.map f).length := by rwa [length_map]
  rw [map_set, same, ← getElem_map f (h := inside), set_getElem_self]

theorem exists_of_sum_pos (f : α → Nat) (positive : 0 < (ts.map f).sum) :
    ∃ (t : Nat) (x : α), ts[t]? = some x ∧ 0 < f x := by
  obtain ⟨_, mem, some⟩ := List.sum_pos_iff_exists_pos_nat.mp positive
  obtain ⟨x, old, rfl⟩ := List.mem_map.mp mem
  obtain ⟨t, here⟩ := List.mem_iff_getElem?.mp old
  exact ⟨t, x, here, some⟩

theorem mem_set (mem : y ∈ ts.set t x) : y = x ∨ y ∈ ts := (mem_or_eq_of_mem_set mem).symm

end Threads

/-! ### Runs without an end -/

structure Endless (step : κ → σ → Option σ) (s : σ) where
  state : Nat → σ
  event : Nat → κ
  start : state 0 = s
  next (n : Nat) : step (event n) (state n) = some (state (n + 1))

section Cycle

variable {P : σ → Prop} [DecidablePred P] {cycle : List κ}

/-- The steps that are left of a round, and the state. -/
def around (step : κ → σ → Option σ) (cycle : List κ) (s : σ) : Nat → List κ × σ
  | 0 => (cycle, s)
  | n + 1 => match around step cycle s n with
    | (k :: k' :: rest, x) => (k' :: rest, (step k x).getD x)
    | ([k], x) => (cycle, (step k x).getD x)
    | ([], x) => ([], x)

/-- Each round ends where it starts. -/
theorem around_run (some_step : cycle ≠ []) (back : run step (fun s _ => P s) cycle s = some s)
    (n : Nat) : (around step cycle s n).1 ≠ [] ∧
      run step (fun s _ => P s) (around step cycle s n).1 (around step cycle s n).2 = some s := by
  induction n with
  | zero => exact ⟨some_step, back⟩
  | succ n ih =>
    obtain ⟨some_left, left⟩ := ih
    unfold around
    split
    · rename_i k k' rest x eq
      rw [eq, run] at left
      split at left
      · obtain ⟨x', first, left⟩ := bind_eq_some_iff.mp left
        rw [first]
        exact ⟨nofun, left⟩
      · cases left
    · rename_i k x eq
      rw [eq, run] at left
      split at left
      · obtain ⟨x', first, left⟩ := bind_eq_some_iff.mp left
        cases left
        rw [first]
        exact ⟨some_step, back⟩
      · cases left
    · rename_i x eq
      rw [eq] at some_left
      contradiction

theorem around_suffix {rest last : List κ} (some_left : last ≠ []) : ∀ {n : Nat},
    (around step cycle s n).1 = rest ++ last → ∃ m ≥ n, (around step cycle s m).1 = last := by
  induction rest with
  | nil => exact fun {n} eq => ⟨n, Nat.le_refl n, eq⟩
  | cons k rest ih =>
    intro n eq
    have next : (around step cycle s (n + 1)).1 = rest ++ last := by
      rw [around]
      cases full : rest ++ last with
      | nil => exact absurd (List.append_eq_nil_iff.mp full).2 some_left
      | cons k' rest' =>
        rw [cons_append, full] at eq
        rw [show around step cycle s n = (k :: k' :: rest', (around step cycle s n).2)
          from Prod.ext eq rfl]
    obtain ⟨m, le, there⟩ := ih next
    exact ⟨m, Nat.le_of_succ_le le, there⟩

/-- Steps that lead back to where they start can go on for ever. -/
theorem exists_endless {k : κ} (mem : k ∈ cycle) (back : run step (fun s _ => P s) cycle s = some
    s) : ∃ r : Endless step s, (∀ n, P (r.state n)) ∧ ∀ n, ∃ m ≥ n, r.event m = k := by
  have some_step := ne_nil_of_mem mem
  have left := around_run some_step back
  have unfolded (n : Nat) : P (around step cycle s n).2 ∧
      step ((around step cycle s n).1.headD k) (around step cycle s n).2 = some
          (around step cycle s (n + 1)).2 := by
    obtain ⟨some_left, left⟩ := left n
    cases eq : around step cycle s n with
    | mk steps x =>
      rw [eq] at some_left left
      cases steps with
      | nil => contradiction
      | cons k' rest =>
        rw [run] at left
        split at left
        · rename_i ok
          obtain ⟨x', first, -⟩ := bind_eq_some_iff.mp left
          refine ⟨ok, ?_⟩
          rw [around, eq]
          cases rest with
          | nil | cons => simp [first]
        · cases left
  refine ⟨⟨fun n => (around step cycle s n).2, fun n => (around step cycle s n).1.headD k, rfl,
    fun n => (unfolded n).2⟩, fun n => (unfolded n).1, fun n => ?_⟩
  -- the round ends, and the next one has the step
  have eq := (dropLast_concat_getLast (left n).1).symm
  generalize (around step cycle s n).1.getLast (left n).1 = last at eq
  obtain ⟨m, le, there⟩ := around_suffix (cons_ne_nil last []) eq
  obtain ⟨first, then', split⟩ := append_of_mem mem
  have again : (around step cycle s (m + 1)).1 = first ++ k :: then' := by
    rw [around, show around step cycle s m = ([last], (around step cycle s m).2)
      from Prod.ext there rfl]
    exact split
  obtain ⟨m', le', here⟩ := around_suffix (cons_ne_nil k then') again
  refine ⟨m', by omega, ?_⟩
  change (around step cycle s m').1.headD k = k
  rw [here]
  rfl

end Cycle

end Interleaving
