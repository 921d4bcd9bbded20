import BadgerOS.Sched.Conserved

/-!
# The stack of a thread that has stopped

`choose_thread` gives a stopped thread to the reaper while the CPU still runs on the
stack of that thread. The reaper does not wait for the CPU to leave it.
-/

namespace BadgerOS.Sched

open Interleaving Option

attribute [local grind =] Function.update_apply

variable {t v : Nat} {pc : Pc} {e : Event}

section Steps

variable {n : Nat} {s s' : State} {c : Nat}

/-- A CPU that comes to run on a stack has switched to a thread that is somewhere. -/
theorem Moves.registers {d : Nat} (moves : Moves n s c s') (there : s'.registers d = some t) :
    s.registers d = some t ∨ s.place t ≠ none := by
  cases moves <;> grind

theorem State.reaping_push : (s.push n c v t pc).reaping = s.reaping := by
  unfold State.push
  split
  · rfl
  · rfl

theorem State.reaping_acquire (run : s.acquire c v pc = some s') : s'.reaping = s.reaping := by
  obtain ⟨-, rfl⟩ := acquire_eq run
  rfl

theorem reaping_next {late : Bool} (run : next n c late s = some s') : s'.reaping = s.reaping := by
  unfold next at run
  all_goals grind [→ State.reaping_acquire, State.reaping_push]

/-- What the reaper has comes out of `ZOMBIES`. -/
theorem reaping_step (run : step n e s = some s') (there : t ∈ s'.reaping) :
    t ∈ s.reaping ∨ ∃ c, e = .reap c ∧ t ∈ s.zombies := by
  cases e with
  | yield c =>
    obtain ⟨-, run⟩ := ite_none_right_eq_some.mp run
    split at run
    all_goals
      cases run
      exact .inl there
  | next c late =>
    obtain ⟨-, run⟩ := ite_none_right_eq_some.mp run
    rw [reaping_next run] at there
    exact .inl there
  | steal c victim | create c =>
    obtain ⟨-, run⟩ := ite_none_right_eq_some.mp run
    cases run
    exact .inl there
  | die c =>
    obtain ⟨-, run⟩ := ite_none_right_eq_some.mp run
    obtain ⟨t, current, rfl⟩ := map_eq_some_iff.mp run
    exact .inl there
  | setBlocked t blocked =>
    cases run
    exact .inl there
  | reap c =>
    obtain ⟨-, run⟩ := ite_none_right_eq_some.mp run
    cases run
    exact .inr ⟨c, rfl, there⟩
  | drop c =>
    obtain ⟨-, run⟩ := ite_none_right_eq_some.mp run
    cases run
    cases there

/-- Nobody runs on the stack of a thread that the reaper has. -/
def Unused (n : Nat) (s : State) : Prop := ∀ t ∈ s.reaping, ∀ d < n, s.registers d ≠ some t

/-- The reaper finds no thread in `ZOMBIES` that another CPU has not switched from. -/
def Patient (n : Nat) (s : State) : Event → Prop
  | .reap c => ∀ t ∈ s.zombies, ∀ d < n, d ≠ c → s.registers d ≠ some t
  | _ => True

instance {n : Nat} {s : State} : (e : Event) → Decidable (Patient n s e)
  | .reap c => inferInstanceAs
    (Decidable (∀ t ∈ s.zombies, ∀ d < n, d ≠ c → s.registers d ≠ some t))
  | .yield _ | .next .. | .steal .. | .create _ | .die _ | .setBlocked .. | .drop _ =>
    inferInstanceAs (Decidable True)

theorem Unused.step (unused : Unused n s) (inv : Inv n s) (patient : Patient n s e)
    (run : Sched.step n e s = some s') : Unused n s' := by
  obtain ⟨c, moves⟩ := inv.stepMoves run
  intro t there d inside running
  obtain there | ⟨c, rfl, there⟩ := reaping_step run there
  · obtain before | placed := moves.registers running
    · exact unused t there d inside before
    · exact placed (inv.placed.listed t (.inr there)).1
  · obtain ⟨⟨-, from_, current, -⟩, run⟩ := ite_none_right_eq_some.mp run
    cases run
    by_cases same : d = c
    · -- The reaper itself runs there.
      subst same
      rw [inv.running.outside d (by rw [from_]; rfl), inv.placed.current d t,
        (inv.placed.listed t (.inl there)).1] at running
      cases running
    · exact patient t there d inside same running

end Steps

/-- If the reaper finds only threads that have been switched from, nobody runs on the stack
of a thread that it has, or has yet to store a stack pointer into it. -/
theorem reaped_stack_unused {n : Nat} {s : State}
    (reached : Reaches (step n) (Patient n) (start n) s) :
    ∀ t ∈ s.reaping, ∀ d < n, s.registers d ≠ some t ∧
      (s.pc d).leaves ≠ some (some t) := by
  have ⟨inv, unused⟩ : Inv n s ∧ Unused n s := by
    refine reached.invariant (I := fun s => Inv n s ∧ Unused n s) ⟨inv_start n, ?_⟩ ?_
    · intro t there
      cases there
    · rintro e s s' patient ⟨inv, unused⟩ run
      exact ⟨inv.step run, unused.step inv patient run⟩
  intro t there d inside
  refine ⟨unused t there d inside, fun leaves => ?_⟩
  exact unused t there d inside (inv.running.inside d _ leaves).2

def steps (c k : Nat) : List Event := List.replicate k (.next c false)

/-- The reaper comes to run on CPU 0, and the up-reporter of CPU 1 dies there. -/
def dying : List Event :=
  [.yield 0] ++ steps 0 6 ++ [.yield 0] ++ steps 0 6 ++ [.yield 1] ++ steps 1
    6 ++ [.die 1, .yield 1] ++ steps 1 5

theorem reaped_stack_unused_switched : ∃ s, Reaches (step 2) (Patient 2) (start 2) s ∧
    s.reaping = [3] ∧ s.registers 1 ≠ some 3 ∧ (s.pc 1).leaves ≠ some (some 3) := by
  obtain ⟨s, reached, taken⟩ : ∃ s, Reaches (step 2) (Patient 2) (start 2) s ∧
      s.reaping = [3] :=
    exists_of_run (dying ++ steps 1 5 ++ [.reap 0]) (by decide +kernel)
  exact ⟨s, reached, taken, reaped_stack_unused reached 3 (by simp [taken]) 1 (by decide)⟩

/-- The reaper on one CPU frees the stack on which another one looks for its next thread. -/
theorem not_reaped_stack_unused : ∃ s s', Reaches (step 2) (fun _ _ => True) (start 2) s ∧
    step 2 (.drop 0) s = some s' ∧ 3 ∈ s.reaping ∧ s.registers 1 = some 3 ∧
      (s.pc 1).leaves = some (some 3) := by
  obtain ⟨s, reached, drops, props⟩ : ∃ s, Reaches (step 2) (fun _ _ => True) (start 2) s ∧
      (step 2 (.drop 0) s).isSome ∧ 3 ∈ s.reaping ∧ s.registers 1 = some 3 ∧
          (s.pc 1).leaves = some (some 3) :=
    exists_of_run (dying ++ [.reap 0]) (by decide +kernel)
  obtain ⟨s', drops⟩ := isSome_iff_exists.mp drops
  exact ⟨s, s', reached, drops, props⟩

end BadgerOS.Sched
