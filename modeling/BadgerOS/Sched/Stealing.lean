import BadgerOS.Sched.Reaper

/-!
# CPUs that steal from each other

The idle thread has the lock of another CPU's queue when it takes that of its own. All
other locks are taken with none in hand, or are given back before the next one is taken.
-/

namespace BadgerOS.Sched

open Interleaving Relation State

attribute [local grind =] Function.update_apply

inductive Lock where
  | queue (v : Nat)
  | zombies
  | reaper

/-- The lock that the next step of a CPU takes. A thread that runs may be the reaper. -/
@[grind =]
def Pc.needs (c : Nat) : Pc → Option Lock
  | .yieldLock _ | .stealOwnLock .. | .createLock => some (.queue c)
  | .stealLock victim => some (.queue victim)
  | .zombie .. | .run => some .zombies
  | .wakeReaper .. => some .reaper
  | _ => none

/-- The CPUs of `busy` have got `ZOMBIES` or `REAPER`, for the step that they are at. -/
def State.Has (busy : Nat → Bool) (s : State) (c : Nat) : Lock → Prop
  | .queue v => s.lock v = some c
  | lock => busy c = true ∧ (s.pc c).needs c = some lock

/-- CPU `c` has a lock and spins for one that `d` has. -/
def State.SpinsFor (busy : Nat → Bool) (s : State) (c d : Nat) : Prop :=
  (∃ lock, s.Has busy c lock) ∧ busy c = false ∧ ∃ lock, (s.pc c).needs c = some lock ∧
    s.Has busy d lock

def State.Deadlocked (s : State) : Prop := ∃ busy c, TransGen (s.SpinsFor busy) c c

/-- A CPU takes the lock of another one's queue only while that of its own is free. -/
def careful (s : State) : Event → Bool
  | .next c _ => match s.pc c with
    | .stealLock _ => s.lock c == none
    | _ => true
  | _ => true

/-- Another CPU has the lock of the queue. -/
def Taken (lock : Nat → Option Nat) (c d : Nat) : Prop := lock c = some d ∧ c ≠ d

/-- A path that a new edge lengthens ends there, if nothing leads on. -/
theorem Taken.of_take {lock : Nat → Option Nat} {c v a b : Nat} (free : lock c = none)
    (ne : v ≠ c)
    (path : TransGen (Taken (Function.update lock v (some c))) a b) : b = c ∨
    TransGen (Taken lock) a b := by
  induction path with
  | single step | tail _ step ih => grind [Taken]

variable {n : Nat} {s s' : State} {e : Event} {c d : Nat} {busy : Nat → Bool}

/-- No CPUs wait for each other's locks in a circle. -/
def Apart (s : State) : Prop := ∀ c, ¬ TransGen (Taken s.lock) c c

theorem Apart.fewer (apart : Apart s) (fewer : ∀ c d, Taken s'.lock c d → Taken s.lock c d) :
    Apart s' :=
  fun c path => apart c (TransGen.mono fewer c c path)

theorem Apart.moves (apart : Apart s) (other : OtherVictim s) (moves : Moves n s c s')
    (careful : ∀ victim, s.pc c = .stealLock victim → s.lock c = none) : Apart s' := by
  cases moves
  case stealLock victim from_ free =>
    have ne := other c victim (by rw [from_]; rfl)
    have own := careful victim from_
    intro d path
    obtain rfl | old := Taken.of_take own ne path
    · obtain ⟨_, ⟨taken, -⟩, -⟩ := TransGen.head'_iff.mp path
      grind
    · exact apart d old
  all_goals
    apply apart.fewer
    dsimp only [goTo, release, Taken]
    grind

theorem Apart.step (apart : Apart s) (inv : Inv n s) (ok : careful s e = true)
    (run : Sched.step n e s = some s') : Apart s' := by
  cases e
  case next c late =>
    obtain ⟨inside, run⟩ := Option.ite_none_right_eq_some.mp run
    apply apart.moves inv.other (inv.next inside run)
    intro victim from_
    simpa [careful, from_] using ok
  all_goals
    apply apart.fewer
    grind [Sched.step, Option.map_eq_some_iff]

/-- A CPU in the circle spins for the lock of its own queue. -/
theorem Inv.taken (inv : Inv n s) (spins : s.SpinsFor busy c d) (free : busy d = false) :
    Taken s.lock c d := by
  obtain ⟨⟨held, has⟩, notBusy, lock, needs, its⟩ := spins
  have own := inv.locked c
  have away := inv.other c
  cases lock <;> cases held <;> simp only [Has, free, notBusy, Bool.false_eq_true,
    false_and] at its has
  cases from_ : s.pc c <;> grind [Taken]

/-- As long as every CPU is careful, no CPUs wait for each other in a circle. -/
theorem stealing_deadlock_free (reached : Reaches (step n) (fun s e => careful s e) (start n) s) :
    ¬ s.Deadlocked := by
  have ⟨inv, apart⟩ : Inv n s ∧ Apart s := by
    refine reached.invariant (I := fun s => Inv n s ∧ Apart s) ⟨inv_start n, ?_⟩ ?_
    · intro c path
      obtain ⟨_, ⟨taken, -⟩, -⟩ := TransGen.head'_iff.mp path
      cases taken
    · rintro e s s' ok ⟨inv, apart⟩ run
      exact ⟨inv.step run, apart.step inv ok run⟩
  rintro ⟨busy, c, path⟩
  have all {d : Nat} (path : TransGen (s.SpinsFor busy) c d) (free : busy d = false) :
      TransGen (Taken s.lock) c d := by
    induction path with
    | single spins => exact .single (inv.taken spins free)
    | tail _ spins ih => exact (ih spins.2.1).tail (inv.taken spins free)
  obtain ⟨_, first, -⟩ := TransGen.head'_iff.mp path
  exact apart c (all path first.2.1)

/-- The threads of two CPUs wait for a time to come, and both are idle. -/
def bothIdle : List Event :=
  [.yield 0] ++ steps 0 6 ++ [.setBlocked 2 true, .yield 0] ++ steps 0 6 ++ [.setBlocked 4 true,
    .yield 0] ++
    steps 0 12 ++ [.yield 1] ++ steps 1 6 ++ [.setBlocked 3 true, .yield 1] ++ steps 1 9

theorem stealing_deadlock_free_one : ∃ s, Reaches (step 2) (fun s e => careful s e)
    (start 2) s ∧ s.pc 0 = .stealOwnLock 1 3 ∧ ¬ s.Deadlocked := by
  obtain ⟨s, reached, spins⟩ : ∃ s, Reaches (step 2) (fun s e => careful s e) (start 2) s ∧
      s.pc 0 = .stealOwnLock 1 3 :=
    exists_of_run (bothIdle ++ [.steal 0 1, .next 0 false, .next 0 false, .next 0 true])
      (by decide +kernel)
  exact ⟨s, reached, spins, stealing_deadlock_free reached⟩

/-- The time comes, and each steals a thread of the other one. -/
theorem not_stealing_deadlock_free : ∃ s, Reaches (step 2) (fun _ _ => True) (start 2) s ∧
    s.Deadlocked := by
  obtain ⟨s, reached, first, second, lock₀, lock₁⟩ : ∃ s,
    Reaches (step 2) (fun _ _ => True) (start 2) s ∧
      s.pc 0 = .stealOwnLock 1 3 ∧ s.pc 1 = .stealOwnLock 0 2 ∧ s.lock 0 = some 1 ∧
          s.lock 1 = some 0 :=
    exists_of_run (bothIdle ++ [.steal 0 1, .steal 1 0, .next 0 false, .next 1 false, .next 0 false,
      .next 0 true, .next 1 false, .next 1 true]) (by decide +kernel)
  refine ⟨s, reached, fun _ => false, 0, .tail (.single ?_) (?_ : s.SpinsFor _ 1 0)⟩
  · exact ⟨⟨.queue 1, lock₁⟩, rfl, .queue 0, by rw [first]; rfl, lock₀⟩
  · exact ⟨⟨.queue 0, lock₀⟩, rfl, .queue 1, by rw [second]; rfl, lock₁⟩

end BadgerOS.Sched
