import BadgerOS.Sched.Conserved

/-!
# The choice of a thread

`choose_thread` of the round-robin queue goes through the queue once, under its lock. It
wakes the reaper when it has passed a thread that has stopped, and the reaper may come
later in the same queue. The rounds of its loop are the steps that a CPU makes in
`Sched.next` while it has the lock.
-/

namespace BadgerOS.RoundRobin

open Function List

/-- The flags and the timeouts of threads that `choose_thread` does not change, the time
and the reaper. -/
structure Env where
  stopped : Nat → Bool
  timeout : Nat → Nat
  now : Nat
  reaper : Option Nat

structure State where
  queue : List Nat
  zombies : List Nat
  blocked : Nat → Bool
  /-- History: the threads that were looked at. -/
  examined : List Nat

variable (env : Env)

/-- The rounds of the loop. A failed `unwrap` is `none`; a node that was popped is in no
list, so to push it does not fail. -/
def rounds : Nat → State → Option (Option Nat × State)
  | 0, s => some (none, s)
  | k + 1, s =>
    match s.queue with
    | [] => none
    | node :: rest =>
      let s := { s with queue := rest, examined := s.examined ++ [node] }
      if env.stopped node then env.reaper.bind fun reaper =>
        rounds k { s with zombies := s.zombies ++ [node], blocked := update s.blocked reaper false }
      else if s.blocked node = false then some (some node, s)
      else if env.timeout node < env.now then some
        (some node, { s with blocked := update s.blocked node false })
      else rounds k { s with queue := s.queue ++ [node] }

def chooseThread (s : State) : Option (Option Nat × State) := rounds env s.queue.length s

/-- A thread that may run, or the reaper when there is work for it. -/
def Ready (s : State) (passed : List Nat) (t : Nat) : Prop :=
  env.stopped t = false ∧
    (s.blocked t = false ∨ env.timeout t < env.now ∨ env.reaper = some t ∧
      passed.any env.stopped = true)

/-- None of the threads is ready when it is its turn. -/
inductive Skipped (s : State) : List Nat → Prop
  | nil : Skipped s []
  | snoc {passed t} : Skipped s passed → ¬ Ready env s passed t → Skipped s (passed ++ [t])

/-- What is left when some threads were passed and `todo` are still to come. -/
def after (s : State) (passed todo : List Nat) : State where
  queue := todo ++ passed.filter (!env.stopped ·)
  zombies := s.zombies ++ passed.filter env.stopped
  blocked t := s.blocked t && !(env.reaper == some t && passed.any env.stopped)
  examined := s.examined ++ passed

/-- The first thread that is ready when it is its turn is taken, or there is none. -/
def Chosen (s : State) : Option Nat → State → Prop
  | some t, s' => ∃ passed rest, s.queue = passed ++ t :: rest ∧ Skipped env s passed ∧
    Ready env s passed t ∧
      s' = { after env s passed rest with
        blocked := update (after env s passed rest).blocked t false
        examined := s.examined ++ passed ++ [t] }
  | none, s' => Skipped env s s.queue ∧ s' = after env s s.queue []

variable {env} {s : State} {passed todo : List Nat}

theorem rounds_chosen (reaper : env.reaper ≠ none) (skipped : Skipped env s passed)
    (all : s.queue = passed ++ todo) :
    ∃ r s', rounds env todo.length (after env s passed todo) = some (r, s') ∧
      Chosen env s r s' := by
  induction todo generalizing passed with
  | nil =>
    rw [append_nil] at all
    subst all
    exact ⟨none, _, rfl, skipped, rfl⟩
  | cons t rest ih =>
    obtain ⟨reaper, isReaper⟩ := Option.ne_none_iff_exists'.mp reaper
    by_cases ready : Ready env s passed t
    · refine ⟨some t, _, ?_, passed, rest, all, skipped, ready, rfl⟩
      obtain ⟨alive, may⟩ := ready
      simp only [length_cons, rounds, after, cons_append, alive]
      by_cases free : (s.blocked t && !(env.reaper == some t && passed.any env.stopped)) = false
      · rw [if_neg Bool.false_ne_true, if_pos free, ← free, update_eq_self, append_assoc]
      · have late : env.timeout t < env.now := by grind
        rw [if_neg Bool.false_ne_true, if_neg free, if_pos late, append_assoc]
    · obtain ⟨r, s', run, chosen⟩ := ih (skipped.snoc ready) (by simpa using all)
      refine ⟨r, s', ?_, chosen⟩
      rw [← run, length_cons, rounds]
      dsimp only [after, cons_append]
      by_cases stopped : env.stopped t = true
      · rw [if_pos stopped, isReaper, Option.bind_some]
        congr 2
        · simp [stopped]
        · simp [stopped]
        · funext u
          grind [update_apply]
        · simp
      · have waits :
            ¬ (s.blocked t && !(env.reaper == some t && passed.any env.stopped)) = false := by
          grind [Ready]
        have early : ¬ env.timeout t < env.now := by grind [Ready]
        rw [if_neg stopped, if_neg waits, if_neg early]
        congr 2
        · simp [stopped]
        · simp [stopped]
        · simp [stopped]
        · simp

/-- **Round robin.** -/
theorem chooseThread_chosen (s : State) (reaper : env.reaper ≠ none) :
    ∃ r s', chooseThread env s = some (r, s') ∧ Chosen env s r s' := by
  have start : after env s [] s.queue = s := by simp [after]
  have chosen := rounds_chosen (s := s) reaper .nil rfl
  rwa [start] at chosen

/-! ### The steps of a CPU -/

section Steps

/-- What `choose_thread` works on, in a state of the scheduler. -/
def view (s : Sched.State) (v : Nat) (examined : List Nat) : State :=
  ⟨s.queue v, s.zombies, s.blocked, examined⟩

variable (env) in
/-- The next step of CPU `c`, which reads the timeout of a thread that it inspects. -/
def stepAt (n c : Nat) (s : Sched.State) : Option Sched.State :=
  match s.pc c with
  | .inspect _ _ node => Sched.next n c (decide (env.timeout node < env.now)) s
  | _ => Sched.next n c false s

/-- Where the caller goes on. -/
def returnTo (by_ : Sched.Caller) : Option Nat → Sched.Pc
  | some t => by_.found t
  | none => by_.failed

variable {n c k node : Nat} {by_ : Sched.Caller} {s s' : Sched.State}

theorem stepAt_inv (inv : Sched.Inv n s) (inside : c < n) (step : stepAt env n c s = some s') :
    Sched.Inv n s' := by
  unfold stepAt at step
  split at step <;> exact inv.moves (inv.next inside step)

variable (env) in
/-- A CPU goes on alone. -/
def Runs (n c : Nat) : Sched.State → Sched.State → Prop :=
  Relation.ReflTransGen fun a b => stepAt env n c a = some b

theorem Runs.cons {s₁ : Sched.State} (step : stepAt env n c s = some s₁)
    (runs : Runs env n c s₁ s') : Runs env n c s s' :=
  Relation.ReflTransGen.head step runs

theorem Runs.inv (runs : Runs env n c s s') (inv : Sched.Inv n s) (inside : c < n) :
    Sched.Inv n s' := by
  induction runs with
  | refl => exact inv
  | tail _ step ih => exact stepAt_inv ih inside step

/-- A thread that has stopped is buried. -/
theorem bury_runs (inv : Sched.Inv n s) (inside : c < n) (from_ : s.pc c = .inspect by_ k node)
    (stopped : s.stopped node = true) :
    ∃ s', Runs env n c s s' ∧ s'.pc c = .choose by_ k ∧ s'.stopped = s.stopped ∧
      ∀ v examined, view s' v examined = { view s v examined with
        zombies := s.zombies ++ [node]
        blocked := update s.blocked (Sched.reaper n) false } := by
  have here : s.place node = some (.held c) := (inv.placed.held c node).mp (by rw [from_]; rfl)
  have toZombie : stepAt env n c s = some (s.goTo c (.zombie by_ k node)) := by
    simp only [stepAt, Sched.next, from_, stopped, if_true]
  have unlisted : (s.goTo c (.zombie by_ k node)).inList n node = false :=
    (stepAt_inv inv inside toZombie).placed.not_inList node (by simp [Sched.State.goTo, here])
      (by simp [Sched.State.goTo, here])
  have toWake : stepAt env n c (s.goTo c (.zombie by_ k node)) = some
      { s.goTo c (.wakeReaper by_ k) with
      zombies := s.zombies ++ [node]
      place := update s.place node none
      entered := update s.entered node (s.entered node + 1) } := by
    have at_ : (s.goTo c (.zombie by_ k node)).pc c = .zombie by_ k node := update_self ..
    simp only [stepAt, Sched.next, at_, unlisted]
    simp [Sched.State.goTo]
  have toChoose : stepAt env n c { s.goTo c (.wakeReaper by_ k) with
      zombies := s.zombies ++ [node]
      place := update s.place node none
      entered := update s.entered node (s.entered node + 1) } = some { s.goTo c (.choose by_ k) with
      zombies := s.zombies ++ [node]
      place := update s.place node none
      entered := update s.entered node (s.entered node + 1)
      blocked := update s.blocked (Sched.reaper n) false } := by
    simp [stepAt, Sched.next, Sched.State.goTo]
  exact ⟨_, .cons toZombie (.cons toWake (.cons toChoose .refl)), update_self .., rfl,
    fun v examined => rfl⟩

/-- A thread that waits goes to the end of the queue. -/
theorem pushBack_runs (inv : Sched.Inv n s) (inside : c < n) (from_ : s.pc c = .inspect by_ k node)
    (running : s.stopped node = false) (waits : s.blocked node = true)
    (early : ¬ env.timeout node < env.now) :
    ∃ s', Runs env n c s s' ∧ s'.pc c = .choose by_ k ∧ s'.stopped = s.stopped ∧
      ∀ examined, view s' (by_.target c) examined = { view s (by_.target c) examined with
        queue := s.queue (by_.target c) ++ [node] } := by
  have here : s.place node = some (.held c) := (inv.placed.held c node).mp (by rw [from_]; rfl)
  have toPush : stepAt env n c s = some (s.goTo c (.pushBack by_ k node)) := by
    simp [stepAt, Sched.next, from_, running, waits, early]
  have at_ : (s.goTo c (.pushBack by_ k node)).pc c = .pushBack by_ k node := update_self ..
  have toChoose : stepAt env n c (s.goTo c (.pushBack by_ k node)) = some
      { (s.goTo c (.pushBack by_ k node)).goTo c (.choose by_ k) with
        queue := update s.queue (by_.target c) (s.queue (by_.target c) ++ [node])
        place := update s.place node (some (.queue (by_.target c))) } := by
    simp only [stepAt, Sched.next, at_]
    rw [(stepAt_inv inv inside toPush).placed.pushHeld here]
    rfl
  refine ⟨_, .cons toPush (.cons toChoose .refl), update_self .., rfl, fun examined => ?_⟩
  simp [view, Sched.State.goTo]

/-- **The rounds are the steps of a CPU** that has the lock of the queue. -/
theorem rounds_runs (inv : Sched.Inv n s) (inside : c < n) (flags : s.stopped = env.stopped)
    (isReaper : env.reaper = some (Sched.reaper n)) (from_ : s.pc c = .choose by_ k)
    (examined : List Nat) : ∃ r examined' s', Runs env n c s s' ∧ s'.pc c = returnTo by_ r ∧
      rounds env k (view s (by_.target c) examined) = some
        (r, view s' (by_.target c) examined') := by
  induction k generalizing s examined with
  | zero =>
    have step : stepAt env n c s = some (s.goTo c by_.failed) := by
      simp only [stepAt, Sched.next, from_]
    exact ⟨none, examined, _, .cons step .refl, update_self .., rfl⟩
  | succ k ih =>
    obtain ⟨node, rest, queue⟩ : ∃ node rest, s.queue (by_.target c) = node :: rest := by
      have counted := inv.counted c by_ (k + 1) (by rw [from_]; rfl)
      exact exists_cons_of_length_pos (by omega)
    obtain ⟨s₁, pop⟩ : ∃ s₁, s₁ = { s.goTo c (.inspect by_ k node) with
      queue := update s.queue (by_.target c) rest
      place := update s.place node (some (.held c)) } := ⟨_, rfl⟩
    have step₁ : stepAt env n c s = some s₁ := by
      simp only [stepAt, Sched.next, from_, queue, pop]
    have inv₁ := stepAt_inv inv inside step₁
    have from₁ : s₁.pc c = .inspect by_ k node := by
      rw [pop]
      exact update_self ..
    have seen : view s₁ (by_.target c) (examined ++ [node]) =
        ⟨rest, s.zombies, s.blocked, examined ++ [node]⟩ := by
      rw [pop, view]
      congr 1
      exact update_self ..
    obtain ⟨queue₁, zombies₁, blocked₁, -⟩ := State.mk.inj seen
    have flags₁ : s₁.stopped = env.stopped := by
      rw [pop]
      exact flags
    simp only [rounds, view, queue]
    by_cases stopped : env.stopped node = true
    · obtain ⟨s₂, runs, from₂, same, seen₂⟩ :=
        bury_runs inv₁ inside from₁ (by rw [flags₁, stopped])
      have all := Runs.cons step₁ runs
      obtain ⟨r, examined', s', runs', to_, eq⟩ :=
        ih (all.inv inv inside) (same.trans flags₁) from₂ (examined ++ [node])
      refine ⟨r, examined', s', all.trans runs', to_, ?_⟩
      rw [seen₂, seen, zombies₁, blocked₁] at eq
      rw [if_pos stopped, isReaper, Option.bind_some]
      exact eq
    · rw [if_neg stopped]
      have running : s₁.stopped node = false := by rw [flags₁, Bool.eq_false_iff]; exact stopped
      by_cases free : s.blocked node = false
      · have step₂ : stepAt env n c s₁ = some (s₁.goTo c (by_.found node)) := by
          simp [stepAt, Sched.next, from₁, running, blocked₁, free]
        refine ⟨some node, examined ++ [node], _, .cons step₁ (.cons step₂ .refl),
          update_self .., ?_⟩
        rw [if_pos free, ← seen]
        rfl
      · rw [if_neg free]
        by_cases late : env.timeout node < env.now
        · have step₂ : stepAt env n c s₁ = some
              { s₁.goTo c (by_.found node) with blocked := update s₁.blocked node false } := by
            simp [stepAt, Sched.next, from₁, running, blocked₁, free, late]
          refine ⟨some node, examined ++ [node], _, .cons step₁ (.cons step₂ .refl),
            update_self .., ?_⟩
          rw [if_pos late]
          simp only [Sched.State.goTo, queue₁, zombies₁, blocked₁]
        · obtain ⟨s₂, runs, from₂, same, seen₂⟩ :=
            pushBack_runs inv₁ inside from₁ running (by rw [blocked₁]; simpa using free) late
          have all := Runs.cons step₁ runs
          obtain ⟨r, examined', s', runs', to_, eq⟩ :=
            ih (all.inv inv inside) (same.trans flags₁) from₂ (examined ++ [node])
          refine ⟨r, examined', s', all.trans runs', to_, ?_⟩
          rw [seen₂, seen, queue₁] at eq
          rw [if_neg late]
          exact eq

end Steps

/-- A thread that has stopped, the reaper, which waits, and a thread that may run. -/
def wakes : Env := ⟨(· == 1), fun _ => 2 ^ 64 - 1, 0, some 0⟩

def threeThreads : State := ⟨[1, 0, 2], [], (· == 0), []⟩

theorem chooseThread_chosen_reaper : ∃ r s', chooseThread wakes threeThreads = some (r, s') ∧
    Chosen wakes threeThreads r s' := chooseThread_chosen threeThreads (by decide)

/-- The reaper is chosen before the thread that may run. -/
theorem not_first_chosen : (chooseThread wakes threeThreads).map (·.1) = some (some 0) ∧
    threeThreads.blocked 0 = true ∧ ¬ wakes.timeout 0 < wakes.now ∧
      threeThreads.queue = [1, 0, 2] ∧
    wakes.stopped 2 = false ∧ threeThreads.blocked 2 = false := by decide

end BadgerOS.RoundRobin
