import BadgerOS.Sync.Mutex
import BadgerOS.Sync.Semaphore

/-!
# Wake-ups

The last shared guard of a mutex and every post of a semaphore wake one thread.
That thread may leave with `EINTR` or `ETIMEDOUT`, and then nobody wakes the next
one. `Patient` runs are those in which no thread leaves after a notification for it
alone before it has got something or has found that nothing is free. A try that fails
spuriously is neither.
-/

namespace BadgerOS.Wakeups

open Parking Interleaving Mutex Semaphore

variable {ρ α κ : Type}

/-- No notification is under way, and yet a thread sleeps with its ticket in the
list. -/
def Stuck (s : State ρ α) : Prop :=
  (∀ th ∈ s.threads, th.notifying = false ∧ th.woken = false) ∧ ∃ t, Parked s t

variable {p : Primitive ρ α κ} {s : State ρ α}

theorem not_stuck (law : Lawful p) {r : ρ} {b : α} {n : Nat}
    (reached : Reaches (step p) (Patient p) (start r b n) s) (free : 0 < p.free s.resource) :
    ¬ Stuck s := by
  rintro ⟨quiet, t, asleep⟩
  obtain ⟨t', th, here, busy⟩ := law.served reached asleep free
  obtain ⟨notNotifying, notWoken⟩ := quiet th (List.mem_of_getElem? here)
  rw [notNotifying, notWoken] at busy
  exact busy.elim nofun nofun

theorem wake_ups_kept (count threads : Nat) : (∀ {s : State RawMutex Mutex.Place},
      Reaches (step mutex) (Patient mutex) (start unlocked .idle threads) s →
      ¬ (s.resource.shares = 0 ∧ Stuck s)) ∧
    (∀ {s : State Nat Semaphore.Place}, Reaches (step semaphore) (Patient semaphore)
      (start count .idle threads) s → ¬ (0 < s.resource ∧ Stuck s)) := by
  constructor
  · rintro s reached ⟨unlocked, stuck⟩
    have free : 0 < mutex.free s.resource := by
      change 0 < if s.resource.shares = 0 then 1 else 0
      rw [if_pos unlocked]
      exact Nat.one_pos
    exact not_stuck Mutex.lawful reached free stuck
  · rintro s reached ⟨free, stuck⟩
    exact not_stuck Semaphore.lawful reached free stuck

/-- No thread has been woken. -/
def Calm (s : State ρ α) (_ : Event κ) : Prop := ∀ th ∈ s.threads, th.woken = false

instance (s : State ρ α) (e : Event κ) : Decidable (Calm s e) :=
  inferInstanceAs (Decidable (∀ th ∈ s.threads, th.woken = false))

theorem Calm.patient {e : Event κ} (calm : Calm s e) : Patient p s e := by
  intro t th here isWoken
  rw [calm th (List.mem_of_getElem? here)] at isWoken
  cases isWoken

/-- Thread `t` calls `lock` and goes to sleep. -/
def lockSleeps (t : Nat) : List (Event Mutex.Action) :=
  .own t (.lock true) :: List.replicate 51 (.own t (.atomic false)) ++
    [.own t (.clock false), .next t, .next t, .next t]

/-- Thread 0 has a shared guard, and two threads sleep. -/
def twoSleepers : List (Event Mutex.Action) :=
  [.own 0 (.lockShared true), .own 0 (.atomic false), .own 0 (.atomic false)] ++ lockSleeps
    1 ++ lockSleeps 2

/-- Thread `t` calls `wait` and goes to sleep. -/
def waitSleeps (t : Nat) : List (Event Semaphore.Action) :=
  .own t (.wait true) :: List.replicate 51 (.own t (.atomic false)) ++ [.next t, .next t, .next t]

/-- The last guard goes, and a post comes, while two threads sleep. -/
theorem wake_ups_kept_released :
    (∃ s, Reaches (step mutex) (Patient mutex) (start unlocked .idle 3) s ∧
    s.resource.shares = 0 ∧ ¬ Stuck s) ∧
    (∃ s, Reaches (step semaphore) (Patient semaphore) (start 0 .idle 3) s ∧ 0 < s.resource ∧
    ¬ Stuck s) := by
  constructor
  · obtain ⟨s, reached, free⟩ : ∃ s, Reaches (step mutex) Calm (start unlocked .idle 3) s ∧
        s.resource.shares = 0 :=
      exists_of_run (twoSleepers ++ [.own 0 .dropShared]) (by decide +kernel)
    have reached := reached.mono fun calm => calm.patient (p := mutex)
    exact ⟨s, reached, free, fun stuck => (wake_ups_kept 0 3).1 reached ⟨free, stuck⟩⟩
  · obtain ⟨s, reached, free⟩ : ∃ s, Reaches (step semaphore) Calm (start 0 .idle 3) s ∧
        0 < s.resource :=
      exists_of_run (waitSleeps 1 ++ waitSleeps 2 ++ [.own 0 .post]) (by decide +kernel)
    have reached := reached.mono fun calm => calm.patient (p := semaphore)
    exact ⟨s, reached, free, fun stuck => (wake_ups_kept 0 3).2 reached ⟨free, stuck⟩⟩

/-- The first sleeper gets the notification and leaves with `EINTR`: all others are
idle, the mutex is free (the semaphore has a post), and the second one sleeps on. -/
theorem not_wake_ups_kept :
    (∃ s, Reaches (step mutex) (fun _ _ => True) (start unlocked .idle 3) s ∧
    s.resource.shares = 0 ∧
      Stuck s ∧ ∀ t ≠ 2, ∀ th, s.threads[t]? = some th → th.place = .own .idle) ∧
    (∃ s, Reaches (step semaphore) (fun _ _ => True) (start 0 .idle 3) s ∧ 0 < s.resource ∧
      Stuck s ∧ ∀ t ≠ 2, ∀ th, s.threads[t]? = some th → th.place = .own .idle) := by
  have others {β : Type} b x : ∀ t ≠ 2, ∀ th : Parking.Thread β,
      [⟨.own b, false, false, false⟩, ⟨.own b, false, true, false⟩, x][t]? = some th →
          th.place = .own b := by
    intro t ne th here
    match t with
    | 0 => cases here; rfl
    | 1 => cases here; rfl
    | 2 => contradiction
    | t + 3 => cases here
  constructor
  · have ran : run (step mutex) (fun _ _ => True)
        (twoSleepers ++ [.own 0 .dropShared, .next 0, .signal 1, .next 1, .next 1, .next 1])
        (start unlocked .idle 3) = some
          ⟨⟨0, 0, 0⟩, [2], [⟨.own .idle, false, false, false⟩,
          ⟨.own .idle, false, true, false⟩,
              ⟨.park .sleep (.exclusiveSlow true), true, false, false⟩]⟩ := by
      decide +kernel
    refine ⟨_, .of_run .init ran, rfl, ⟨by decide, 2, ?_⟩, others _ _⟩
    exact ⟨by decide, _, _, rfl, rfl, rfl⟩
  · have ran : run (step semaphore) (fun _ _ => True)
        (waitSleeps 1 ++ waitSleeps 2 ++ [.own 0 .post, .next 0, .signal 1, .next 1,
          .next 1, .next 1])
        (start 0 .idle 3) = some ⟨1, [2], [⟨.own .idle, false, false, false⟩,
          ⟨.own .idle, false, true, false⟩,
              ⟨.park .sleep (.slow true), true, false, false⟩]⟩ := by
      decide +kernel
    refine ⟨_, .of_run .init ran, by decide, ⟨by decide, 2, ?_⟩, others _ _⟩
    exact ⟨by decide, _, _, rfl, rfl, rfl⟩

end BadgerOS.Wakeups
