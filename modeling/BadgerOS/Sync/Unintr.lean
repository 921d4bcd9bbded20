import BadgerOS.Sync.Mutex

/-!
# Locking without interruption

`unintr_lock`, `unintr_lock_shared` and `Mutex::unintr_lock` block as the interruptible calls
do, and unwrap the result. A signal makes `block` give up, so the result is an error.
-/

namespace BadgerOS.Mutex

open Parking Interleaving Option

/-- `unintr_lock` and `unintr_lock_shared` are `lock` and `lock_shared` with an `unwrap`, and
`Mutex::unintr_lock` is `timed_lock` with one. The timeout is `u64::MAX`, so the clock does
not pass it. -/
def unintr : Event Action → Bool
  | .own _ (.lock intr) | .own _ (.lockShared intr) => intr
  | .own _ (.clock expired) => !expired
  | _ => true

/-- Past the first step of `block`. -/
def blocks : Parking.Place Place → Bool
  | .park .flag _ => false
  | .park _ _ => true
  | _ => false

/-- No signal is sent to a thread in `block`, and none is pending when it starts. -/
def undisturbed (s : State RawMutex Place) : Event Action → Bool
  | .signal t => s.threads[t]?.all fun th => !blocks th.place
  | .next t => s.threads[t]?.all fun th => blocks th.place || !th.signal
  | _ => true

abbrev Calm (s : State RawMutex Place) (e : Event Action) : Prop :=
  unintr e = true ∧ undisturbed s e = true

def Quiet (s : State RawMutex Place) : Prop := ∀ th ∈ s.threads, blocks th.place = true →
    th.signal = false

section

variable {s s' : State RawMutex Place} {t : Nat} {th : Thread Place} {m m' : RawMutex} {a b : Place}
  {k : Action} {stage : Stage} {e : Event Action}

theorem orElse_ne {taken : Option RawMutex} : m.orElse taken a ≠ some (.leave b, m') := by
  intro run
  cases taken <;> cases run

theorem clock_of_leave (run : own k a m = some (.leave b, m')) : k = .clock true := by
  cases own_does run
  cases k with
  | clock expired =>
    cases expired with
    | false => cases a <;> cases run
    | true => rfl
  | atomic spurious =>
    cases a with
    | exclusiveFast | exclusiveSlow => exact absurd run orElse_ne
    | sharedFast | sharedSlow =>
      obtain ⟨-, run⟩ | ⟨-, run⟩ := ite_eq_iff.mp run
      · cases run
      · exact absurd run orElse_ne
    | _ => cases run
  | dropShared =>
    obtain ⟨-, eq⟩ := ite_none_right_eq_some.mp run
    split at eq <;> cases eq
  | _ => cases (ite_none_right_eq_some.mp run).2

theorem Quiet.set (quiet : Quiet s) (here : blocks th.place = true → th.signal = false) :
    Quiet (s.set t th) := by
  intro th' mem
  rcases mem_set mem with rfl | old
  · exact here
  · exact quiet th' old

theorem Quiet.parkStep (quiet : Quiet s) (none : th.signal = false)
    (run : parkStep mutex s t th a stage = some s') : Quiet s' := by
  have set (th' : Thread Place) (same : th'.signal = th.signal) : Quiet (s.set t th') :=
    quiet.set fun _ => same.trans none
  cases stage with
  | check | signal | sleep =>
    simp only [Parking.parkStep] at run
    split at run
    all_goals
      cases run
      try exact set _ rfl
  | _ =>
    cases run
    exact set _ rfl

theorem Quiet.step (quiet : Quiet s) (calm : undisturbed s e = true)
    (run : step mutex e s = some s') : Quiet s' := by
  cases e with
  | own t k =>
    obtain ⟨th, here, run⟩ := bind_eq_some_iff.mp run
    split at run
    · obtain ⟨⟨move, r⟩, moved, run⟩ := bind_eq_some_iff.mp run
      cases run
      refine quiet.set (s := s) fun inside => ?_
      cases move <;> cases inside
    · cases run
  | next t =>
    obtain ⟨th, here, run⟩ := bind_eq_some_iff.mp run
    have old := quiet th (List.mem_of_getElem? here)
    split at run
    · cases run
    · refine quiet.parkStep ?_ run
      by_cases inside : blocks th.place = true
      · exact old inside
      · simpa [undisturbed, here, inside] using calm
    · unfold notifyStep at run
      split at run
      · cases run
        exact quiet.set fun inside => absurd inside Bool.false_ne_true
      · obtain ⟨th', there, run⟩ := bind_eq_some_iff.mp run
        cases run
        have first (u : Nat) : Quiet (s.set u { th' with blocked := false, woken := true }) :=
          quiet.set (quiet th' (List.mem_of_getElem? there))
        exact (first _).set (s := s.set _ _) fun inside => absurd inside Bool.false_ne_true
    · cases run
      refine Quiet.set (fun th' mem => ?_) fun inside => absurd inside Bool.false_ne_true
      obtain ⟨i, less, rfl⟩ := List.mem_mapIdx.mp mem
      have old := quiet _ (List.getElem_mem less)
      split <;> exact old
  | signal t | unblock t | handled t =>
    obtain ⟨th, here, run⟩ := bind_eq_some_iff.mp run
    cases run
    refine quiet.set fun inside => ?_
    have old := quiet th (List.mem_of_getElem? here) inside
    simp_all [undisturbed]

end

/-- A thread has the mutex, and another one has tried it often enough to block. -/
def contended : List (Event Action) :=
  [.own 0 (.lock true), .own 0 (.atomic false), .own 1 (.lock true)] ++ .replicate 51
    (.own 1 (.atomic false)) ++ [.own 1 (.clock false), .next 1, .next 1, .next 1]

end BadgerOS.Mutex
