import BadgerOS.Lib.Interleaving
import BadgerOS.Types

/-!
# Reservations of a bus

`claim`, `cancel_resv`, `take` and the drops of `device/bus/mod.rs`. A step is what is done
under the lock of the reservation, or one atomic operation. `claim` has the lock while it
waits for operations in flight, and nobody else gets it then.
-/

namespace BadgerOS.Bus

open Interleaving Function Option

attribute [local grind =] update_apply

structure State where
  resvId : Option Nat
  /-- An `AtomicU32`. -/
  inflight : Nat
  /-- The thread that is in `claim`, and whether it has seen that nothing is in flight. -/
  claiming : Option (Nat × Bool)
  /-- How many `BusResv` values were made, their ids until they are given back, and
  whether `drop` has begun. -/
  made : Nat
  ids : Nat → Option Nat
  dropping : Nat → Bool
  /-- The `BusInflight` values, each by the `BusResv` that it was taken from. -/
  live : List Nat
  /-- History: the reservation was cancelled while it was that of the bus. -/
  cancelled : Nat → Bool

abbrev u32Size : Nat := 4294967296

namespace State

/-- What `take` returns for a `BusResv` with the id. -/
def take (s : State) (id : Nat) : Except Errno Unit :=
  if s.resvId ≠ some id then .error .enodev else .ok ()

/-- `cancel_resv_from`. -/
def cancelResvFrom (s : State) (id : Option Nat) : State :=
  if s.resvId = none ∨ (id ≠ none ∧ id ≠ s.resvId) then s
  else { s with resvId := none, cancelled := fun h => s.cancelled h || s.ids h == s.resvId }

def beginDrop (s : State) (h : Nat) : State := { s with dropping := update s.dropping h true }

/-- The id of a `BusResv` that can be used. -/
def usable (s : State) (h : Nat) : Option Nat := if s.dropping h then none else s.ids h

end State

open State

inductive Event where
  /-- `claim` takes the lock, sees that nothing is in flight, and makes a reservation with a new id.
  -/
  | claim (t : Nat)
  | drained (t : Nat)
  | claimed (t id : Nat)
  | cancelBus
  | cancel (h : Nat)
  | take (h : Nat)
  /-- A `BusInflight` is dropped. -/
  | finish (h : Nat)
  /-- A `BusResv` is dropped: it is cancelled, and its id is given back. -/
  | drop (h : Nat)
  | dealloc (h : Nat)
  deriving DecidableEq, Repr

def step : Event → State → Option State
  | .claim t, s =>
    if s.claiming ≠ none then none
    else if s.resvId ≠ none then some s -- `EADDRINUSE`
    else some { s with claiming := some (t, false) }
  | .drained t, s =>
    if s.claiming = some (t, false) ∧
      s.inflight = 0 then some { s with claiming := some (t, true) } else none
  | .claimed t id, s =>
    if s.claiming = some (t, true) ∧ ∀ h < s.made, s.ids h ≠ some id then
      some { s with
        claiming := none
        resvId := some id
        made := s.made + 1
        ids := update s.ids s.made (some id) }
    else none
  | .cancelBus, s => if s.claiming = none then some (s.cancelResvFrom none) else none
  | .cancel h, s => if s.claiming = none then (s.usable h).map fun id =>
    s.cancelResvFrom (some id) else none
  | .take h, s =>
    if s.claiming ≠ none then none
    else (s.usable h).map fun id => match s.take id with
      | .error _ => s
      | .ok () => { s with inflight := (s.inflight + 1) % u32Size, live := h :: s.live }
  | .finish h, s =>
    if h ∈ s.live then
      some { s with inflight := (s.inflight + (u32Size - 1)) % u32Size, live := s.live.erase h }
    else none
  | .drop h, s =>
    if s.claiming = none then (s.usable h).map fun id =>
      (s.cancelResvFrom (some id)).beginDrop h else none
  | .dealloc h, s => if s.dropping h then some { s with ids := update s.ids h none } else none

def start : State := ⟨none, 0, none, 0, fun _ => none, fun _ => false, [], fun _ => false⟩

/-! ### What every step keeps -/

structure Inv (s : State) : Prop where
  unique : ∀ h h' id, s.ids h = some id → s.ids h' = some id → h = h'
  fresh : ∀ h, s.made ≤ h → s.ids h = none ∧ s.cancelled h = false ∧ s.dropping h = false
  /-- The reservation of the bus has not been cancelled or dropped. -/
  current : ∀ h id, s.ids h = some id → s.resvId = some id → s.cancelled h = false ∧
    s.dropping h = false

/-- While not too many operations are in flight, their number is known. -/
structure Counted (s : State) : Prop where
  inflight : s.inflight = s.live.length
  few : s.live.length < u32Size
  drained : ∀ t, s.claiming = some (t, true) → s.live = []

section Steps

variable {s s' : State} {e : Event} {h id : Nat}

theorem State.ids_of_usable (there : s.usable h = some id) : s.ids h = some id := by
  unfold usable at there
  split at there
  · cases there
  · exact there

theorem Inv.cancelResvFrom (inv : Inv s) (id : Option Nat) : Inv (s.cancelResvFrom id) := by
  unfold State.cancelResvFrom
  split
  · exact inv
  · obtain ⟨unique, fresh, current⟩ := inv
    refine ⟨unique, fun h new => ?_, nofun⟩
    cases bus : s.resvId <;> simp_all

/-- A reservation that was cancelled is dropped. -/
theorem Inv.drop (inv : Inv s) (there : s.ids h = some id) :
    Inv ((s.cancelResvFrom (some id)).beginDrop h) := by
  have ids : (s.cancelResvFrom (some id)).ids = s.ids := by
    unfold State.cancelResvFrom
    split <;> rfl
  have gone : (s.cancelResvFrom (some id)).resvId ≠ some id := by
    unfold State.cancelResvFrom
    split <;> grind
  have ⟨unique, fresh, current⟩ := inv.cancelResvFrom (some id)
  constructor <;> dsimp only [beginDrop] <;> grind

theorem Inv.step (inv : Inv s) (run : Bus.step e s = some s') : Inv s' := by
  have ⟨unique, fresh, current⟩ := inv
  cases e with
  | claim t =>
    obtain ⟨-, run⟩ := ite_none_left_eq_some.mp run
    split at run
    · cases run
      exact inv
    · cases run
      exact ⟨unique, fresh, current⟩
  | drained t | finish h =>
    obtain ⟨-, run⟩ := ite_none_right_eq_some.mp run
    cases run
    exact ⟨unique, fresh, current⟩
  | claimed t id =>
    obtain ⟨⟨-, unused⟩, run⟩ := ite_none_right_eq_some.mp run
    cases run
    constructor <;> grind
  | cancelBus =>
    obtain ⟨-, run⟩ := ite_none_right_eq_some.mp run
    cases run
    exact inv.cancelResvFrom none
  | cancel h =>
    obtain ⟨-, run⟩ := ite_none_right_eq_some.mp run
    obtain ⟨id, -, rfl⟩ := map_eq_some_iff.mp run
    exact inv.cancelResvFrom (some id)
  | take h =>
    obtain ⟨-, run⟩ := ite_none_left_eq_some.mp run
    obtain ⟨id, -, rfl⟩ := map_eq_some_iff.mp run
    split
    · exact inv
    · exact ⟨unique, fresh, current⟩
  | drop h =>
    obtain ⟨-, run⟩ := ite_none_right_eq_some.mp run
    obtain ⟨id, there, rfl⟩ := map_eq_some_iff.mp run
    exact inv.drop (ids_of_usable there)
  | dealloc h =>
    obtain ⟨dropping, run⟩ := ite_none_right_eq_some.mp run
    cases run
    constructor <;> grind

/-- Another operation can be started. -/
def Few (s : State) : Event → Prop
  | .take _ => s.live.length + 1 < u32Size
  | _ => True

instance {s : State} : (e : Event) → Decidable (Few s e)
  | .take _ => inferInstanceAs (Decidable (s.live.length + 1 < u32Size))
  | .claim _ | .drained _ | .claimed .. | .cancelBus | .cancel _ | .finish _ | .drop
    _ | .dealloc _ =>
    inferInstanceAs (Decidable True)

theorem Counted.congr (counted : Counted s) (inflight : s'.inflight = s.inflight)
    (live : s'.live = s.live)
    (claiming : s'.claiming = s.claiming ∨ ∀ t, s'.claiming ≠ some (t, true)) :
    Counted s' := by
  obtain ⟨inflight', few, drained⟩ := counted
  refine ⟨by rw [inflight, live, inflight'], by rw [live]; exact few, fun t there => ?_⟩
  obtain same | out := claiming
  · rw [live]
    exact drained t (same ▸ there)
  · exact absurd there (out t)

theorem Counted.cancelResvFrom (counted : Counted s) (id : Option Nat) :
    Counted (s.cancelResvFrom id) := by
  unfold State.cancelResvFrom
  split
  · exact counted
  · exact counted.congr rfl rfl (.inl rfl)

theorem Counted.step (counted : Counted s) (few : Few s e) (run : Bus.step e s = some s') :
    Counted s' := by
  have ⟨inflight, small, drained⟩ := counted
  cases e with
  | claim t =>
    obtain ⟨-, run⟩ := ite_none_left_eq_some.mp run
    split at run
    · cases run
      exact counted
    · cases run
      exact counted.congr rfl rfl (.inr (by simp))
  | drained t =>
    obtain ⟨⟨-, zero⟩, run⟩ := ite_none_right_eq_some.mp run
    cases run
    exact ⟨inflight, small, fun _ _ => List.eq_nil_of_length_eq_zero
      (by rw [← inflight, zero])⟩
  | claimed t id =>
    obtain ⟨-, run⟩ := ite_none_right_eq_some.mp run
    cases run
    exact counted.congr rfl rfl (.inr (by simp))
  | cancelBus =>
    obtain ⟨-, run⟩ := ite_none_right_eq_some.mp run
    cases run
    exact counted.cancelResvFrom none
  | cancel h =>
    obtain ⟨-, run⟩ := ite_none_right_eq_some.mp run
    obtain ⟨id, -, rfl⟩ := map_eq_some_iff.mp run
    exact counted.cancelResvFrom (some id)
  | take h =>
    obtain ⟨free, run⟩ := ite_none_left_eq_some.mp run
    obtain ⟨id, -, rfl⟩ := map_eq_some_iff.mp run
    split
    · exact counted
    · refine ⟨?_, few, fun t there => absurd there (by simp_all)⟩
      rw [List.length_cons, inflight, Nat.mod_eq_of_lt few]
  | finish h =>
    obtain ⟨mem, run⟩ := ite_none_right_eq_some.mp run
    cases run
    have length := List.length_erase_of_mem mem
    have positive := List.length_pos_of_mem mem
    simp only [u32Size] at small
    refine ⟨?_, ?_, fun t there => ?_⟩
    · simp only [u32Size]
      omega
    · simp only [u32Size]
      omega
    · simp [drained t there] at mem
  | drop h =>
    obtain ⟨-, run⟩ := ite_none_right_eq_some.mp run
    obtain ⟨id, -, rfl⟩ := map_eq_some_iff.mp run
    exact (counted.cancelResvFrom (some id)).congr rfl rfl (.inl rfl)
  | dealloc h =>
    obtain ⟨-, run⟩ := ite_none_right_eq_some.mp run
    cases run
    exact counted.congr rfl rfl (.inl rfl)

end Steps

/-- At most one reservation can be used, none that was cancelled, and while fewer than
2^32 operations are in flight `claim` does not return before they are over. -/
theorem reservations_exclusive {s : State} (reached : Reaches step (fun _ _ => True) start s) :
    (∀ h h' id id', s.ids h = some id → s.ids h' = some id' → s.take id = .ok () →
      s.take id' = .ok () → h = h') ∧
    (∀ h id, s.ids h = some id → s.cancelled h = true → s.take id = .error .enodev) ∧
    (Reaches step Few start s → ∀ t id s', step (.claimed t id) s = some s' →
    s'.live = []) := by
  have inv : Inv s := by
    refine reached.invariant ⟨nofun, fun _ _ => ⟨rfl, rfl, rfl⟩, nofun⟩ ?_
    exact fun _ inv run => inv.step run
  have succeeds {id : Nat} (ok : s.take id = .ok ()) : s.resvId = some id := by
    unfold take at ok
    split at ok
    · cases ok
    · exact not_not.mp ‹_›
  refine ⟨?_, ?_, ?_⟩
  · intro h h' id id' there there' ok ok'
    have same := Option.some.inj ((succeeds ok).symm.trans (succeeds ok'))
    subst same
    exact inv.unique h h' id there there'
  · intro h id there cancelled
    unfold take
    rw [if_pos]
    intro bus
    have := (inv.current h id there bus).1
    simp_all
  · intro reached t id s' run
    have counted : Counted s := by
      refine reached.invariant ⟨rfl, by decide, nofun⟩ ?_
      exact fun few counted run => counted.step few run
    obtain ⟨⟨claiming, -⟩, run⟩ := ite_none_right_eq_some.mp run
    cases run
    exact counted.drained t claiming

/-- A bus is claimed, used, cancelled while it is in use, and claimed again. -/
def handOver : List Event :=
  [.claim 0, .drained 0, .claimed 0 5, .take 0, .cancelBus, .claim 1, .finish 0, .drained 1]

theorem reservations_exclusive_again : ∃ s s', step (.claimed 1 6) s = some s' ∧
    s.ids 0 = some 5 ∧ s.take 5 = .error .enodev ∧ s'.live = [] := by
  obtain ⟨s, reached, again, there, cancelled⟩ : ∃ s, Reaches step Few start s ∧
      (step (.claimed 1 6) s).isSome ∧ s.ids 0 = some 5 ∧ s.cancelled 0 :=
        exists_of_run handOver (by decide +kernel)
  obtain ⟨s', again⟩ := isSome_iff_exists.mp again
  have exclusive := reservations_exclusive (reached.mono fun _ => trivial)
  exact ⟨s, s', again, there, exclusive.2.1 0 5 there cancelled,
    exclusive.2.2 reached 1 6 s' again⟩

/-- A bus with so many operations in flight through its first reservation. -/
def loaded (n : Nat) : State :=
  ⟨some 5, n % u32Size, none, 1, update (fun _ => none) 0 (some 5),
    fun _ => false, List.replicate n 0, fun _ => false⟩

theorem loaded_reached (n : Nat) : Reaches step (fun _ _ => True) start (loaded n) := by
  induction n with
  | zero =>
    have first : Reaches step (fun _ _ => True) start { start with claiming := some (0, false) } :=
      Reaches.init.next (k := .claim 0) trivial rfl
    have second := first.next (k := .drained 0) trivial rfl
    exact second.next (k := .claimed 0 5) trivial (by simp [step, start, loaded])
  | succ n ih =>
    apply ih.next (k := .take 0) trivial
    simp [step, loaded, usable, take, List.replicate_succ]

/-- With 2^32 operations in flight the count is zero, and `claim` does not wait. -/
theorem not_reservations_exclusive : ∃ s s', Reaches step (fun _ _ => True) start s ∧
    step (.claimed 1 6) s = some s' ∧ s'.live.length = u32Size := by
  have cancelled := (loaded_reached u32Size).next (k := .cancelBus) trivial rfl
  have locked := cancelled.next (k := .claim 1) trivial rfl
  have drained := locked.next (k := .drained 1) trivial rfl
  refine ⟨_, _, drained, rfl, ?_⟩
  exact List.length_replicate

end BadgerOS.Bus
