import BadgerOS.Lib.Parking

/-!
# The semaphore

`Semaphore` of `kcore/sync/semaphore.rs` as a primitive of threads that park.
`try_update` is a load and then compare-and-exchange operations until one succeeds
or the counter is zero.
-/

namespace BadgerOS.Semaphore

open Parking Interleaving

/-- `POST_LIMIT`. -/
def postLimit : Nat := 65536

/-- Where a thread is in `timed_wait` or, without `intr`, in `unintr_timed_wait`. -/
inductive Place where
  | idle
  /-- At the load of `try_update` in the fast path. -/
  | fast (intr : Bool) (tries : Nat)
  | fastUpdate (intr : Bool) (tries : Nat) (prev : Nat)
  | slow (intr : Bool)
  | slowUpdate (intr : Bool) (prev : Nat)
  /-- `unintr_timed_wait` after its call of `unintr_block`. -/
  | clock
  deriving DecidableEq, Repr

inductive Action where
  | wait (intr : Bool)
  /-- The next operation on the counter. -/
  | atomic (spurious : Bool)
  | clock (expired : Bool)
  | post
  deriving DecidableEq, Repr

/-- The counter is zero. -/
def fastFail (intr : Bool) (tries : Nat) : Move Place :=
  .go (if tries ≤ 1 then .slow intr else .fast intr (tries - 1))

def slowFail (intr : Bool) : Move Place := .park (if intr then .slow true else .clock)

/-- The next operation on the counter of a call. -/
def atomic (spurious : Bool) (counter : Nat) : Place → Option (Move Place × Nat)
  | .fast intr tries =>
    some (if counter = 0 then fastFail intr tries
      else .go (.fastUpdate intr tries counter), counter)
  | .fastUpdate intr tries prev =>
    if counter = prev ∧ prev ≠ 0 ∧ spurious = false then some (.go .idle, counter - 1)
    else some (if counter = 0 then fastFail intr tries
      else .go (.fastUpdate intr tries counter), counter)
  | .slow intr =>
    some (if counter = 0 then slowFail intr else .go (.slowUpdate intr counter), counter)
  | .slowUpdate intr prev =>
    if counter = prev ∧ prev ≠ 0 ∧ spurious = false then some (.go .idle, counter - 1)
    else some (if counter = 0 then slowFail intr else .go (.slowUpdate intr counter), counter)
  | _ => none

def own (k : Action) (a : Place) (counter : Nat) : Option (Move Place × Nat) :=
  match k with
  | .wait intr => if a = .idle then some (.go (.fast intr 50), counter) else none
  | .atomic spurious => atomic spurious counter a
  | .clock expired =>
    if a = .clock then some (if expired then .leave .idle else .go (.slow false), counter) else none
  | .post => if a = .idle ∧ counter < postLimit then some (.notify .idle, counter + 1) else none

def interruptible : Place → Bool
  | .slow intr => intr
  | _ => false

/-- The slow paths. -/
def retrying : Place → Bool
  | .slow _ => true
  | .slowUpdate _ _ => true
  | .clock => true
  | _ => false

def semaphore : Primitive Nat Place Action where
  own := own
  condition _ counter := counter = 0
  interruptible := interruptible
  interrupted := .idle
  free counter := counter
  retrying := retrying

/-- What a step of a thread at `a` can do to the counter. -/
inductive Does (counter : Nat) (a : Place) : Move Place → Nat → Prop where
  | goes (a' : Place) (still : retrying a = true → retrying a' = true) :
    Does counter a (.go a') counter
  | parks (a' : Place) (slow : retrying a' = true) (zero : counter = 0) :
    Does counter a (.park a') counter
  | leaves : Does counter a (.leave .idle) counter
  | takes (some_left : 0 < counter) : Does counter a (.go .idle) (counter - 1)
  | posts (idle : a = .idle) : Does counter a (.notify .idle) (counter + 1)

section Steps

variable {counter counter' : Nat} {a : Place} {move : Move Place} {k : Action}

theorem does_fast {intr : Bool} {tries : Nat} (fast : retrying a = false) :
    Does counter a (if counter = 0 then fastFail intr tries
      else .go (.fastUpdate intr tries counter)) counter := by
  have still {a'} : retrying a = true → retrying a' = true := by simp [fast]
  split
  · exact .goes _ still
  · exact .goes _ still

theorem does_slow {intr : Bool} :
    Does counter a (if counter = 0 then slowFail intr else .go (.slowUpdate intr counter))
      counter := by
  split
  · rename_i zero
    refine .parks _ ?_ zero
    cases intr <;> rfl
  · exact .goes _ fun _ => rfl

theorem own_does (run : own k a counter = some (move, counter')) :
    Does counter a move counter' := by
  cases k with
  | wait intr =>
    obtain ⟨rfl, eq⟩ := Option.ite_none_right_eq_some.mp run
    cases eq
    exact .goes _ nofun
  | atomic spurious =>
    cases a with
    | fast intr tries =>
      cases run
      exact does_fast rfl
    | fastUpdate intr tries prev =>
      simp only [own, atomic] at run
      split at run
      · cases run
        exact .takes (by omega)
      · cases run
        exact does_fast rfl
    | slow intr =>
      cases run
      exact does_slow
    | slowUpdate intr prev =>
      simp only [own, atomic] at run
      split at run
      · cases run
        exact .takes (by omega)
      · cases run
        exact does_slow
    | _ => cases run
  | clock expired =>
    obtain ⟨rfl, eq⟩ := Option.ite_none_right_eq_some.mp run
    cases eq
    cases expired
    · exact .goes _ fun _ => rfl
    · exact .leaves
  | post =>
    obtain ⟨⟨idle, -⟩, eq⟩ := Option.ite_none_right_eq_some.mp run
    cases eq
    exact .posts idle

end Steps

/-- A thread parks only when the counter is zero. -/
theorem lawful : Lawful semaphore where
  releases run := by
    cases own_does run <;> simp only [semaphore, Move.notifications] <;> omega
  takes run trying stops := by
    cases own_does run with
    | goes a' still => exact absurd (still trying) (Bool.eq_false_iff.mp stops)
    | takes some_left => exact .inr (Nat.sub_lt some_left Nat.one_pos)
  notifies run trying := by
    cases own_does run with
    | posts idle =>
      subst idle
      cases trying
    | _ => rfl
  parks run := by
    cases own_does run with
    | parks a' slow zero => exact slow
  sleeps holds := of_decide_eq_true holds
  one := by
    right
    intro k a r a' r' run
    cases own_does run with
    | parks a' slow zero => exact zero

end BadgerOS.Semaphore
