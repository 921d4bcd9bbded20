import BadgerOS.Lib.Parking

/-!
# The mutex

`RawMutex` of `kcore/sync/mutex.rs` as a primitive of threads that park. One step
is one atomic operation on `shares`, one look at the clock, or one step of the
waitlist. `compare_exchange_weak` may fail without a reason. The two counts of live
guards are read by no code.
-/

namespace BadgerOS.Mutex

open Parking Interleaving Option

structure RawMutex where
  shares : BitVec 32
  /-- The live `RawMutexGuard`s. -/
  exclusive : Nat
  /-- The live `SharedRawMutexGuard`s. -/
  shared : Nat
  deriving DecidableEq, Repr

/-- `u32::MAX`. -/
abbrev u32Max : BitVec 32 := 0xffffffff#32

/-- Where a thread is in `RawMutexGuard::new` or `SharedRawMutexGuard::new`; `intr` is
false in `unintr_new`. -/
inductive Place where
  | idle
  | exclusiveFast (intr : Bool) (tries : Nat)
  | exclusiveSlow (intr : Bool)
  /-- At the look at the clock. -/
  | exclusiveClock (intr : Bool)
  | sharedStart (intr : Bool)
  | sharedFast (intr : Bool) (tries : Nat) (old : BitVec 32)
  | sharedClock (intr : Bool) (old : BitVec 32)
  | sharedSlow (intr : Bool) (old : BitVec 32)
  deriving DecidableEq, Repr

inductive Action where
  | lock (intr : Bool)
  | lockShared (intr : Bool)
  /-- The next operation on `shares`. -/
  | atomic (spurious : Bool)
  | clock (expired : Bool)
  | share
  | demote
  | drop
  | dropShared
  deriving DecidableEq, Repr

namespace RawMutex

/-- `compare_exchange_weak(0, u32::MAX)`. -/
def tryExclusive (m : RawMutex) (spurious : Bool) : Option RawMutex :=
  if m.shares = 0 ∧
    spurious = false then some { m with shares := u32Max, exclusive := m.exclusive + 1 } else none

/-- `compare_exchange_weak(old, old + 1)`. -/
def tryShared (m : RawMutex) (old : BitVec 32) (spurious : Bool) : Option RawMutex :=
  if m.shares = old ∧
    spurious = false then some { m with shares := old + 1, shared := m.shared + 1 } else none

/-- A guard when there is one, or else go on. -/
def orElse (m : RawMutex) (taken : Option RawMutex) (next : Place) :
    Option (Move Place × RawMutex) :=
  match taken with
  | some m' => some (.go .idle, m')
  | none => some (.go next, m)

end RawMutex

/-- The next operation on `shares` of a call. -/
def atomic (spurious : Bool) (m : RawMutex) : Place → Option (Move Place × RawMutex)
  | .exclusiveFast intr tries =>
    m.orElse (m.tryExclusive spurious) (if tries ≤ 1 then .exclusiveSlow intr
      else .exclusiveFast intr (tries - 1))
  | .exclusiveSlow intr => m.orElse (m.tryExclusive spurious) (.exclusiveClock intr)
  | .sharedStart intr => some (.go (.sharedFast intr 50 m.shares), m)
  | .sharedFast intr tries old =>
    let next :=
      if tries ≤ 1 then Place.sharedClock intr m.shares else .sharedFast intr (tries - 1) m.shares
    if old = u32Max then some (.go next, m) else m.orElse (m.tryShared old spurious) next
  | .sharedSlow intr old =>
    -- a load and then `block`, or a compare and exchange
    if old = u32Max then some (.park (.sharedClock intr m.shares), m)
    else m.orElse (m.tryShared old spurious) (.sharedClock intr m.shares)
  | _ => none

def clock (expired : Bool) (m : RawMutex) : Place → Option (Move Place × RawMutex)
  | .exclusiveClock intr => some (if expired then .leave .idle else .park (.exclusiveSlow intr), m)
  | .sharedClock intr old => some (if expired then .leave .idle else .go (.sharedSlow intr old), m)
  | _ => none

def own (k : Action) (a : Place) (m : RawMutex) : Option (Move Place × RawMutex) :=
  match k with
  | .lock intr => if a = .idle then some (.go (.exclusiveFast intr 50), m) else none
  | .lockShared intr => if a = .idle then some (.go (.sharedStart intr), m) else none
  | .atomic spurious => atomic spurious m a
  | .clock expired => clock expired m a
  | .share =>
    if a = .idle ∧ 0 < m.shared ∧ m.shares ≠ u32Max then
      some (.go .idle, { m with shares := m.shares + 1, shared := m.shared + 1 })
    else none
  | .demote =>
    if a = .idle ∧ 0 < m.exclusive then
      some (.notifyAll .idle, { shares := 1, exclusive := m.exclusive - 1, shared := m.shared + 1 })
    else none
  | .drop =>
    if a = .idle ∧ 0 < m.exclusive then
      some (.notifyAll .idle, { m with shares := 0, exclusive := m.exclusive - 1 })
    else none
  | .dropShared =>
    if a = .idle ∧ 0 < m.shared then
      some (if m.shares = 1 then .notify .idle else .go .idle,
        { m with shares := m.shares - 1, shared := m.shared - 1 })
    else none

/-- The conditions of the two calls of `block`, by where they go on. -/
def condition : Place → RawMutex → Bool
  | .exclusiveSlow _, m => m.shares ≠ 0
  | .sharedClock _ _, m => m.shares = u32Max
  | _, _ => false

def interruptible : Place → Bool
  | .exclusiveSlow intr => intr
  | .sharedClock intr _ => intr
  | _ => false

/-- The slow paths. -/
def retrying : Place → Bool
  | .exclusiveSlow _ => true
  | .exclusiveClock _ => true
  | .sharedClock _ _ => true
  | .sharedSlow _ _ => true
  | _ => false

def mutex : Primitive RawMutex Place Action where
  own := own
  condition := condition
  interruptible := interruptible
  interrupted := .idle
  free m := if m.shares = 0 then 1 else 0
  retrying := retrying

/-- What a step of a thread at `a` can do to the mutex. -/
inductive Does (m : RawMutex) (a : Place) : Move Place → RawMutex → Prop where
  | goes (a' : Place) (still : retrying a = true → retrying a' = true) : Does m a (.go a') m
  | parks (a' : Place) (slow : retrying a' = true) : Does m a (.park a') m
  | leaves : Does m a (.leave .idle) m
  | locks (free : m.shares = 0) :
      Does m a (.go .idle) { m with shares := u32Max, exclusive := m.exclusive + 1 }
  | shares (room : m.shares ≠ u32Max) :
      Does m a (.go .idle) { m with shares := m.shares + 1, shared := m.shared + 1 }
  | demotes (idle : a = .idle) (held : 0 < m.exclusive) :
      Does m a (.notifyAll .idle)
        { shares := 1, exclusive := m.exclusive - 1, shared := m.shared + 1 }
  | drops (idle : a = .idle) (held : 0 < m.exclusive) :
      Does m a (.notifyAll .idle) { m with shares := 0, exclusive := m.exclusive - 1 }
  | dropsLast (idle : a = .idle) (held : 0 < m.shared) (last : m.shares = 1) :
      Does m a (.notify .idle) { m with shares := m.shares - 1, shared := m.shared - 1 }
  | dropsShared (idle : a = .idle) (held : 0 < m.shared) (more : m.shares ≠ 1) :
      Does m a (.go .idle) { m with shares := m.shares - 1, shared := m.shared - 1 }

section Steps

variable {m m' : RawMutex} {a next : Place} {move : Move Place} {spurious : Bool} {old : BitVec 32}
  {k : Action}

theorem does_exclusive (run : m.orElse (m.tryExclusive spurious) next = some (move, m'))
    (still : retrying a = true → retrying next = true) : Does m a move m' := by
  unfold RawMutex.orElse RawMutex.tryExclusive at run
  split at run
  · rename_i taken
    split at taken
    · rename_i free
      cases taken
      cases run
      exact .locks free.1
    · cases taken
  · cases run
    exact .goes next still

theorem does_shared (run : m.orElse (m.tryShared old spurious) next = some (move, m'))
    (room : old ≠ u32Max)
    (still : retrying a = true → retrying next = true) : Does m a move m' := by
  unfold RawMutex.orElse RawMutex.tryShared at run
  split at run
  · rename_i taken
    split at taken
    · rename_i same
      obtain ⟨rfl, -⟩ := same
      cases taken
      cases run
      exact .shares room
    · cases taken
  · cases run
    exact .goes next still

theorem does_atomic (run : atomic spurious m a = some (move, m')) : Does m a move m' := by
  cases a with
  | exclusiveFast intr tries => exact does_exclusive run nofun
  | exclusiveSlow intr => exact does_exclusive run fun _ => rfl
  | sharedStart intr =>
    cases run
    exact .goes _ nofun
  | sharedFast intr tries old =>
    simp only [atomic] at run
    split at run
    · cases run
      exact .goes _ nofun
    · rename_i room
      exact does_shared run room nofun
  | sharedSlow intr old =>
    simp only [atomic] at run
    split at run
    · cases run
      exact .parks _ rfl
    · rename_i room
      exact does_shared run room fun _ => rfl
  | _ => cases run

theorem does_clock {expired : Bool} (run : clock expired m a = some (move, m')) :
    Does m a move m' := by
  cases a with
  | exclusiveClock intr =>
    cases run
    cases expired
    · exact .parks _ rfl
    · exact .leaves
  | sharedClock intr old =>
    cases run
    cases expired
    · exact .goes _ fun _ => rfl
    · exact .leaves
  | _ => cases run

theorem own_does (run : own k a m = some (move, m')) : Does m a move m' := by
  cases k with
  | atomic spurious => exact does_atomic run
  | clock expired => exact does_clock run
  | lock intr | lockShared intr =>
    obtain ⟨rfl, eq⟩ := ite_none_right_eq_some.mp run
    cases eq
    exact .goes _ nofun
  | share =>
    obtain ⟨⟨-, -, room⟩, eq⟩ := ite_none_right_eq_some.mp run
    cases eq
    exact .shares room
  | demote =>
    obtain ⟨⟨idle, held⟩, eq⟩ := ite_none_right_eq_some.mp run
    cases eq
    exact .demotes idle held
  | drop =>
    obtain ⟨⟨idle, held⟩, eq⟩ := ite_none_right_eq_some.mp run
    cases eq
    exact .drops idle held
  | dropShared =>
    obtain ⟨⟨idle, held⟩, eq⟩ := ite_none_right_eq_some.mp run
    cases eq
    split
    · rename_i last
      exact .dropsLast idle held last
    · rename_i more
      exact .dropsShared idle held more

end Steps

/-! ### Exclusion -/

/-- One exclusive guard and no other, or as many shares as shared guards. -/
def Sound (m : RawMutex) : Prop :=
  (m.exclusive = 1 ∧ m.shared = 0 ∧ m.shares = u32Max) ∨
    (m.exclusive = 0 ∧ m.shares.toNat = m.shared ∧ m.shared < 2 ^ 32 - 1)

theorem toNat_one : (1 : BitVec 32).toNat = 1 := rfl

/-- A shared guard goes. -/
theorem Sound.dropShared {m : RawMutex} (sound : Sound m) (held : 0 < m.shared) :
    Sound { m with shares := m.shares - 1, shared := m.shared - 1 } := by
  rcases sound with ⟨-, zero, -⟩ | ⟨none, count, less⟩
  · omega
  · refine .inr ⟨none, ?_, by simp only; omega⟩
    simp only [BitVec.toNat_sub, count, toNat_one]
    omega

theorem Sound.does {m m' : RawMutex} {a : Place} {move : Move Place} (sound : Sound m)
    (few : m.shared < 2 ^ 32 - 2) (does : Does m a move m') : Sound m' := by
  cases does with
  | goes | parks | leaves => exact sound
  | locks free =>
    rcases sound with ⟨-, -, max⟩ | ⟨none, count, -⟩
    · rw [free] at max
      cases max
    · have zero : m.shared = 0 := by
        rw [← count, free]
        rfl
      exact .inl ⟨by simp [none], zero, rfl⟩
  | shares room =>
    rcases sound with ⟨-, -, max⟩ | ⟨none, count, -⟩
    · exact absurd max room
    · refine .inr ⟨none, ?_, by simp only; omega⟩
      simp only [BitVec.toNat_add, count, toNat_one]
      omega
  | demotes idle held | drops idle held =>
    rcases sound with ⟨one, zero, -⟩ | ⟨none, -⟩
    · exact .inr ⟨by simp [one], by simp [zero], by simp [zero]⟩
    · omega
  | dropsLast idle held last | dropsShared idle held more => exact sound.dropShared held

/-- `RawMutex::new`. -/
def unlocked : RawMutex := ⟨0, 0, 0⟩

/-- Fewer than `2 ^ 32 - 2` shared guards are alive. -/
def FewShared (s : State RawMutex Place) (_ : Event Action) : Prop := s.resource.shared < 2 ^ 32 - 2

instance (s : State RawMutex Place) (e : Event Action) : Decidable (FewShared s e) :=
  inferInstanceAs (Decidable (_ < _))

theorem mutex_exclusive {threads : Nat} {s : State RawMutex Place}
    (reached : Reaches (step mutex) FewShared (start unlocked .idle threads) s) :
    (s.resource.shares.toNat = 2 ^ 32 - 1 ↔ s.resource.exclusive = 1 ∧
    s.resource.shared = 0) ∧
    (¬ (s.resource.exclusive = 1 ∧ s.resource.shared = 0) →
    s.resource.shares.toNat = s.resource.shared) ∧
    (0 < s.resource.exclusive → s.resource.exclusive = 1 ∧ s.resource.shared = 0) := by
  have sound : Sound s.resource := by
    refine resource_invariant reached (.inr ⟨rfl, rfl, (by decide : 0 < 2 ^ 32 - 1)⟩)
      fun few sound moved => ?_
    exact sound.does few (own_does moved)
  rcases sound with ⟨one, zero, max⟩ | ⟨none, count, less⟩
  · rw [max, one, zero]
    decide
  · omega

/-- One thread locks, demotes its guard and shares it. -/
theorem mutex_exclusive_demoted : ∃ s, Reaches (step mutex) FewShared (start unlocked .idle 2)
    s ∧ s.resource.shares.toNat = 2 ∧ s.resource.shared = 2 := by
  obtain ⟨s, reached, none, two⟩ : ∃ s, Reaches (step mutex) FewShared
    (start unlocked .idle 2) s ∧
      s.resource.exclusive = 0 ∧ s.resource.shared = 2 :=
    exists_of_run [.own 0 (.lock true), .own 0 (.atomic false), .own 0 .demote, .next 0,
      .own 1 .share] (by decide +kernel)
  refine ⟨s, reached, ?_, two⟩
  rw [(mutex_exclusive reached).2.1 (by rw [none]; nofun), two]

/-! ### Waiting -/

theorem share_nonzero {m : RawMutex} (room : m.shares ≠ u32Max) : m.shares + 1 ≠ 0 :=
  fun eq => room (by bv_omega)

/-- The mutex has room for one thread, and it is notified when it becomes free. -/
theorem lawful : Lawful mutex where
  releases {k a m move m'} run := by
    change (if m'.shares = 0 then 1 else 0) ≤ (if m.shares = 0 then 1 else 0) + _
    cases own_does run with
    | goes | parks | leaves => exact Nat.le_add_right _ _
    | locks free | demotes => exact Nat.zero_le _
    | shares room =>
      rw [if_neg (share_nonzero room)]
      exact Nat.zero_le _
    | drops => exact Nat.le_add_left _ _
    | dropsLast => split <;> exact Nat.le_trans (by decide) (Nat.le_add_left _ _)
    | dropsShared idle held more =>
      have nonzero : m.shares - 1 ≠ 0 := fun eq => more (by bv_omega)
      rw [if_neg nonzero]
      exact Nat.zero_le _
  takes {k a m a' m'} run trying stops := by
    left
    cases own_does run with
    | goes a' still => exact absurd (still trying) (Bool.eq_false_iff.mp stops)
    | locks free => rfl
    | shares room => exact if_neg (share_nonzero room)
    | dropsShared idle =>
      subst idle
      cases trying
  notifies {k a m move m'} run trying := by
    cases own_does run with
    | demotes idle | drops idle | dropsLast idle =>
      subst idle
      cases trying
    | _ => rfl
  parks run := by
    cases own_does run with
    | parks a' slow => exact slow
  sleeps {a m} holds := by
    change (if m.shares = 0 then 1 else 0) = 0
    cases a with
    | exclusiveSlow intr => exact if_neg (of_decide_eq_true holds)
    | sharedClock intr old =>
      rw [show m.shares = u32Max from of_decide_eq_true holds]
      rfl
    | _ => cases holds
  one := by
    left
    intro m
    change (if m.shares = 0 then 1 else 0) ≤ 1
    split <;> decide

end BadgerOS.Mutex
