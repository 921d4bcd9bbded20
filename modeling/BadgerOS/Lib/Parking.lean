import BadgerOS.Lib.Interleaving

/-!
# Threads that park on a list

Threads share a resource. A thread that finds nothing free parks: it sets its flag,
puts a ticket at the end of a list, evaluates a condition, sleeps while its flag is
set, and takes its ticket out again. A thread that makes something free notifies
the first ticket or all of them. What the threads do outside of these calls is a
`Primitive`. A step is one operation on the resource, on a flag or on the list.

`Lawful.served` says when nothing stays free while a thread sleeps: a thread that
got a notification of its own must not give up before it has taken something or has
found that nothing is free.
-/

namespace Parking

open Interleaving Option List Bool

/-- How far a call that parks has come. -/
inductive Stage where
  | flag | push | check | sleep | unflag | remove | signal
  deriving DecidableEq, Repr

/-- Where a thread is: in code of its own, in a call that parks it and then goes on at
`back`, or at a notification. -/
inductive Place (α : Type) where
  | own (a : α)
  | park (stage : Stage) (back : α)
  | notify (next : α)
  | notifyAll (next : α)
  deriving DecidableEq, Repr

structure Thread (α : Type) where
  place : Place α
  blocked : Bool
  /-- A signal is pending. -/
  signal : Bool
  /-- A notification for one thread went to this one, and since then it has neither taken
  anything nor found that nothing is free. No code reads this. -/
  woken : Bool
  deriving DecidableEq, Repr

structure State (ρ α : Type) where
  resource : ρ
  /-- The threads whose tickets are in the list. -/
  list : List Nat
  threads : List (Thread α)
  deriving DecidableEq, Repr

/-- Where code of its own leads a thread. `leave` is giving up with an error. -/
inductive Move (α : Type) where
  | go (a : α)
  | park (back : α)
  | notify (next : α)
  | notifyAll (next : α)
  | leave (a : α)
  deriving DecidableEq, Repr

structure Primitive (ρ α κ : Type) where
  own : κ → α → ρ → Option (Move α × ρ)
  /-- The condition on which a call parks that goes on at `a`. -/
  condition : α → ρ → Bool
  interruptible : α → Bool
  /-- Where an interrupted thread goes on. -/
  interrupted : α
  /-- How many threads the resource has room for. -/
  free : ρ → Nat
  /-- The places of threads that will try again. -/
  retrying : α → Bool

inductive Event (κ : Type) where
  | own (t : Nat) (k : κ)
  /-- The next step of a call that parks or of a notification. -/
  | next (t : Nat)
  /-- Something else clears the flag, such as a timer. -/
  | unblock (t : Nat)
  | signal (t : Nat)
  | handled (t : Nat)
  deriving DecidableEq, Repr

variable {ρ α κ : Type}

/-- The thread after a step of its own. -/
def Thread.moved (p : Primitive ρ α κ) (th : Thread α) (r : ρ) : Move α → Thread α
  | .go a => { th with place := .own a, woken := th.woken && p.retrying a && decide (0 < p.free r) }
  | .park a => { th with place := .park .flag a, woken := th.woken && decide (0 < p.free r) }
  | .notify a => { th with place := .notify a, woken := false }
  | .notifyAll a => { th with place := .notifyAll a, woken := false }
  | .leave a => { th with place := .own a, woken := false }

namespace State

def set (s : State ρ α) (t : Nat) (th : Thread α) : State ρ α :=
  { s with threads := s.threads.set t th }

/-- The flags of the threads that have a ticket. -/
def unblockAll (s : State ρ α) : State ρ α :=
  { s with list := [],
           threads := s.threads.mapIdx fun t th => if t ∈ s.list then
             { th with blocked := false } else th }

end State

/-- The next step of a call that parks thread `t`. -/
def parkStep (p : Primitive ρ α κ) (s : State ρ α) (t : Nat) (th : Thread α) (a : α) :
    Stage → Option (State ρ α)
  | .flag => some (s.set t { th with place := .park .push a, blocked := true })
  | .push => some { s.set t { th with place := .park .check a } with list := s.list ++ [t] }
  | .check =>
    if p.condition a s.resource && !(p.interruptible a && th.signal) then
      some (s.set t { th with place := .park .sleep a, woken := false })
    else some (s.set t { th with place := .park .unflag a })
  | .sleep => if th.blocked then none else some (s.set t { th with place := .park .remove a })
  | .unflag => some (s.set t { th with place := .park .remove a, blocked := false })
  | .remove => some { s.set t { th with place := .park .signal a } with list := s.list.erase t }
  | .signal =>
    if p.interruptible a && th.signal then some
      (s.set t { th with place := .own p.interrupted, woken := false })
    else some (s.set t { th with place := .own a })

/-- The first ticket is taken out and its thread's flag cleared. -/
def notifyStep (s : State ρ α) (t : Nat) (th : Thread α) (a : α) : Option (State ρ α) :=
  match s.list with
  | [] => some (s.set t { th with place := .own a })
  | t' :: rest => do
    let th' ← s.threads[t']?
    some { (s.set t' { th' with blocked := false, woken := true }).set t
      { th with place := .own a } with list := rest }

def step (p : Primitive ρ α κ) : Event κ → State ρ α → Option (State ρ α)
  | .own t k, s => do
    let th ← s.threads[t]?
    match th.place with
    | .own a => do
      let (move, r) ← p.own k a s.resource
      some { s.set t (th.moved p r move) with resource := r }
    | _ => none
  | .next t, s => do
    let th ← s.threads[t]?
    match th.place with
    | .own _ => none
    | .park stage a => parkStep p s t th a stage
    | .notify a => notifyStep s t th a
    | .notifyAll a => some (s.unblockAll.set t { th with place := .own a })
  | .unblock t, s => do
    let th ← s.threads[t]?
    some (s.set t { th with blocked := false })
  | .signal t, s => do
    let th ← s.threads[t]?
    some (s.set t { th with signal := true, blocked := false })
  | .handled t, s => do
    let th ← s.threads[t]?
    some (s.set t { th with signal := false })

/-- All threads are in code of their own. -/
def start (r : ρ) (a : α) (n : Nat) : State ρ α :=
  ⟨r, [], List.replicate n ⟨.own a, false, false, false⟩⟩

/-- The thread sleeps, with its ticket in the list. -/
def Parked (s : State ρ α) (t : Nat) : Prop :=
  t ∈ s.list ∧ ∃ th a, s.threads[t]? = some th ∧ th.place = .park .sleep a ∧
    th.blocked = true

def Thread.notifying (th : Thread α) : Bool :=
  match th.place with
  | .notify _ => true
  | .notifyAll _ => true
  | _ => false

/-- The thread gives up in its next step. -/
def Leaves (p : Primitive ρ α κ) (s : State ρ α) (t : Nat) : Event κ → Prop
  | .own t' k => t' = t ∧ ∃ th a a' r, s.threads[t]? = some th ∧ th.place = .own a ∧
      p.own k a s.resource = some (.leave a', r)
  | .next t' => t' = t ∧ ∃ th a, s.threads[t]? = some th ∧ th.place = .park .signal a ∧
      p.interruptible a = true ∧ th.signal = true
  | _ => False

/-- No thread gives up that has been woken and has not found out since then what is free. -/
def Patient (p : Primitive ρ α κ) (s : State ρ α) (e : Event κ) : Prop :=
  ∀ t th, s.threads[t]? = some th → th.woken = true → ¬ Leaves p s t e

/-! ### What the resource keeps -/

variable {p : Primitive ρ α κ} {s s' : State ρ α} {stage : Stage} {e : Event κ}
  {t' slack' : Nat} {x : Thread α} {list' : List Nat} {r' : ρ}

theorem parkStep_resource {t : Nat} {th : Thread α} {a : α}
    (run : parkStep p s t th a stage = some s') : s'.resource = s.resource := by
  cases stage <;> simp only [parkStep, some.injEq] at run
  case check | signal => split at run <;> cases run <;> rfl
  case sleep =>
    split at run
    · cases run
    · cases run
      rfl
  all_goals subst run; rfl

/-- Only code of its own changes the resource. -/
theorem step_resource (run : step p e s = some s') :
    s'.resource = s.resource ∨ ∃ k a move, p.own k a s.resource = some (move, s'.resource) := by
  cases e with
  | own t k =>
    obtain ⟨th, -, run⟩ := bind_eq_some_iff.mp run
    split at run
    · obtain ⟨⟨move, r⟩, moved, run⟩ := bind_eq_some_iff.mp run
      cases run
      exact .inr ⟨k, _, move, moved⟩
    · cases run
  | next t =>
    obtain ⟨th, -, run⟩ := bind_eq_some_iff.mp run
    left
    split at run
    · cases run
    · exact parkStep_resource run
    · unfold notifyStep at run
      split at run
      · cases run
        rfl
      · obtain ⟨th', -, run⟩ := bind_eq_some_iff.mp run
        cases run
        rfl
    · cases run
      rfl
  | unblock t | signal t | handled t =>
    obtain ⟨th, -, run⟩ := bind_eq_some_iff.mp run
    cases run
    exact .inl rfl

/-! ### Nothing stays free -/

/-- The notifications that a move leads to. -/
def Move.notifications : Move α → Nat
  | .notify _ => 1
  | .notifyAll _ => 1
  | _ => 0

structure Lawful (p : Primitive ρ α κ) : Prop where
  /-- What becomes free is notified. -/
  releases : ∀ {k a r move r'}, p.own k a r = some (move, r') →
    p.free r' ≤ p.free r + move.notifications
  /-- A thread that stops trying has taken something, or nothing is free. -/
  takes : ∀ {k a r a' r'}, p.own k a r = some (.go a', r') → p.retrying a = true →
    p.retrying a' = false → p.free r' = 0 ∨ p.free r' < p.free r
  /-- A thread that is trying does not notify. -/
  notifies : ∀ {k a r move r'}, p.own k a r = some (move, r') → p.retrying a = true →
    move.notifications = 0
  parks : ∀ {k a r a' r'}, p.own k a r = some (.park a', r') → p.retrying a' = true
  sleeps : ∀ {a r}, p.condition a r = true → p.free r = 0
  /-- There is room for one at most, or threads park only when there is none. -/
  one : (∀ r, p.free r ≤ 1) ∨ ∀ {k a r a' r'}, p.own k a r = some (.park a', r') →
    p.free r' = 0

/-- The thread is at a place where its ticket is in the list. -/
def Thread.listed (th : Thread α) : Bool :=
  match th.place with
  | .park .check _ => true
  | .park .sleep _ => true
  | .park .unflag _ => true
  | .park .remove _ => true
  | _ => false

/-- The thread is in a call that parks, and its ticket is not in the list yet. -/
def Thread.entering (th : Thread α) : Bool :=
  match th.place with
  | .park .flag _ => true
  | .park .push _ => true
  | _ => false

/-- The thread will try again. -/
def Thread.waiting (p : Primitive ρ α κ) (th : Thread α) : Bool :=
  match th.place with
  | .own a => p.retrying a
  | .park _ a => p.retrying a
  | _ => false

/-- How many notifications are with a thread. -/
def Thread.share (th : Thread α) : Nat := th.notifying.toNat + th.woken.toNat

open Thread

/-- `slack` notifications more than are needed are with the threads. -/
structure Inv (p : Primitive ρ α κ) (slack : Nat) (s : State ρ α) : Prop where
  listed : ∀ {t : Nat}, t ∈ s.list → ∃ th : Thread α, s.threads[t]? = some th ∧
    th.listed = true
  nodup : s.list.Nodup
  parked : ∀ {t : Nat} {th : Thread α} {stage a}, s.threads[t]? = some th →
    th.place = .park stage a → p.retrying a = true
  woken : ∀ {t : Nat} {th : Thread α}, s.threads[t]? = some th → th.woken = true →
    th.waiting p = true
  apart : (∀ r, p.free r ≤ 1) ∨
    ∀ {t : Nat} {th : Thread α}, s.threads[t]? = some th → th.entering = true ∨
      t ∈ s.list → th.woken = false
  enough : ∀ {t : Nat}, Parked s t →
    p.free s.resource + slack ≤ (s.threads.map Thread.share).sum

section Inv

variable {slack : Nat} {t : Nat} {th th' : Thread α} {a : α}

theorem Inv.not_listed (inv : Inv p slack s) (here : s.threads[t]? = some th)
    (out : th.listed = false) : t ∉ s.list := by
  intro mem
  obtain ⟨th', here', isListed⟩ := inv.listed mem
  rw [here] at here'
  cases here'
  rw [out] at isListed
  cases isListed

theorem set_cases {ts : List (Thread α)} (there : (ts.set t th')[t']? = some x) :
    (t' = t ∧ x = th') ∨ (t' ≠ t ∧ ts[t']? = some x) := by
  rw [getElem?_set] at there
  split at there
  · rename_i eq
    split at there
    · cases there
      exact .inl ⟨eq.symm, rfl⟩
    · cases there
  · rename_i ne
    exact .inr ⟨fun eq => ne eq.symm, there⟩

section

variable (here : s.threads[t]? = some th)
include here

/-- One thread changes, and the list and the resource with it. -/
theorem Inv.change (inv : Inv p slack s)
    (others : ∀ t' ∈ list', t' ≠ t → t' ∈ s.list) (mine : t ∈ list' →
    th'.listed = true) (nodup : list'.Nodup)
    (parked : ∀ {stage a}, th'.place = .park stage a → p.retrying a = true)
    (woken : th'.woken = true → th'.waiting p = true)
    (apart : (∀ r, p.free r ≤ 1) ∨ (th'.entering = true ∨ t ∈ list' → th'.woken =
    false)) (asleep : ∀ {a}, t ∈ list' → th'.place = .park .sleep a → th'.blocked = true →
      Parked s t ∨ p.free r' + slack' = 0)
    (share : p.free s.resource + slack ≤ (s.threads.map share).sum →
      p.free r' + slack' ≤ ((s.threads.set t th').map share).sum) :
    Inv p slack' ⟨r', list', s.threads.set t th'⟩ := by
  have inside := (List.getElem?_eq_some_iff.mp here).1
  have self : (s.threads.set t th')[t]? = some th' := by simp [inside]
  have other {t' : Nat} (ne : t' ≠ t) : (s.threads.set t th')[t']? = s.threads[t']? :=
    getElem?_set_ne fun eq => ne eq.symm
  constructor
  · intro t' mem
    by_cases eq : t' = t
    · subst eq
      exact ⟨th', self, mine mem⟩
    · obtain ⟨x, there, isListed⟩ := inv.listed (others t' mem eq)
      exact ⟨x, (other eq).trans there, isListed⟩
  · exact nodup
  · intro t' x stage a there place
    rcases set_cases there with ⟨-, rfl⟩ | ⟨-, there⟩
    · exact parked place
    · exact inv.parked there place
  · intro t' x there isWoken
    rcases set_cases there with ⟨-, rfl⟩ | ⟨-, there⟩
    · exact woken isWoken
    · exact inv.woken there isWoken
  · rcases apart with one | apart
    · exact .inl one
    · rcases inv.apart with one | old
      · exact .inl one
      · right
        intro t' x there enters
        rcases set_cases there with ⟨rfl, rfl⟩ | ⟨ne, there⟩
        · exact apart enters
        · exact old there (enters.imp_right fun mem => others t' mem ne)
  · rintro t' ⟨mem, x, a, there, place, blocked⟩
    rcases set_cases there with ⟨rfl, rfl⟩ | ⟨ne, there⟩
    · rcases asleep mem place blocked with before | zero
      · exact share (inv.enough before)
      · exact Nat.le_trans (Nat.le_of_eq zero) (Nat.zero_le _)
    · exact share (inv.enough ⟨others t' mem ne, x, a, there, place, blocked⟩)

/-- The thread keeps its notifications. -/
theorem share_same (same : th'.share = th.share) :
    ((s.threads.set t th').map share).sum = (s.threads.map share).sum := by
  rw [map_set_same share here same]

/-- A thread changes outside of the list. -/
theorem Inv.outside (inv : Inv p 0 s) (out : th.listed = false)
    (parked : ∀ {stage a}, th'.place = .park stage a → p.retrying a = true)
    (woken : th'.woken = true → th'.waiting p = true)
    (apart : (∀ r, p.free r ≤ 1) ∨ (th'.entering = true → th'.woken = false))
    (share : p.free r' + th.share ≤ p.free s.resource + th'.share ∨ p.free r' = 0) :
    Inv p 0 { s.set t th' with resource := r' } := by
  have gone := inv.not_listed here out
  refine inv.change here (fun t' mem _ => mem) (fun mem => absurd mem gone) inv.nodup parked woken
    (apart.imp_right fun apart enters => apart (enters.resolve_right gone))
      (fun mem => absurd mem gone) ?_
  have sums := sum_set (y := th') Thread.share here
  omega

/-- A thread goes on in its call, and others may take tickets out. -/
theorem Inv.inside (inv : Inv p 0 s)
    (others : ∀ t' ∈ list', t' ≠ t → t' ∈ s.list) (mine : t ∈ list' →
    th'.listed = true) (nodup : list'.Nodup)
    (parked : ∀ {stage a}, th'.place = .park stage a → p.retrying a = true)
    (waits : th.woken = true → th'.waiting p = true) (woken : th'.woken = th.woken)
    (apart : th'.entering = true ∨ t ∈ list' → th.entering = true ∨ t ∈ s.list)
    (notifying : th'.notifying = th.notifying)
    (asleep : ∀ {a}, t ∈ list' → th'.place = .park .sleep a → th'.blocked = true →
      Parked s t ∨ p.free s.resource = 0) :
    Inv p 0 { s.set t th' with list := list' } := by
  refine inv.change here others mine nodup parked ?_ ?_ asleep ?_
  · rw [woken]
    exact waits
  · rcases inv.apart with one | old
    · exact .inl one
    · right
      intro enters
      rw [woken]
      exact old here (apart enters)
  · rw [share_same here (by simp only [share, woken, notifying])]
    exact id

/-- The next step of a call that parks. -/
theorem Inv.parkStep (law : Lawful p) (inv : Inv p 0 s) (place : th.place = .park stage a)
    (patient : th.woken = true → ¬ (stage = .signal ∧ p.interruptible a = true ∧
    th.signal = true)) (run : Parking.parkStep p s t th a stage = some s') : Inv p 0 s' := by
  have retrying := inv.parked here place
  have silent : th.notifying = false := by simp only [notifying, place]
  -- to another stage of the call, with the ticket put in or taken out
  have goes {stage' : Stage} {blocked : Bool} {list' : List Nat}
    (others : ∀ t' ∈ list', t' ≠ t → t' ∈ s.list)
      (mine : t ∈ list' → { th with place := .park stage' a, blocked : Thread α }.listed =
        true) (nodup : list'.Nodup)
      (apart : { th with place := .park stage' a, blocked : Thread α }.entering = true ∨
        t ∈ list' → th.entering = true ∨ t ∈ s.list)
      (asleep : t ∈ list' → stage' = .sleep → p.free s.resource = 0) :
      Inv p 0 { s.set t { th with place := .park stage' a, blocked } with list := list' } := by
    refine inv.inside here others mine nodup ?_ (fun _ => retrying) rfl apart silent.symm ?_
    · rintro stage b ⟨⟩
      exact retrying
    · rintro b mem ⟨⟩ _
      exact .inr (asleep mem rfl)
  have stays {stage' : Stage} {blocked : Bool}
      (listed : { th with place := .park stage' a, blocked : Thread α }.listed = true)
      (asleep : stage' = .sleep → p.free s.resource = 0) :
      Inv p 0 (s.set t { th with place := .park stage' a, blocked }) := by
    refine goes (fun _ mem _ => mem) (fun _ => listed) inv.nodup
      (fun enters => .inr (enters.resolve_left ?_)) fun _ => asleep
    cases stage' <;> simp_all [Thread.listed, Thread.entering]
  cases stage <;> simp only [Parking.parkStep, some.injEq] at run
  case flag =>
    subst run
    have out := inv.not_listed here (by simp only [Thread.listed, place])
    exact goes (fun _ mem _ => mem) (fun mem => absurd mem out) inv.nodup
      (fun _ => .inl (by simp only [entering, place])) nofun
  case push =>
    subst run
    have out := inv.not_listed here (by simp only [Thread.listed, place])
    refine goes ?_ (fun _ => rfl) ?_ (fun _ => .inl (by simp only [entering, place])) nofun
    · intro t' mem ne
      rcases mem_append.mp mem with old | new
      · exact old
      · exact absurd (mem_singleton.mp new) ne
    · rw [nodup_append]
      refine ⟨inv.nodup, by simp, ?_⟩
      rintro x mem y new rfl
      exact out (mem_singleton.mp new ▸ mem)
  case check =>
    split at run
    · -- the thread goes to sleep only when nothing is free
      rename_i holds
      cases run
      have none := law.sleeps (and_eq_true_iff.mp holds).1
      refine inv.change here (fun _ mem _ => mem) (fun _ => rfl) inv.nodup ?_ nofun
        (.inr fun _ => rfl) (fun _ _ _ => .inr none) fun _ => ?_
      · rintro stage b ⟨⟩
        exact retrying
      · rw [none]
        exact Nat.zero_le _
    · cases run
      exact stays rfl nofun
  case sleep =>
    split at run
    · cases run
    · cases run
      exact stays rfl nofun
  case unflag =>
    subst run
    exact stays rfl nofun
  case remove =>
    subst run
    have gone : t ∉ s.list.erase t := inv.nodup.not_mem_erase
    exact goes (fun _ mem _ => mem_of_mem_erase mem) (fun mem => absurd mem gone)
      (inv.nodup.erase t) (fun enters => absurd (enters.resolve_left nofun) gone) nofun
  case signal =>
    have out : th.listed = false := by simp only [Thread.listed, place]
    have gone := inv.not_listed here out
    split at run
    · rename_i leaves
      cases run
      have steady := eq_false_iff.mpr fun isWoken =>
        patient isWoken ⟨rfl, and_eq_true_iff.mp leaves⟩
      refine inv.outside here out (fun eq => nomatch eq) (fun eq => nomatch eq)
        (.inr fun _ => rfl) (.inl ?_)
      simp [share, notifying, place, steady]
    · cases run
      exact inv.inside here (fun _ mem _ => mem) (fun mem => absurd mem gone) inv.nodup
        (fun eq => nomatch eq)
        (fun _ => retrying) rfl (fun enters => .inr (enters.resolve_left nofun)) silent.symm
          (fun _ eq => nomatch eq)

/-- A step of a thread's own code. -/
theorem Inv.own (law : Lawful p) {k : κ} {move : Move α} (inv : Inv p 0 s)
    (place : th.place = .own a) (run : p.own k a s.resource = some (move, r'))
    (patient : th.woken = true → ∀ a', move ≠ .leave a') :
    Inv p 0 { s.set t (th.moved p r' move) with resource := r' } := by
  have out : th.listed = false := by simp only [Thread.listed, place]
  have trying (isWoken : th.woken = true) : p.retrying a = true := by
    have waits := inv.woken here isWoken
    simpa only [waiting, place] using waits
  have mine : th.share = th.woken.toNat := by simp [share, notifying, place]
  have released := law.releases run
  cases move with
  | go a' =>
    refine inv.outside here out (fun eq => nomatch eq) ?_ (.inr fun eq => nomatch eq) ?_
    · simp only [moved, waiting, and_eq_true]
      exact fun h => h.1.2
    · by_cases none : p.free r' = 0
      · exact .inr none
      · left
        rw [mine]
        simp only [share, moved, notifying, toNat_false, Nat.zero_add,
          show decide (0 < p.free r') = true from decide_eq_true (Nat.pos_of_ne_zero none),
            Bool.and_true]
        simp only [Move.notifications] at released
        cases isWoken : th.woken with
        | false => simpa using released
        | true =>
          cases goesOn : p.retrying a' with
          | true => simpa using released
          | false =>
            have taken := (law.takes run (trying isWoken) goesOn).resolve_left none
            simp only [Bool.toNat_true, Bool.and_false, Bool.toNat_false]
            omega
  | park a' =>
    have retrying := law.parks run
    refine inv.outside here out ?_ (fun _ => retrying) ?_ ?_
    · rintro stage b ⟨⟩
      exact retrying
    · rcases law.one with one | only
      · exact .inl one
      · simp [moved, only run]
    · by_cases none : p.free r' = 0
      · exact .inr none
      · rw [mine]
        simp only [share, moved, notifying, toNat_false, Nat.zero_add,
          show decide (0 < p.free r') = true from decide_eq_true (Nat.pos_of_ne_zero none),
            Bool.and_true]
        simp only [Move.notifications] at released
        omega
  | notify a' | notifyAll a' =>
    have steady := Bool.eq_false_iff.mpr fun isWoken =>
      absurd (law.notifies run (trying isWoken)) (by simp [Move.notifications])
    refine inv.outside here out (fun eq => nomatch eq) (fun eq => nomatch eq)
      (.inr fun eq => nomatch eq) (.inl ?_)
    simpa [share, moved, notifying, steady, place, Move.notifications] using released
  | leave a' =>
    have steady := eq_false_iff.mpr fun isWoken => patient isWoken a' rfl
    refine inv.outside here out (fun eq => nomatch eq) (fun eq => nomatch eq)
      (.inr fun eq => nomatch eq) (.inl ?_)
    simpa [share, moved, notifying, steady, place, Move.notifications] using released

theorem Inv.silent_of_notifying (inv : Inv p slack s)
    (notifying : th.notifying = true) : th.woken = false ∧ th.listed = false := by
  have waits : th.waiting p = false ∧ th.listed = false := by
    unfold Thread.notifying at notifying
    unfold Thread.waiting Thread.listed
    split at notifying <;> simp_all
  refine ⟨eq_false_iff.mpr fun isWoken => ?_, waits.2⟩
  rw [inv.woken here isWoken] at waits
  exact nomatch waits.1

abbrev Thread.wake (th : Thread α) : Thread α := { th with blocked := false, woken := true }

/-- The notification goes to the thread of the first ticket. -/
theorem Inv.pop {rest : List Nat} (inv : Inv p 0 s) (notifying : th.notifying = true)
    (list : s.list = t' :: rest) (there : s.threads[t']? = some th') :
    t' ≠ t ∧ Inv p 1 { s.set t' th'.wake with list := rest } := by
  have nodup := inv.nodup
  rw [list, nodup_cons] at nodup
  have mem : t' ∈ s.list := by rw [list]; exact mem_cons_self
  obtain ⟨x, there', isListed⟩ := inv.listed mem
  rw [there] at there'
  cases there'
  -- the thread of a ticket is in its call
  obtain ⟨stage, a, place⟩ : ∃ stage a, th'.place = .park stage a := by
    unfold Thread.listed at isListed
    split at isListed
    all_goals first | exact ⟨_, _, by assumption⟩ | cases isListed
  have silent : th'.notifying = false := by simp only [Thread.notifying, place]
  have ne : t' ≠ t := by
    rintro rfl
    rw [here] at there
    cases there
    rw [silent] at notifying
    cases notifying
  have mine : th.share = 1 := by
    simp [share, notifying, (inv.silent_of_notifying here notifying).1]
  refine ⟨ne, inv.change there ?_ (fun mem => absurd mem nodup.1) nodup.2
    (fun eq => inv.parked there eq) ?_ ?_ (fun mem => absurd mem nodup.1) ?_⟩
  · intro t'' mem _
    rw [list]
    exact mem_cons_of_mem t' mem
  · intro _
    simp only [waiting, place]
    exact inv.parked there place
  · rcases inv.apart with one | apart
    · exact .inl one
    · right
      rintro (enters | mem)
      · simp only [entering, place] at enters
        unfold Thread.listed at isListed
        cases stage <;> simp_all
      · exact absurd mem nodup.1
  · intro enough
    change p.free s.resource + 1 ≤ _
    have sums := sum_set (y := th'.wake) share there
    have more : th'.wake.share = 1 := by
      simp [Thread.share, Thread.notifying, place]
    rcases inv.apart with one | apart
    · -- the notifier has a notification, and so has the other thread now
      have less := one s.resource
      have first : (s.threads.set t' th'.wake)[t]? = some th := by
        rw [getElem?_set_ne ne]
        exact here
      have second : (s.threads.set t' th'.wake)[t']? =
          some th'.wake := by
        simp [(List.getElem?_eq_some_iff.mp there).1]
      have both := add_le_sum share first second ne
      omega
    · have none : th'.share = 0 := by simp [share, silent, apart there (.inr mem)]
      omega

end

/-- Without tickets nobody needs a notification. -/
theorem Inv.of_empty (inv : Inv p slack s) (empty : s.list = []) : Inv p slack' s :=
  { inv with
    enough := by
      rintro t ⟨mem, -⟩
      rw [empty] at mem
      cases mem }

/-- A notification ends. -/
theorem Inv.notified (inv : Inv p 1 s) (here : s.threads[t]? = some th)
    (notifying : th.notifying = true) : Inv p 0 (s.set t { th with place := .own a }) := by
  obtain ⟨steady, out⟩ := inv.silent_of_notifying here notifying
  have gone := inv.not_listed here out
  refine inv.change here (fun t' mem _ => mem) (fun mem => absurd mem gone) inv.nodup
    (fun eq => nomatch eq)
    (fun isWoken => nomatch steady.symm.trans isWoken) (.inr fun _ => steady)
      (fun mem => absurd mem gone) ?_
  have sums := sum_set (y := { th with place := .own a }) share here
  have mine : th.share = 1 := by simp [share, notifying, steady]
  omega

theorem unblockAll_getElem (there : s.unblockAll.threads[t']? = some x) :
    ∃ y, s.threads[t']? = some y ∧ x.place = y.place ∧ x.woken = y.woken := by
  simp only [State.unblockAll, getElem?_mapIdx, map_eq_some_iff] at there
  obtain ⟨y, there, rfl⟩ := there
  refine ⟨y, there, ?_, ?_⟩ <;> split <;> rfl

theorem Inv.unblockAll (inv : Inv p slack s) : Inv p slack s.unblockAll := by
  constructor
  · exact fun mem => absurd mem not_mem_nil
  · exact nodup_nil
  · intro t x stage b there place
    obtain ⟨y, there, samePlace, -⟩ := unblockAll_getElem there
    exact inv.parked there (samePlace ▸ place)
  · intro t x there isWoken
    obtain ⟨y, there, samePlace, sameWoken⟩ := unblockAll_getElem there
    simp only [waiting, samePlace]
    exact inv.woken there (sameWoken ▸ isWoken)
  · rcases inv.apart with one | apart
    · exact .inl one
    · right
      intro t x there enters
      obtain ⟨y, there, samePlace, sameWoken⟩ := unblockAll_getElem there
      rw [sameWoken]
      refine apart there (.inl ?_)
      have enters := enters.resolve_right not_mem_nil
      simpa only [entering, samePlace] using enters
  · exact fun asleep => absurd asleep.1 not_mem_nil

/-- A flag is cleared, or what a thread knows of signals changes. -/
theorem Inv.flags (inv : Inv p 0 s) (here : s.threads[t]? = some th) (place : th'.place = th.place)
    (woken : th'.woken = th.woken) (blocked : th'.blocked = true → th.blocked = true) :
    Inv p 0 (s.set t th') := by
  refine inv.inside here (fun _ mem _ => mem) ?_ inv.nodup ?_ ?_ woken ?_ ?_ ?_
  · intro mem
    obtain ⟨x, here', isListed⟩ := inv.listed mem
    rw [here] at here'
    cases here'
    simpa only [Thread.listed, place] using isListed
  · intro stage b eq
    exact inv.parked here (place ▸ eq)
  · intro isWoken
    simp only [waiting, place]
    exact inv.woken here isWoken
  · simp only [entering, place]
    exact id
  · simp only [notifying, place]
  · intro b mem eq isBlocked
    exact .inl ⟨mem, th, b, here, place ▸ eq, blocked isBlocked⟩

theorem Inv.step (law : Lawful p) (inv : Inv p 0 s) (patient : Patient p s e)
    (run : Parking.step p e s = some s') : Inv p 0 s' := by
  cases e with
  | own t k =>
    obtain ⟨th, here, run⟩ := bind_eq_some_iff.mp run
    split at run
    · rename_i a place
      obtain ⟨⟨move, r⟩, moved, run⟩ := bind_eq_some_iff.mp run
      cases run
      refine inv.own here law place moved fun isWoken a' leaves => ?_
      subst leaves
      exact patient t th here isWoken ⟨rfl, th, a, a', r, here, place, moved⟩
    · cases run
  | next t =>
    obtain ⟨th, here, run⟩ := bind_eq_some_iff.mp run
    split at run
    · cases run
    · rename_i stage a place
      refine inv.parkStep here law place (fun isWoken leaves => ?_) run
      obtain ⟨rfl, interruptible, signal⟩ := leaves
      exact patient t th here isWoken ⟨rfl, th, a, here, place, interruptible, signal⟩
    · rename_i a place
      have notifying : th.notifying = true := by simp only [notifying, place]
      unfold notifyStep at run
      split at run
      · rename_i empty
        cases run
        exact (inv.of_empty empty).notified here notifying
      · rename_i t' rest list
        obtain ⟨th', there, run⟩ := bind_eq_some_iff.mp run
        cases run
        obtain ⟨ne, popped⟩ := inv.pop here notifying list there
        refine popped.notified ?_ notifying
        exact (getElem?_set_ne ne).trans here
    · rename_i a place
      cases run
      have notifying : th.notifying = true := by simp only [notifying, place]
      have gone := inv.not_listed here (inv.silent_of_notifying here notifying).2
      refine (inv.unblockAll.of_empty rfl).notified ?_ notifying
      simp [State.unblockAll, here, gone]
  | unblock t | signal t =>
    obtain ⟨th, here, run⟩ := bind_eq_some_iff.mp run
    cases run
    exact inv.flags here rfl rfl nofun
  | handled t =>
    obtain ⟨th, here, run⟩ := bind_eq_some_iff.mp run
    cases run
    exact inv.flags here rfl rfl id

theorem inv_start (r : ρ) (b : α) (n : Nat) : Inv p 0 (start r b n) := by
  have first {t : Nat} {th : Thread α} (here : (start r b n).threads[t]? = some th) :
      th = ⟨.own b, false, false, false⟩ := by
    simp only [start, getElem?_replicate] at here
    split at here
    · cases here
      rfl
    · cases here
  constructor
  · exact fun mem => absurd mem not_mem_nil
  · exact nodup_nil
  · intro t th stage a here place
    rw [first here] at place
    cases place
  · intro t th here isWoken
    rw [first here] at isWoken
    cases isWoken
  · right
    intro t th here _
    rw [first here]
  · exact fun asleep => absurd asleep.1 not_mem_nil

/-- In every run in which no thread gives up that has been woken and has not found out since
then what is free: while a thread sleeps and something is free, a notification is under way. -/
theorem Lawful.served (law : Lawful p) {r : ρ} {b : α} {n : Nat}
    (reached : Reaches (Parking.step p) (Patient p) (start r b n) s) (asleep : Parked s t)
    (free : 0 < p.free s.resource) :
    ∃ (t' : Nat) (th : Thread α), s.threads[t']? = some th ∧
      (th.notifying = true ∨ th.woken = true) := by
  have inv := reached.invariant (inv_start r b n) fun patient inv run => inv.step law patient run
  have some_share := Nat.lt_of_lt_of_le free (inv.enough asleep)
  obtain ⟨t', th, here, positive⟩ := exists_of_sum_pos share some_share
  refine ⟨t', th, here, ?_⟩
  cases notifying : th.notifying with
  | true => exact .inl rfl
  | false =>
    right
    cases woken : th.woken with
    | true => rfl
    | false => simp [share, notifying, woken] at positive

/-- What code of its own keeps of the resource, every run keeps. -/
theorem resource_invariant {allowed : State ρ α → Event κ → Prop} {I : ρ → Prop}
    {s₀ : State ρ α}
    (reached : Reaches (Parking.step p) allowed s₀ s) (init : I s₀.resource)
    (keeps : ∀ {s : State ρ α} {e k a move r'}, allowed s e → I s.resource →
      p.own k a s.resource = some (move, r') → I r') : I s.resource := by
  refine reached.invariant (I := fun s => I s.resource) init fun ok inv run => ?_
  rcases step_resource run with same | ⟨k, a, move, moved⟩
  · rw [same]
    exact inv
  · exact keeps ok inv moved

end Inv

end Parking
