import BadgerOS.Lib.Interleaving

/-!
# The waitlist

`Waitlist` of `kcore/sync/waitlist.rs`, for any number of threads and lists. A step
is one operation on a flag, one list operation under the spinlock, one evaluation of
a condition or one switch of context. A condition may give anything at any time. A
notifier keeps the lock of the list from its list operation to its last flag.
-/

namespace BadgerOS.Waitlist

open Interleaving Option

/-- `WaitingTicket`: the thread, and which of its calls of `block_impl` has it on its
stack. -/
structure Ticket where
  thread : Nat
  call : Nat
  deriving DecidableEq, Repr

inductive Pc where
  | idle
  /-- In `block_impl`, at the setting of `BLOCKED`. -/
  | flag (list : Nat)
  | push (list : Nat)
  | check (list : Nat)
  /-- The condition was true: at `thread_yield`. -/
  | yield (list : Nat)
  /-- The condition was false: at the clearing of `BLOCKED`. -/
  | unflag (list : Nat)
  | remove (list : Nat)
  /-- In `notify_all` (`all`) or `notify`, at the lock. -/
  | enter (list : Nat) (all : Bool)
  /-- In the loop of `notify_all`. -/
  | each (list : Nat) (todo : List Ticket)
  /-- In `notify`, with the ticket that it took out. -/
  | wake (list : Nat) (ticket : Ticket)
  /-- The notification is done; `first` is the ticket that `notify` took out. -/
  | finished (all : Bool) (first : Option Ticket)
  deriving DecidableEq, Repr

structure Thread where
  pc : Pc
  blocked : Bool
  /-- How many calls of `block_impl` there have been. -/
  call : Nat
  /-- The calls whose condition had been true on the list when this thread last changed
  what the conditions of the list read. No code reads this. -/
  watch : Nat → Option Nat

/-- `Spinlock<IntrusiveList<WaitingTicket>>`. -/
structure Queue where
  /-- The notifier that has the lock between two steps. -/
  lock : Option Nat
  tickets : List Ticket
  /-- The ticket that this notifier has taken out. No code reads this. -/
  popped : Option Ticket

structure State where
  threads : Nat → Thread
  lists : Nat → Queue

namespace State

variable (s : State)

def setThread (t : Nat) (th : Thread) : State :=
  { s with threads := fun t' => if t' = t then th else s.threads t' }

def setPc (t : Nat) (pc : Pc) : State := s.setThread t { s.threads t with pc := pc }

def setQueue (l : Nat) (q : Queue) : State :=
  { s with lists := fun l' => if l' = l then q else s.lists l' }

/-- `flags.fetch_and(!tflags::BLOCKED)`. -/
def unblock (t : Nat) : State := s.setThread t { s.threads t with blocked := false }

def ticket (t : Nat) : Ticket := ⟨t, (s.threads t).call⟩

/-- The calls of which the condition on a list has been true. -/
def checked (l : Nat) (t : Nat) : Option Nat :=
  match (s.threads t).pc with
  | .yield l' => if l' = l then some (s.threads t).call else none
  | .remove l' => if l' = l then some (s.threads t).call else none
  | _ => none

end State

inductive Event where
  /-- Thread `t` calls `block` or `unintr_block`. -/
  | block (t l : Nat)
  /-- Thread `t` changes what the conditions read, and then calls `notify_all` or `notify`. -/
  | change (t l : Nat) (all : Bool)
  /-- The next step of thread `t`; `condition` is what a condition gives. -/
  | next (t : Nat) (condition : Bool)
  /-- The scheduler, on a timeout, or a signal clears `BLOCKED`. -/
  | unblock (t : Nat)
  deriving DecidableEq, Repr

def next (s : State) (t : Nat) (condition : Bool) : Pc → Option State
  | .idle => none
  | .flag l => some (s.setThread t { s.threads t with pc := .push l, blocked := true })
  | .push l =>
    if (s.lists l).lock = none then
      some ((s.setPc t (.check l)).setQueue l
        { s.lists l with tickets := (s.lists l).tickets ++ [s.ticket t] })
    else none
  | .check l => some (s.setPc t (if condition then .yield l else .unflag l))
  | .yield l => if (s.threads t).blocked then none else some (s.setPc t (.remove l))
  | .unflag l => some (s.setThread t { s.threads t with pc := .remove l, blocked := false })
  | .remove l =>
    -- `try_remove`
    if (s.lists l).lock = none then
      some ((s.setPc t .idle).setQueue l
        { s.lists l with tickets := (s.lists l).tickets.erase (s.ticket t) })
    else none
  | .enter l all =>
    if (s.lists l).lock = none then
      if all then
        some
          ((s.setPc t (.each l (s.lists l).tickets)).setQueue l { s.lists l with lock := some t })
      else match (s.lists l).tickets with
        | [] => some (s.setPc t (.finished false none))
        | ticket :: rest =>
          some ((s.setPc t (.wake l ticket)).setQueue l ⟨some t, rest, some ticket⟩)
    else none
  | .each l (ticket :: rest) => some ((s.unblock ticket.thread).setPc t (.each l rest))
  | .each l [] => some ((s.setPc t (.finished true none)).setQueue l ⟨none, [], none⟩)
  | .wake l ticket =>
    some (((s.unblock ticket.thread).setPc t (.finished false (some ticket))).setQueue l
      { s.lists l with lock := none, popped := none })
  | .finished _ _ => some (s.setPc t .idle)

def step : Event → State → Option State
  | .block t l, s =>
    if (s.threads t).pc = .idle then
      some (s.setThread t { s.threads t with pc := .flag l, call := (s.threads t).call + 1 })
    else none
  | .change t l all, s =>
    if (s.threads t).pc = .idle then
      some (s.setThread t { s.threads t with pc := .enter l all, watch := s.checked l })
    else none
  | .next t condition, s => next s t condition (s.threads t).pc
  | .unblock t, s => some (s.unblock t)

def start : State :=
  ⟨fun _ => ⟨.idle, false, 0, fun _ => none⟩, fun _ => ⟨none, [], none⟩⟩

/-- The list on which a thread is in a call of `block_impl`. -/
@[grind =]
def Pc.call : Pc → Option Nat
  | .flag l | .push l | .check l | .yield l | .unflag l | .remove l => some l
  | .idle | .enter _ _ | .each _ _ | .wake _ _ | .finished _ _ => none

/-- The list in which the ticket of a call may be. -/
@[grind =]
def Pc.listed : Pc → Option Nat
  | .check l | .yield l | .unflag l | .remove l => some l
  | .idle | .flag _ | .push _ | .enter _ _ | .each _ _ | .wake _ _ | .finished _ _ => none

/-- The list of which a notifier has the lock. -/
@[grind =]
def Pc.holds : Pc → Option Nat
  | .each l _ | .wake l _ => some l
  | .idle | .flag _ | .push _ | .check _ | .yield _ | .unflag _ | .remove _ | .enter _
    _ | .finished _ _ => none

/-- The call has returned. -/
def State.Left (s : State) (t c : Nat) : Prop :=
  (s.threads t).call ≠ c ∨ (s.threads t).pc.call = none

/-- The tickets that a notifier dereferences in its next step. -/
def State.Derefs (s : State) (n : Nat) (k : Ticket) : Prop :=
  match (s.threads n).pc with
  | .enter l _ => k ∈ (s.lists l).tickets
  | .each l todo => k ∈ todo ∨ k ∈ (s.lists l).tickets
  | .wake _ ticket => k = ticket
  | _ => False

/-! ### What a step does -/

/-- The steps that change nothing but the thread that takes them. -/
inductive Moves (checked : Nat → Nat → Option Nat) (th : Thread) : Thread → Prop where
  | block (l : Nat) (from_ : th.pc = .idle) :
    Moves checked th { th with pc := .flag l, call := th.call + 1 }
  | change (l : Nat) (all : Bool) (from_ : th.pc = .idle) :
      Moves checked th { th with pc := .enter l all, watch := checked l }
  | flag (l : Nat) (from_ : th.pc = .flag l) :
    Moves checked th { th with pc := .push l, blocked := true }
  | asleep (l : Nat) (from_ : th.pc = .check l) : Moves checked th { th with pc := .yield l }
  | awake (l : Nat) (from_ : th.pc = .check l) : Moves checked th { th with pc := .unflag l }
  | yield (l : Nat) (from_ : th.pc = .yield l) (clear : th.blocked = false) :
    Moves checked th { th with pc := .remove l }
  | unflag (l : Nat) (from_ : th.pc = .unflag l) :
    Moves checked th { th with pc := .remove l, blocked := false }
  | nobody (l : Nat) (from_ : th.pc = .enter l false) :
    Moves checked th { th with pc := .finished false none }
  | finished (all : Bool) (first : Option Ticket) (from_ : th.pc = .finished all first) :
      Moves checked th { th with pc := .idle }

inductive Stepped (s : State) : State → Prop where
  | own (t : Nat) (th : Thread) (moves : Moves s.checked (s.threads t) th) :
    Stepped s (s.setThread t th)
  | push (t l : Nat) (from_ : (s.threads t).pc = .push l) (free : (s.lists l).lock = none) :
      Stepped s ((s.setPc t (.check l)).setQueue l
        { s.lists l with tickets := (s.lists l).tickets ++ [s.ticket t] })
  | remove (t l : Nat) (from_ : (s.threads t).pc = .remove l) (free : (s.lists l).lock = none) :
      Stepped s ((s.setPc t .idle).setQueue l
        { s.lists l with tickets := (s.lists l).tickets.erase (s.ticket t) })
  | enterAll (t l : Nat) (from_ : (s.threads t).pc = .enter l true)
    (free : (s.lists l).lock = none) :
      Stepped s
        ((s.setPc t (.each l (s.lists l).tickets)).setQueue l { s.lists l with lock := some t })
  | pop (t l : Nat) (k : Ticket) (rest : List Ticket) (from_ : (s.threads t).pc = .enter l false)
      (free : (s.lists l).lock = none) (first : (s.lists l).tickets = k :: rest) :
      Stepped s ((s.setPc t (.wake l k)).setQueue l ⟨some t, rest, some k⟩)
  | each (t l : Nat) (k : Ticket) (rest : List Ticket)
    (from_ : (s.threads t).pc = .each l (k :: rest)) :
      Stepped s ((s.unblock k.thread).setPc t (.each l rest))
  | clear (t l : Nat) (from_ : (s.threads t).pc = .each l []) :
      Stepped s ((s.setPc t (.finished true none)).setQueue l ⟨none, [], none⟩)
  | wake (t l : Nat) (k : Ticket) (from_ : (s.threads t).pc = .wake l k) :
      Stepped s (((s.unblock k.thread).setPc t (.finished false (some k))).setQueue l
        { s.lists l with lock := none, popped := none })
  | unblock (t : Nat) : Stepped s (s.unblock t)

variable {s s' : State} {t c : Nat} {pc : Pc}

theorem next_stepped {condition : Bool} (from_ : (s.threads t).pc = pc)
    (run : next s t condition pc = some s') : Stepped s s' := by
  cases pc with
  | idle => cases run
  | flag l =>
    cases run
    exact .own t _ (.flag l from_)
  | push l =>
    obtain ⟨free, eq⟩ := ite_none_right_eq_some.mp run
    cases eq
    exact .push t l from_ free
  | check l =>
    cases run
    cases condition
    · exact .own t _ (.awake l from_)
    · exact .own t _ (.asleep l from_)
  | yield l =>
    obtain ⟨clear, eq⟩ := ite_none_left_eq_some.mp run
    cases eq
    exact .own t _ (.yield l from_ (Bool.eq_false_iff.mpr clear))
  | unflag l =>
    cases run
    exact .own t _ (.unflag l from_)
  | remove l =>
    obtain ⟨free, eq⟩ := ite_none_right_eq_some.mp run
    cases eq
    exact .remove t l from_ free
  | enter l all =>
    obtain ⟨free, eq⟩ := ite_none_right_eq_some.mp run
    cases all with
    | true =>
      cases eq
      exact .enterAll t l from_ free
    | false =>
      simp only [Bool.false_eq_true, ↓reduceIte] at eq
      split at eq
      · cases eq
        exact .own t _ (.nobody l from_)
      · rename_i first
        cases eq
        exact .pop t l _ _ from_ free first
  | each l todo =>
    cases todo with
    | nil =>
      cases run
      exact .clear t l from_
    | cons k rest =>
      cases run
      exact .each t l k rest from_
  | wake l k =>
    cases run
    exact .wake t l k from_
  | finished all first =>
    cases run
    exact .own t _ (.finished all first from_)

theorem stepped {e : Event} (run : step e s = some s') : Stepped s s' := by
  cases e with
  | block t l =>
    obtain ⟨idle, eq⟩ := ite_none_right_eq_some.mp run
    cases eq
    exact .own t _ (.block l idle)
  | change t l all =>
    obtain ⟨idle, eq⟩ := ite_none_right_eq_some.mp run
    cases eq
    exact .own t _ (.change l all idle)
  | next t condition => exact next_stepped rfl run
  | unblock t =>
    cases run
    exact .unblock t

@[simp, grind =]
theorem threads_setThread (s : State) (t t' : Nat) (th : Thread) :
    (s.setThread t th).threads t' = if t' = t then th else s.threads t' := rfl

@[simp, grind =]
theorem lists_setThread (s : State) (t l : Nat) (th : Thread) :
    (s.setThread t th).lists l = s.lists l := rfl

@[simp, grind =]
theorem threads_setQueue (s : State) (l t : Nat) (q : Queue) :
    (s.setQueue l q).threads t = s.threads t := rfl

@[simp, grind =]
theorem lists_setQueue (s : State) (l l' : Nat) (q : Queue) :
    (s.setQueue l q).lists l' = if l' = l then q else s.lists l' := rfl

attribute [grind =] State.setPc State.unblock

/-! ### The lock and the tickets -/

section Invariants

variable {checked : Nat → Nat → Option Nat} {th th' : Thread} {l : Nat}

/-- A notifier moves on its own only when it has no lock. -/
theorem Moves.holds (moves : Moves checked th th') : th.pc.holds = none ∧
    th'.pc.holds = none := by
  cases moves <;> simp_all [Pc.holds]

/-- A thread whose ticket is in a list leaves it there, and does not set its flag. -/
theorem Moves.listed (moves : Moves checked th th') (listed : th.pc.listed = some l) :
    th'.pc.listed = some l ∧ th'.call = th.call ∧
      (th'.blocked = true → th.blocked = true) := by
  cases moves <;> simp_all [Pc.listed]

def Held (s : State) : Prop := ∀ l n, (s.lists l).lock = some n ↔
    (s.threads n).pc.holds = some l

theorem Held.step (held : Held s) (did : Stepped s s') : Held s' := by
  intro l' n
  have old := held l' n
  cases did with
  | own t th moves =>
    have := moves.holds
    grind
  | clear t l from_ | wake t l k from_ =>
    have mine := held l t
    grind
  | _ => grind

/-- What a notifier has taken out, it has under the lock. -/
structure Popped (s : State) : Prop where
  free : ∀ l, (s.lists l).lock = none → (s.lists l).popped = none
  wake : ∀ l n k, (s.threads n).pc = .wake l k → (s.lists l).popped = some k
  each : ∀ l n ks, (s.threads n).pc = .each l ks → (s.lists l).popped = none

theorem Popped.step (held : Held s) (inv : Popped s) (did : Stepped s s') : Popped s' := by
  constructor
  · intro l'
    have old := inv.free l'
    cases did with
    | _ => grind
  · intro l' n k'
    have old := inv.wake l' n k'
    have has := held l' n
    cases did with
    | own t th moves =>
      have := moves.holds
      grind
    | clear t l from_ | wake t l k from_ =>
      have := held l t
      grind
    | _ => grind
  · intro l' n ks
    have old := inv.each l' n ks
    have has := held l' n
    cases did with
    | own t th moves =>
      have := moves.holds
      grind
    | enterAll t l from_ free =>
      have := inv.free l free
      grind
    | each t l k rest from_ =>
      have := inv.each l t (k :: rest) from_
      grind
    | _ => grind

/-- The ticket is one of a call on `l` that has not returned. -/
@[grind =]
def State.Waits (s : State) (l : Nat) (k : Ticket) : Prop :=
  (s.threads k.thread).call = k.call ∧ (s.threads k.thread).pc.listed = some l

theorem ticket_eq (s : State) (k : Ticket) (call : (s.threads k.thread).call = k.call) :
    k = s.ticket k.thread := by
  rw [State.ticket, call]

def Tickets (s : State) : Prop :=
  (∀ l, (s.lists l).tickets.Nodup) ∧ ∀ l k, k ∈ (s.lists l).tickets ∨
    (s.lists l).popped = some k → s.Waits l k

theorem Tickets.step (popped : Popped s) (inv : Tickets s) (did : Stepped s s') : Tickets s' := by
  obtain ⟨nodup, waits⟩ := inv
  constructor
  · cases did with
    | push t l from_ free =>
      grind [State.ticket]
    | _ => grind
  · intro l' k'
    have old := waits l' k'
    cases did with
    | own t th moves =>
      have := fun listed => moves.listed (l := l') listed
      grind
    | remove t l from_ free =>
      have := popped.free l free
      have mine := ticket_eq s k'
      grind
    | _ => grind [State.ticket]

/-- What the loop of `notify_all` has still to do, and what it has done. -/
def Looping (s : State) : Prop :=
  ∀ n l ks k, (s.threads n).pc = .each l ks → (k ∈ ks → k ∈ (s.lists l).tickets) ∧
    (k ∈ (s.lists l).tickets → k ∈ ks ∨ (s.threads k.thread).blocked = false)

theorem Looping.step (held : Held s) (tickets : Tickets s) (inv : Looping s) (did : Stepped s s') :
    Looping s' := by
  intro n l' ks k'
  have old := inv n l' ks k'
  have has := held l' n
  cases did with
  | own t th moves =>
    have := moves.holds
    have waits := tickets.2 l' k'
    have := fun listed => moves.listed (l := l') listed
    grind
  | each t l k rest from_ =>
    have := inv t l (k :: rest) k'
    grind
  | clear t l from_ =>
    have := held l t
    grind
  | wake t l k from_ =>
    grind
  | _ => grind

/-- A thread with its flag set has its ticket in the list or with a notifier, and its
flag is clear once it takes its ticket out. -/
def Flags (s : State) : Prop :=
  (∀ t l, (s.threads t).pc = .check l ∨ (s.threads t).pc = .yield l → (s.threads t).blocked =
    true → s.ticket t ∈ (s.lists l).tickets ∨ (s.lists l).popped = some (s.ticket t)) ∧
  ∀ t l, (s.threads t).pc = .remove l → (s.threads t).blocked = false

theorem Moves.flags (moves : Moves checked th th') (flag : th'.pc = .check l ∨ th'.pc = .yield l)
    (blocked : th'.blocked = true) : th.pc = .check l ∧ th'.call = th.call ∧
    th.blocked = true := by
  cases moves <;> simp_all

theorem Moves.clear (moves : Moves checked th th') (remove : th'.pc = .remove l) :
    th'.blocked = false := by
  cases moves <;> simp_all

theorem Flags.step (popped : Popped s) (looping : Looping s) (inv : Flags s) (did : Stepped s s') :
    Flags s' := by
  obtain ⟨flag, clear⟩ := inv
  constructor
  · intro t' l'
    cases did with
    | own t th moves =>
      have := fun flag blocked => moves.flags (l := l') flag blocked
      grind [State.ticket]
    | push t l from_ free => grind [State.ticket]
    | remove t l from_ free => grind [State.ticket]
    | enterAll t l from_ free => grind [State.ticket]
    | pop t l k rest from_ free first =>
      have := popped.free l free
      grind [State.ticket]
    | each t l k rest from_ => grind [State.ticket]
    | clear t l from_ =>
      -- all tickets of the list have been seen
      have seen := (looping t l [] (s.ticket t') from_).2
      have := popped.each l t [] from_
      grind [State.ticket]
    | wake t l k from_ =>
      have := popped.wake l t k from_
      grind [State.ticket]
    | unblock t => grind [State.ticket]
  · intro t' l'
    cases did with
    | own t th moves =>
      have := fun remove => moves.clear (l := l') remove
      grind
    | _ => grind

/-! ### What a notification owes -/

/-- The call with this number is over, or it is past its condition with its flag clear. -/
@[grind =]
def Thread.Served (th : Thread) (c : Nat) : Prop :=
  c < th.call ∨ th.call = c ∧
    (th.pc.call = none ∨ th.blocked = false ∧ ∃ l, th.pc = .yield l ∨ th.pc = .remove l)

@[grind =]
def Thread.Asleep (th : Thread) (l c : Nat) : Prop := th.call = c ∧ th.blocked = true ∧
    th.pc = .yield l

/-- What is to hold of a call that sleeps on `l` when its notifier is at this point. -/
@[grind =]
def Pc.Owes (k : Ticket) (l : Nat) : Pc → Prop
  | .enter l' _ => l' = l
  | .each l' _ => l' = l
  | .finished all first => all = false ∧ first ≠ some k
  | .idle | .flag _ | .push _ | .check _ | .yield _ | .unflag _ | .remove _ | .wake _ _ => True

def Watched (s : State) : Prop :=
  ∀ n t c, (s.threads n).watch t = some c →
    (s.threads t).Served c ∨ ∃ l, (s.threads t).Asleep l c ∧
      (s.threads n).pc.Owes ⟨t, c⟩ l

theorem Moves.served (moves : Moves checked th th') (served : th.Served c) : th'.Served c := by
  cases moves <;> grind

theorem Moves.asleep_false (moves : Moves checked th th') (asleep : th.Asleep l c) : False := by
  cases moves <;> grind

theorem Stepped.served (did : Stepped s s') (served : (s.threads t).Served c) :
    (s'.threads t).Served c := by
  cases did with
  | own t' th moves =>
    by_cases eq : t = t'
    · subst eq
      simpa using moves.served served
    · simpa [eq] using served
  | _ => grind

/-- A call that sleeps sleeps on, or something has cleared its flag. -/
theorem Stepped.asleep (did : Stepped s s') (asleep : (s.threads t).Asleep l c) :
    (s'.threads t).Asleep l c ∨ (s'.threads t).Served c := by
  cases did with
  | own t' th moves =>
    by_cases eq : t = t'
    · subst eq
      exact (moves.asleep_false asleep).elim
    · exact .inl (by simpa [eq] using asleep)
  | _ => grind

/-- A thread that goes on by itself owes nothing, except for what it has just changed. -/
theorem Moves.owes (moves : Moves checked th th') :
    (th'.watch = th.watch ∧ ∀ k l, th'.pc.Owes k l) ∨
      ∃ l all, th.pc = .idle ∧ th'.pc = .enter l all ∧ th'.watch = checked l := by
  cases moves <;> grind

theorem checked_cases (flags : Flags s) (checked : s.checked l t = some c) :
    (s.threads t).Served c ∨ (s.threads t).Asleep l c := by
  unfold State.checked at checked
  split at checked
  · rename_i l' from_
    obtain ⟨rfl, eq⟩ := ite_none_right_eq_some.mp checked
    cases eq
    cases blocked : (s.threads t).blocked with
    | true => exact .inr ⟨rfl, blocked, from_⟩
    | false => exact .inl (.inr ⟨rfl, .inr ⟨blocked, _, .inl from_⟩⟩)
  · rename_i l' from_
    obtain ⟨rfl, eq⟩ := ite_none_right_eq_some.mp checked
    cases eq
    exact .inl (.inr ⟨rfl, .inr ⟨flags.2 t _ from_, _, .inr from_⟩⟩)
  · cases checked

/-- A notifier has just changed something, or it owes what it owed before. -/
theorem Stepped.watch (did : Stepped s s') (popped : Popped s) (looping : Looping s)
    (flags : Flags s) {n : Nat} (watch' : (s'.threads n).watch t = some c) :
    (∃ l all, s.checked l t = some c ∧ (s'.threads n).pc = .enter l all) ∨
      ((s.threads n).watch t = some c ∧ ∀ l, (s.threads t).Asleep l c → (s'.threads t).Asleep
        l c → (s.threads n).pc.Owes ⟨t, c⟩ l → (s'.threads n).pc.Owes ⟨t, c⟩ l) := by
  cases did with
  | own t' th moves =>
    by_cases eq : n = t'
    · subst eq
      simp only [threads_setThread, ↓reduceIte] at watch' ⊢
      rcases moves.owes with ⟨same, none⟩ | ⟨l, all, -, enter, watch⟩
      · exact .inr ⟨same ▸ watch', fun l _ _ _ => none _ l⟩
      · exact .inl ⟨l, all, watch ▸ watch', enter⟩
    · simp only [threads_setThread, eq, ↓reduceIte] at watch' ⊢
      exact .inr ⟨watch', fun _ _ _ owed => owed⟩
  | clear t' l' from_ =>
    -- the loop is over, and a sleeper would have been in the list
    have seen := (looping t' l' [] (s.ticket t) from_).2
    have listed := flags.1 t l'
    have := popped.each l' t' [] from_
    grind [State.ticket]
  | _ => grind

theorem Watched.step (popped : Popped s) (looping : Looping s) (flags : Flags s) (inv : Watched s)
    (did : Stepped s s') : Watched s' := by
  intro n t c watch'
  rcases did.watch popped looping flags watch' with ⟨l, all, checked, enter⟩ | ⟨watch, owes⟩
  · rcases checked_cases flags checked with served | asleep
    · exact .inl (did.served served)
    · rcases did.asleep asleep with still | served
      · exact .inr ⟨l, still, by rw [enter]; rfl⟩
      · exact .inl served
  · rcases inv n t c watch with served | ⟨l, asleep, owed⟩
    · exact .inl (did.served served)
    · rcases did.asleep asleep with still | served
      · exact .inr ⟨l, still, owes l asleep still owed⟩
      · exact .inl served

theorem listed_call (listed : pc.listed = some l) : pc.call = some l := by
  cases pc <;> simp_all [Pc.listed, Pc.call]

structure Inv (s : State) : Prop where
  held : Held s
  popped : Popped s
  tickets : Tickets s
  looping : Looping s
  flags : Flags s
  watched : Watched s

theorem Inv.step (inv : Inv s) (did : Stepped s s') : Inv s' where
  held := inv.held.step did
  popped := inv.popped.step inv.held did
  tickets := inv.tickets.step inv.popped did
  looping := inv.looping.step inv.held inv.tickets did
  flags := inv.flags.step inv.popped inv.looping did
  watched := inv.watched.step inv.popped inv.looping inv.flags did

theorem inv_start : Inv start where
  held l n := by simp [start, Pc.holds]
  popped := by constructor <;> simp [start]
  tickets := by constructor <;> simp [start]
  looping n l ks k from_ := by cases from_
  flags := by constructor <;> simp [start]
  watched n t c watch := by cases watch

end Invariants

theorem wake_up_not_lost {s : State} (reached : Reaches step (fun _ _ => True) start s) :
    (∀ n all first t c, (s.threads n).pc = .finished all first →
      (s.threads n).watch t = some c →
      all = true ∨ first = some ⟨t, c⟩ → (s.threads t).blocked = false ∨ s.Left t c) ∧
    (∀ n k, s.Derefs n k → ¬ s.Left k.thread k.call) ∧
    (∀ t, (s.threads t).pc.call = none → ∀ l, ∀ k ∈ (s.lists l).tickets,
      k.thread ≠ t) := by
  have inv : Inv s := reached.invariant inv_start fun _ inv run => inv.step (stepped run)
  have alive {l : Nat} {k : Ticket} (waits : s.Waits l k) : ¬ s.Left k.thread k.call := by
    rintro (other | left)
    · exact other waits.1
    · rw [listed_call waits.2] at left
      cases left
  refine ⟨?_, ?_, ?_⟩
  · intro n all first t c finished watch owed
    rcases inv.watched n t c watch with served | ⟨l, asleep, owes⟩
    · grind [State.Left]
    · grind
  · intro n k derefs
    unfold State.Derefs at derefs
    split at derefs
    · exact alive (inv.tickets.2 _ k (.inl derefs))
    · rename_i l todo from_
      have mem := derefs.elim ((inv.looping n l todo k from_).1) id
      exact alive (inv.tickets.2 l k (.inl mem))
    · rename_i l ticket from_
      subst derefs
      exact alive (inv.tickets.2 l k (.inr (inv.popped.wake l n k from_)))
    · exact derefs.elim
  · rintro t left l k mem rfl
    exact alive (inv.tickets.2 l k (.inl mem)) (.inr left)

/-- Thread 0 sleeps on a list, and thread 1 notifies all threads of the list. -/
theorem wake_up_not_lost_one : ∃ s, Reaches step (fun _ _ => True) start s ∧
    (s.threads 1).pc = .finished true none ∧ (s.threads 1).watch 0 = some 1 ∧
    ((s.threads 0).blocked = false ∨ s.Left 0 1) := by
  obtain ⟨s, reached, finished, watch⟩ : ∃ s, Reaches step (fun _ _ => True) start s ∧
      (s.threads 1).pc = .finished true none ∧ (s.threads 1).watch 0 = some 1 :=
    exists_of_run [.block 0 0, .next 0 true, .next 0 true, .next 0 true, .change 1 0 true,
      .next 1 true, .next 1 true, .next 1 true] (by decide +kernel)
  exact ⟨s, reached, finished, watch, (wake_up_not_lost reached).1 1 true none 0 1 finished watch
    (.inl rfl)⟩

end BadgerOS.Waitlist
