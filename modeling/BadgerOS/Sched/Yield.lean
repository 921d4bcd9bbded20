import BadgerOS.Lib.Interleaving

/-!
# The scheduler

`sched_yield`, `idle_func`, `exec` and `Thread::new` of `kcore/sched/mod.rs` with the
round-robin queue of `kcore/sched/rr.rs`, on any number of CPUs. A step is one
acquisition or release of a queue's lock, one operation on a queue, on an idle slot or
on `ZOMBIES`, a change of flags, or a context switch. What a CPU does to its own data in
between goes with the next of these. `panic` is a failed `unwrap`.
-/

namespace BadgerOS.Sched

open Function

/-- Who called `choose_thread`: `sched_yield` after `old` was put away, or the idle
thread with the lock of another CPU's queue. -/
inductive Caller where
  | yield (old : Option Nat)
  | steal (victim : Nat)
  deriving DecidableEq, Repr

/-- The next step of a CPU. -/
inductive Pc where
  /-- The current thread runs, or what runs before `exec`. -/
  | run
  | yieldLock (old : Option Nat)
  | yieldReturn (old : Option Nat)
  /-- In `choose_thread`, with so many rounds to go. -/
  | choose (by_ : Caller) (rounds : Nat)
  | inspect (by_ : Caller) (rounds node : Nat)
  | zombie (by_ : Caller) (rounds node : Nat)
  | wakeReaper (by_ : Caller) (rounds : Nat)
  | pushBack (by_ : Caller) (rounds node : Nat)
  | takeIdle (old : Option Nat)
  | switch (old : Option Nat) (next : Nat)
  /-- The thread that goes on releases the lock. -/
  | yieldUnlock
  | stealLock (victim : Nat)
  | stealOwnLock (victim thread : Nat)
  | stealAdd (victim thread : Nat)
  | stealOwnUnlock (victim : Nat)
  | stealUnlock (victim : Nat)
  | createLock
  | createAdd
  | createUnlock
  | panic
  deriving DecidableEq, Repr

/-- Where a thread is. -/
inductive Place where
  | queue (c : Nat)
  | idle (c : Nat)
  | current (c : Nat)
  /-- A CPU has it in its hands. -/
  | held (c : Nat)
  deriving DecidableEq, Repr

structure State where
  -- of each CPU
  pc : Nat → Pc
  current : Nat → Option Nat
  idle : Nat → Option Nat
  queue : Nat → List Nat
  /-- The CPU that has the lock of the queue. -/
  lock : Nat → Option Nat
  -- of each thread
  stopped : Nat → Bool
  blocked : Nat → Bool
  zombies : List Nat
  /-- What the reaper has taken out of `ZOMBIES`. -/
  reaping : List Nat
  /-- Threads are numbered as they are created. -/
  created : Nat
  -- History: the thread whose context is in the registers of a CPU, where a thread was
  -- put last (nowhere if it went to `ZOMBIES`), and how often it went there.
  registers : Nat → Option Nat
  place : Nat → Option Place
  entered : Nat → Nat

/-- The idle thread of a CPU, its up-reporter, and the reaper. -/
def idleThread (c : Nat) : Nat := c
def upReporter (n c : Nat) : Nat := n + c
def reaper (n : Nat) : Nat := 2 * n

namespace State

/-- The node of a thread is in a list, so that a push fails. -/
def inList (n : Nat) (s : State) (t : Nat) : Bool :=
  (List.range n).any (fun c => (s.queue c).contains t) || s.zombies.contains t ||
    s.reaping.contains t

def goTo (s : State) (c : Nat) (pc : Pc) : State := { s with pc := update s.pc c pc }

def acquire (s : State) (c v : Nat) (pc : Pc) : Option State :=
  match s.lock v with
  | none => some { s.goTo c pc with lock := update s.lock v (some c) }
  | some _ => none

def release (s : State) (c v : Nat) (pc : Pc) : State :=
  { s.goTo c pc with lock := update s.lock v none }

/-- `queue.push_back(t).unwrap()`. -/
def push (n : Nat) (s : State) (c v t : Nat) (pc : Pc) : State :=
  if s.inList n t then s.goTo c .panic
  else { s.goTo c pc with
    queue := update s.queue v (s.queue v ++ [t])
    place := update s.place t (some (.queue v)) }

end State

/-- Whose queue it is. -/
def Caller.target (c : Nat) : Caller → Nat
  | .yield _ => c
  | .steal victim => victim

/-- `choose_thread` returns a thread. -/
def Caller.found (t : Nat) : Caller → Pc
  | .yield old => .switch old t
  | .steal victim => .stealOwnLock victim t

/-- `choose_thread` returns `None`. -/
def Caller.failed : Caller → Pc
  | .yield old => .takeIdle old
  | .steal victim => .stealUnlock victim

/-- The next step of CPU `c`. Where it matters, `late` is whether the thread's timeout
has passed. -/
def next (n c : Nat) (late : Bool) (s : State) : Option State :=
  match s.pc c with
  | .run | .panic => none
  | .yieldLock old => s.acquire c c (.yieldReturn old)
  | .yieldReturn none => some (s.goTo c (.choose (.yield none) (s.queue c).length))
  | .yieldReturn (some old) =>
    match s.idle c with
    | none => some { s.goTo c (.choose (.yield (some old)) (s.queue c).length) with
        idle := update s.idle c (some old)
        place := update s.place old (some (.idle c)) }
    | some _ => some (s.push n c c old (.choose (.yield (some old)) ((s.queue c).length + 1)))
  | .choose by_ 0 => some (s.goTo c by_.failed)
  | .choose by_ (rounds + 1) =>
    match s.queue (by_.target c) with
    | [] => some (s.goTo c .panic)
    | node :: rest => some { s.goTo c (.inspect by_ rounds node) with
        queue := update s.queue (by_.target c) rest
        place := update s.place node (some (.held c)) }
  | .inspect by_ rounds node =>
    if s.stopped node then some (s.goTo c (.zombie by_ rounds node))
    else if s.blocked node = false then some (s.goTo c (by_.found node))
    else if late then some { s.goTo c (by_.found node) with blocked := update s.blocked node false }
    else some (s.goTo c (.pushBack by_ rounds node))
  | .zombie by_ rounds node =>
    if s.inList n node then some (s.goTo c .panic)
    else some { s.goTo c (.wakeReaper by_ rounds) with
      zombies := s.zombies ++ [node]
      place := update s.place node none
      entered := update s.entered node (s.entered node + 1) }
  | .wakeReaper by_ rounds =>
    some { s.goTo c (.choose by_ rounds) with blocked := update s.blocked (reaper n) false }
  | .pushBack by_ rounds node => some (s.push n c (by_.target c) node (.choose by_ rounds))
  | .takeIdle old =>
    match s.idle c with
    | none => some (s.goTo c .panic)
    | some next => some { s.goTo c (.switch old next) with
        idle := update s.idle c none
        place := update s.place next (some (.held c)) }
  | .switch _ next => some { s.goTo c .yieldUnlock with
      registers := update s.registers c (some next)
      current := update s.current c (some next)
      place := update s.place next (some (.current c)) }
  | .yieldUnlock => some (s.release c c .run)
  | .stealLock victim => s.acquire c victim (.choose (.steal victim) (s.queue victim).length)
  | .stealOwnLock victim thread => s.acquire c c (.stealAdd victim thread)
  | .stealAdd victim thread => some (s.push n c c thread (.stealOwnUnlock victim))
  | .stealOwnUnlock victim => some (s.release c c (.stealUnlock victim))
  | .stealUnlock victim => some (s.release c victim .run)
  | .createLock => s.acquire c c .createAdd
  | .createAdd => some { s.push n c c s.created .createUnlock with created := s.created + 1 }
  | .createUnlock => some (s.release c c .run)

inductive Event where
  /-- A CPU enters `sched_yield`: in `exec`, in `thread_yield` or from a timer interrupt. -/
  | yield (c : Nat)
  | next (c : Nat) (late : Bool)
  | steal (c victim : Nat)
  | create (c : Nat)
  /-- The current thread of a CPU sets `STOPPED`. -/
  | die (c : Nat)
  | setBlocked (t : Nat) (blocked : Bool)
  /-- The reaper swaps an empty list with `ZOMBIES`, and drops what it got. -/
  | reap (c : Nat)
  | drop (c : Nat)
  deriving DecidableEq, Repr

def step (n : Nat) : Event → State → Option State
  | .yield c, s =>
    if c < n ∧ s.pc c = .run then
      match s.current c with
      | none => some (s.goTo c (.yieldLock none))
      | some old => some { s.goTo c (.yieldLock (some old)) with
          current := update s.current c none
          place := update s.place old (some (.held c)) }
    else none
  | .next c late, s => if c < n then next n c late s else none
  | .steal c victim, s =>
    if c < n ∧ victim < n ∧ c ≠ victim ∧ s.pc c = .run ∧
        s.current c = some (idleThread c) then
      some (s.goTo c (.stealLock victim))
    else none
  | .create c, s => if c < n ∧ s.pc c = .run then some (s.goTo c .createLock) else none
  | .die c, s =>
    if c < n ∧ s.pc c = .run then
      (s.current c).map fun t => { s with stopped := update s.stopped t true }
    else none
  | .setBlocked t blocked, s => some { s with blocked := update s.blocked t blocked }
  | .reap c, s =>
    if c < n ∧ s.pc c = .run ∧ s.current c = some (reaper n) ∧ s.reaping = [] then
      some { s with zombies := [], reaping := s.zombies }
    else none
  | .drop c, s =>
    if c < n ∧ s.pc c = .run ∧
      s.current c = some (reaper n) then some { s with reaping := [] } else none

/-- Each CPU has its idle thread and its up-reporter, and the first one the reaper. -/
def start (n : Nat) : State where
  pc _ := .run
  current _ := none
  idle c := if c < n then some (idleThread c) else none
  queue c := if c < n then if c = 0 then [upReporter n c, reaper n] else [upReporter n c] else []
  lock _ := none
  stopped _ := false
  blocked _ := false
  zombies := []
  reaping := []
  created := if 0 < n then 2 * n + 1 else 0
  registers _ := none
  place t :=
    if t < n then some (.idle t) else if t < 2 * n then some (.queue (t - n))
    else if t = 2 * n ∧ 0 < n then some (.queue 0) else none
  entered _ := 0

end BadgerOS.Sched
