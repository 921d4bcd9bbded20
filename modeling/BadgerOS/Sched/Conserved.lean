import BadgerOS.Sched.Yield

/-!
# No thread is lost or doubled

The history variable `place` says where each thread is, so it is there only once. A
queue changes under its lock, and the lock of a queue is kept from the time a thread
is put back until its context has been saved.
-/

namespace BadgerOS.Sched

open Interleaving Function Option State

attribute [local grind =] update_apply

/-- The thread that a CPU has in its hands. -/
@[grind =]
def Pc.held : Pc → Option Nat
  | .yieldLock old | .yieldReturn old => old
  | .inspect _ _ node | .zombie _ _ node | .pushBack _ _ node => some node
  | .switch _ next => some next
  | .stealOwnLock _ thread | .stealAdd _ thread => some thread
  | .run | .choose .. | .wakeReaper .. | .takeIdle _ | .yieldUnlock | .stealLock
    _ | .stealOwnUnlock _
  | .stealUnlock _ | .createLock | .createAdd | .createUnlock | .panic => none

/-- The CPU has the lock of the queue of CPU `v`. -/
@[grind =]
def Pc.locks (c v : Nat) : Pc → Bool
  | .yieldReturn _ | .takeIdle _ | .switch .. | .yieldUnlock | .createAdd | .createUnlock => v == c
  | .choose by_ _ | .inspect by_ _ _ | .zombie by_ _ _ | .wakeReaper by_ _ | .pushBack by_ _ _ =>
    v == by_.target c
  | .stealOwnLock victim _ | .stealUnlock victim => v == victim
  | .stealAdd victim _ | .stealOwnUnlock victim => v == victim || v == c
  | .run | .yieldLock _ | .stealLock _ | .createLock | .panic => false

@[grind =]
def Caller.leaves : Caller → Option (Option Nat)
  | .yield old => some old
  | .steal _ => none

/-- The thread that is to be switched from, from the time it is taken out of `current` on.
It is none when the scheduler starts. -/
@[grind =]
def Pc.leaves : Pc → Option (Option Nat)
  | .yieldLock old | .yieldReturn old | .takeIdle old | .switch old _ => some old
  | .choose by_ _ | .inspect by_ _ _ | .zombie by_ _ _ | .wakeReaper by_ _ | .pushBack by_ _ _ =>
    by_.leaves
  | .run | .yieldUnlock | .stealLock _ | .stealOwnLock .. | .stealAdd .. | .stealOwnUnlock
    _ | .stealUnlock _
  | .createLock | .createAdd | .createUnlock | .panic => none

@[grind =]
def Caller.old : Caller → Option Nat
  | .yield old => old
  | .steal _ => none

/-- That thread, when it has been put back. -/
@[grind =]
def Pc.returned : Pc → Option Nat
  | .takeIdle old | .switch old _ => old
  | .choose by_ _ | .inspect by_ _ _ | .zombie by_ _ _ | .wakeReaper by_ _ | .pushBack by_ _ _ =>
    by_.old
  | .run | .yieldLock _ | .yieldReturn _ | .yieldUnlock | .stealLock _ | .stealOwnLock
    .. | .stealAdd ..
  | .stealOwnUnlock _ | .stealUnlock _ | .createLock | .createAdd | .createUnlock | .panic => none

/-- The thread that is current or will be, unless that is still open. -/
@[grind =]
def Pc.front (current : Option Nat) : Pc → Option Nat
  | .yieldLock old | .yieldReturn old => old
  | .switch _ next => some next
  | .takeIdle _ => none
  | .choose by_ _ | .inspect by_ _ _ | .zombie by_ _ _ | .wakeReaper by_ _ | .pushBack by_ _ _ =>
    if by_.leaves = none then current else none
  | .run | .yieldUnlock | .stealLock _ | .stealOwnLock .. | .stealAdd .. | .stealOwnUnlock
    _ | .stealUnlock _
  | .createLock | .createAdd | .createUnlock | .panic => current

/-- The queue that `choose_thread` goes through, and its rounds to go. -/
@[grind =]
def Pc.rounds : Pc → Option (Caller × Nat)
  | .choose by_ rounds | .inspect by_ rounds _ | .zombie by_ rounds _ | .wakeReaper by_ rounds
  | .pushBack by_ rounds _ => some (by_, rounds)
  | .run | .yieldLock _ | .yieldReturn _ | .takeIdle _ | .switch .. | .yieldUnlock | .stealLock _
  | .stealOwnLock .. | .stealAdd .. | .stealOwnUnlock _ | .stealUnlock
    _ | .createLock | .createAdd | .createUnlock
  | .panic => none

@[grind =]
def Caller.victim : Caller → Option Nat
  | .yield _ => none
  | .steal victim => some victim

@[grind =]
def Pc.victim : Pc → Option Nat
  | .choose by_ _ | .inspect by_ _ _ | .zombie by_ _ _ | .wakeReaper by_ _ | .pushBack by_ _ _ =>
    by_.victim
  | .stealLock victim | .stealOwnLock victim _ | .stealAdd victim _ | .stealOwnUnlock victim
  | .stealUnlock victim => some victim
  | .run | .yieldLock _ | .yieldReturn _ | .takeIdle _ | .switch
    .. | .yieldUnlock | .createLock | .createAdd
  | .createUnlock | .panic => none

attribute [grind =] Caller.target

structure Placed (s : State) : Prop where
  queue : ∀ v t, t ∈ s.queue v ↔ s.place t = some (.queue v)
  idle : ∀ c t, s.idle c = some t ↔ s.place t = some (.idle c)
  current : ∀ c t, s.current c = some t ↔ s.place t = some (.current c)
  held : ∀ c t, (s.pc c).held = some t ↔ s.place t = some (.held c)
  created : ∀ t, s.created ≤ t → s.place t = none
  listed : ∀ t, t ∈ s.zombies ∨ t ∈ s.reaping → s.place t = none ∧ t < s.created
  once : ∀ v, (s.queue v).Nodup

def Locked (s : State) : Prop := ∀ c v, s.lock v = some c ↔ (s.pc c).locks c v = true

/-- The registers belong to the current thread, or to the one that is left. -/
structure Running (s : State) : Prop where
  inside : ∀ c old, (s.pc c).leaves = some old → s.current c = none ∧ s.registers c = old
  outside : ∀ c, (s.pc c).leaves = none → s.registers c = s.current c

/-- A thread that has been put back and not saved stays with its CPU, unless it has stopped. -/
def Returned (s : State) : Prop := ∀ c old, (s.pc c).returned = some old →
  s.place old = some (.queue c) ∨ s.place old = some (.idle c) ∨
    s.place old = some (.held c) ∨ (s.place old = none ∧ old < s.created)

def IdleKept (n : Nat) (s : State) : Prop := ∀ c < n,
  s.idle c = if (s.pc c).front (s.current c) = some (idleThread c) then none else some
    (idleThread c)

def Counted (s : State) : Prop := ∀ c by_ rounds, (s.pc c).rounds = some (by_, rounds) →
  rounds ≤ (s.queue (by_.target c)).length

def OtherVictim (s : State) : Prop := ∀ c victim, (s.pc c).victim = some victim → victim ≠ c

/-- Only stopped threads go to `ZOMBIES`, and only once. -/
structure Buried (s : State) : Prop where
  stopped : ∀ c by_ rounds node, s.pc c = .zombie by_ rounds node → s.stopped node = true
  entered : ∀ t, s.entered t = if s.place t = none ∧ t < s.created then 1 else 0
  dead : ∀ t, s.place t = none → t < s.created → s.stopped t = true

structure Inv (n : Nat) (s : State) : Prop where
  placed : Placed s
  locked : Locked s
  running : Running s
  returned : Returned s
  idle : IdleKept n s
  counted : Counted s
  other : OtherVictim s
  buried : Buried s
  alive : ∀ c, s.pc c ≠ .panic

/-- What a step does when nothing fails. -/
inductive Moves (n : Nat) (s : State) (c : Nat) : State → Prop
  | begin (from_ : s.pc c = .run) (nobody : s.current c = none) :
      Moves n s c (s.goTo c (.yieldLock none))
  | leave {old} (from_ : s.pc c = .run) (current : s.current c = some old)
      (here : s.place old = some (.current c)) :
      Moves n s c { s.goTo c (.yieldLock (some old)) with
        current := update s.current c none
        place := update s.place old (some (.held c)) }
  | steal {victim} (from_ : s.pc c = .run) (other : victim ≠ c) :
    Moves n s c (s.goTo c (.stealLock victim))
  | makeThread (from_ : s.pc c = .run) : Moves n s c (s.goTo c .createLock)
  | die {t} (here : s.place t = some (.current c)) :
      Moves n s c { s with stopped := update s.stopped t true }
  | block {blocked} : Moves n s c { s with blocked := blocked }
  | reap : Moves n s c { s with zombies := [], reaping := s.zombies }
  | drop : Moves n s c { s with reaping := [] }
  | yieldLock {old} (from_ : s.pc c = .yieldLock old) (free : s.lock c = none) :
      Moves n s c { s.goTo c (.yieldReturn old) with lock := update s.lock c (some c) }
  | first (from_ : s.pc c = .yieldReturn none) :
      Moves n s c (s.goTo c (.choose (.yield none) (s.queue c).length))
  | putIdle {old} (from_ : s.pc c = .yieldReturn (some old)) (empty : s.idle c = none)
      (here : s.place old = some (.held c)) :
      Moves n s c { s.goTo c (.choose (.yield (some old)) (s.queue c).length) with
        idle := update s.idle c (some old)
        place := update s.place old (some (.idle c)) }
  | putBack {old other} (from_ : s.pc c = .yieldReturn (some old)) (full : s.idle c = some other)
      (here : s.place old = some (.held c)) (mine : s.lock c = some c) :
      Moves n s c { s.goTo c (.choose (.yield (some old)) ((s.queue c).length + 1)) with
        queue := update s.queue c (s.queue c ++ [old])
        place := update s.place old (some (.queue c)) }
  | noThread {old} (from_ : s.pc c = .choose (.yield old) 0) :
    Moves n s c (s.goTo c (.takeIdle old))
  | noLoot {victim} (from_ : s.pc c = .choose (.steal victim) 0) :
    Moves n s c (s.goTo c (.stealUnlock victim))
  | pop {by_ rounds node rest} (from_ : s.pc c = .choose by_ (rounds + 1))
      (queue : s.queue (by_.target c) = node :: rest)
        (here : s.place node = some (.queue (by_.target c)))
      (mine : s.lock (by_.target c) = some c) :
      Moves n s c { s.goTo c (.inspect by_ rounds node) with
        queue := update s.queue (by_.target c) rest
        place := update s.place node (some (.held c)) }
  | stopped {by_ rounds node} (from_ : s.pc c = .inspect by_ rounds node)
    (stopped : s.stopped node = true) :
      Moves n s c (s.goTo c (.zombie by_ rounds node))
  | found {old rounds node blocked} (from_ : s.pc c = .inspect (.yield old) rounds node) :
      Moves n s c { s.goTo c (.switch old node) with blocked := blocked }
  | loot {victim rounds node blocked} (from_ : s.pc c = .inspect (.steal victim) rounds node) :
      Moves n s c { s.goTo c (.stealOwnLock victim node) with blocked := blocked }
  | waits {by_ rounds node} (from_ : s.pc c = .inspect by_ rounds node) :
      Moves n s c (s.goTo c (.pushBack by_ rounds node))
  | zombie {by_ rounds node} (from_ : s.pc c = .zombie by_ rounds node)
    (here : s.place node = some (.held c)) :
      Moves n s c { s.goTo c (.wakeReaper by_ rounds) with
        zombies := s.zombies ++ [node]
        place := update s.place node none
        entered := update s.entered node (s.entered node + 1) }
  | wakeReaper {by_ rounds blocked} (from_ : s.pc c = .wakeReaper by_ rounds) :
      Moves n s c { s.goTo c (.choose by_ rounds) with blocked := blocked }
  | pushBack {by_ rounds node} (from_ : s.pc c = .pushBack by_ rounds node)
      (here : s.place node = some (.held c)) (mine : s.lock (by_.target c) = some c) :
      Moves n s c { s.goTo c (.choose by_ rounds) with
        queue := update s.queue (by_.target c) (s.queue (by_.target c) ++ [node])
        place := update s.place node (some (.queue (by_.target c))) }
  | takeIdle {old next} (from_ : s.pc c = .takeIdle old) (full : s.idle c = some next)
      (here : s.place next = some (.idle c)) :
      Moves n s c { s.goTo c (.switch old next) with
        idle := update s.idle c none
        place := update s.place next (some (.held c)) }
  | switch {old next} (from_ : s.pc c = .switch old next) (here : s.place next = some (.held c))
      (out : s.current c = none) :
      Moves n s c { s.goTo c .yieldUnlock with
        registers := update s.registers c (some next)
        current := update s.current c (some next)
        place := update s.place next (some (.current c)) }
  | yieldUnlock (from_ : s.pc c = .yieldUnlock) : Moves n s c (s.release c c .run)
  | stealLock {victim} (from_ : s.pc c = .stealLock victim) (free : s.lock victim = none) :
      Moves n s c { s.goTo c (.choose (.steal victim) (s.queue victim).length) with
        lock := update s.lock victim (some c) }
  | stealOwnLock {victim thread} (from_ : s.pc c = .stealOwnLock victim thread)
    (free : s.lock c = none) :
      Moves n s c { s.goTo c (.stealAdd victim thread) with lock := update s.lock c (some c) }
  | stealAdd {victim thread} (from_ : s.pc c = .stealAdd victim thread)
    (here : s.place thread = some (.held c))
      (mine : s.lock c = some c) :
      Moves n s c { s.goTo c (.stealOwnUnlock victim) with
        queue := update s.queue c (s.queue c ++ [thread])
        place := update s.place thread (some (.queue c)) }
  | stealOwnUnlock {victim} (from_ : s.pc c = .stealOwnUnlock victim) :
      Moves n s c (s.release c c (.stealUnlock victim))
  | stealUnlock {victim} (from_ : s.pc c = .stealUnlock victim) :
    Moves n s c (s.release c victim .run)
  | createLock (from_ : s.pc c = .createLock) (free : s.lock c = none) :
      Moves n s c { s.goTo c .createAdd with lock := update s.lock c (some c) }
  | create (from_ : s.pc c = .createAdd) (here : s.place s.created = none)
    (mine : s.lock c = some c) :
      Moves n s c { s.goTo c .createUnlock with
        queue := update s.queue c (s.queue c ++ [s.created])
        place := update s.place s.created (some (.queue c))
        created := s.created + 1 }
  | createUnlock (from_ : s.pc c = .createUnlock) : Moves n s c (s.release c c .run)

attribute [grind =] State.goTo State.release

variable {t n : Nat} {e : Event} {s : State}

section Steps

variable {old v : Nat} {s' : State} {c : Nat}

variable {pc : Pc}

/-- A CPU goes on with the same thread in its hands. -/
theorem Placed.goTo (placed : Placed s) (same : pc.held = (s.pc c).held) :
    Placed (s.goTo c pc) := by
  obtain ⟨queue, idle, current, held, created, listed, once⟩ := placed
  refine ⟨queue, idle, current, fun d t => ?_, created, listed, once⟩
  change (update s.pc c pc d).held = some t ↔ _
  grind

theorem Placed.congr (placed : Placed s) (pc : s'.pc = s.pc) (current : s'.current = s.current)
    (idle : s'.idle = s.idle) (queue : s'.queue = s.queue) (zombies : s'.zombies = s.zombies)
    (reaping : s'.reaping = s.reaping) (created : s'.created = s.created)
    (place : s'.place = s.place) : Placed s' := by
  obtain ⟨queue', idle', current', held', created', listed', once'⟩ := placed
  constructor
  · simpa only [queue, place] using queue'
  · simpa only [idle, place] using idle'
  · simpa only [current, place] using current'
  · simpa only [pc, place] using held'
  · simpa only [created, place] using created'
  · simpa only [zombies, reaping, created, place] using listed'
  · simpa only [queue] using once'

theorem Placed.moves (placed : Placed s) (moves : Moves n s c s') : Placed s' := by
  have ⟨queue, idle, current, held, created, listed, once⟩ := placed
  cases moves
  case yieldLock | found | loot | wakeReaper | yieldUnlock | stealLock | stealOwnLock |
    stealOwnUnlock | stealUnlock
      | createLock | createUnlock =>
    exact (placed.goTo (by grind)).congr rfl rfl rfl rfl rfl rfl rfl rfl
  case begin | steal | makeThread | first | noThread | noLoot | stopped | waits =>
    exact placed.goTo (by grind)
  all_goals constructor <;> dsimp only [State.goTo] <;> grind

theorem Locked.moves (locked : Locked s) (other : OtherVictim s) (moves : Moves n s c s') :
    Locked s' := by
  intro d v
  have here := locked c
  have there := locked d v
  have away := other c
  cases moves <;> dsimp only [goTo, release] <;> grind

theorem Running.moves (running : Running s) (moves : Moves n s c s') : Running s' := by
  obtain ⟨inside, outside⟩ := running
  constructor <;> cases moves <;> dsimp only [goTo, release] <;> grind

theorem OtherVictim.moves (other : OtherVictim s) (moves : Moves n s c s') : OtherVictim s' := by
  intro d victim
  have there := other d victim
  cases moves <;> dsimp only [goTo, release] <;> grind

variable {by_ : Caller}

/-- The lock of a queue that `choose_thread` goes through. -/
theorem Locked.target {rounds : Nat} (locked : Locked s)
    (choosing : (s.pc c).rounds = some (by_, rounds)) : s.lock (by_.target c) = some c := by
  apply (locked c _).mpr
  cases from_ : s.pc c <;> grind

theorem Counted.moves (counted : Counted s) (locked : Locked s) (moves : Moves n s c s') :
    Counted s' := by
  intro d by_ rounds
  have here := counted c
  have there := counted d by_ rounds
  have theirs : (s.pc d).rounds = some (by_, rounds) → s.lock (by_.target d) = some d :=
    locked.target
  cases moves <;> dsimp only [goTo, release] <;> grind

theorem Caller.target_of_old (own : by_.old = some old) : by_.target c = c := by
  cases by_ with
  | yield old => rfl
  | steal victim => cases own

theorem Caller.old_of_leaves (own : by_.leaves = some (some old)) : by_.old = some old := by
  cases by_ with
  | yield old => exact Option.some.inj own
  | steal victim => cases own

/-- The own lock is kept while a thread has been put back and not saved. -/
theorem Locked.returned (locked : Locked s) (returned : (s.pc c).returned = some old) :
    s.lock c = some c := by
  apply (locked c c).mpr
  cases from_ : s.pc c <;> grind [Caller.target_of_old]

theorem Returned.moves (returned : Returned s) (placed : Placed s) (locked : Locked s)
    (moves : Moves n s c s') : Returned s' := by
  intro d old
  have there := returned d old
  have theirs : (s.pc d).returned = some old → s.lock d = some d := locked.returned
  have created := placed.created
  cases moves <;> dsimp only [goTo, release] <;> grind [Caller.target_of_old]

theorem IdleKept.moves (kept : IdleKept n s) (placed : Placed s) (running : Running s)
    (moves : Moves n s c s') : IdleKept n s' := by
  intro d inside
  have there := kept d inside
  have here := placed.held c
  have out := running.inside c
  have idle := placed.idle c
  cases moves <;> dsimp only [goTo, release] <;> grind

theorem Buried.moves (buried : Buried s) (placed : Placed s) (moves : Moves n s c s') :
    Buried s' := by
  obtain ⟨stopped, entered, dead⟩ := buried
  have created := placed.created
  constructor <;> cases moves <;> dsimp only [goTo, release] <;> grind

theorem Moves.alive (moves : Moves n s c s') (alive : ∀ d, s.pc d ≠ .panic) (d : Nat) :
    s'.pc d ≠ .panic := by
  cases moves <;> dsimp only [goTo, release] <;> grind

theorem Inv.moves (inv : Inv n s) (moves : Moves n s c s') : Inv n s' where
  placed := inv.placed.moves moves
  locked := inv.locked.moves inv.other moves
  running := inv.running.moves moves
  returned := inv.returned.moves inv.placed inv.locked moves
  idle := inv.idle.moves inv.placed inv.running moves
  counted := inv.counted.moves inv.locked moves
  other := inv.other.moves moves
  buried := inv.buried.moves inv.placed moves
  alive := moves.alive inv.alive

/-! ### Nothing fails -/

/-- A thread that a CPU has in its hands, or a new one, is in no list. -/
theorem Placed.not_inList (placed : Placed s) (t : Nat) (out : ∀ v, s.place t ≠ some (.queue v))
    (lives : s.place t = none → s.created ≤ t) : s.inList n t = false := by
  obtain ⟨queue, -, -, -, -, listed, -⟩ := placed
  have unlisted : ¬ (t ∈ s.zombies ∨ t ∈ s.reaping) := fun mem => by
    obtain ⟨gone, old⟩ := listed t mem
    have := lives gone
    omega
  simp only [not_or] at unlisted
  simp only [inList, Bool.or_eq_false_iff, List.any_eq_false, List.contains_eq_mem,
    decide_eq_false_iff_not, decide_eq_true_eq]
  exact ⟨⟨fun v _ mem => out v ((queue v t).mp mem), unlisted.1⟩, unlisted.2⟩

theorem Placed.push (placed : Placed s) (out : ∀ v, s.place t ≠ some (.queue v))
    (lives : s.place t = none → s.created ≤ t) :
    s.push n c v t pc = { s.goTo c pc with
      queue := update s.queue v (s.queue v ++ [t])
      place := update s.place t (some (.queue v)) } := by
  rw [State.push, placed.not_inList t out lives]
  rfl

theorem Placed.pushHeld (placed : Placed s) (here : s.place t = some (.held c)) :
    s.push n c v t pc = { s.goTo c pc with
      queue := update s.queue v (s.queue v ++ [t])
      place := update s.place t (some (.queue v)) } :=
  placed.push (by simp [here]) (by simp [here])

theorem acquire_eq (run : s.acquire c v pc = some s') :
    s.lock v = none ∧ s' = { s.goTo c pc with lock := update s.lock v (some c) } := by
  unfold State.acquire at run
  split at run
  · cases run
    exact ⟨‹_›, rfl⟩
  · cases run

section Next

variable {late : Bool} {rounds node : Nat} (inv : Inv n s)
include inv

theorem Inv.here (from_ : (s.pc c).held = some t) : s.place t = some (.held c) :=
  (inv.placed.held c t).mp from_

theorem Inv.mine (from_ : (s.pc c).locks c v = true) : s.lock v = some c :=
  (inv.locked c v).mpr from_

/-- The thread that is left goes to the idle slot if that is empty, and to the queue if not. -/
theorem Inv.next_yieldReturn {old : Option Nat} (from_ : s.pc c = .yieldReturn old)
    (run : Sched.next n c late s = some s') : Moves n s c s' := by
  simp only [Sched.next, from_] at run
  cases old with
  | none =>
    cases run
    exact .first from_
  | some old =>
    have here : s.place old = some (.held c) := inv.here (by rw [from_]; rfl)
    cases slot : s.idle c with
    | none =>
      simp only [slot] at run
      cases run
      exact .putIdle from_ slot here
    | some other =>
      simp only [slot, inv.placed.pushHeld here] at run
      cases run
      exact .putBack from_ slot here (inv.mine (by simp [from_, Pc.locks]))

/-- The rounds are not more than the threads in the queue. -/
theorem Inv.next_choose (from_ : s.pc c = .choose by_ rounds)
    (run : Sched.next n c late s = some s') : Moves n s c s' := by
  simp only [Sched.next, from_] at run
  cases rounds with
  | zero =>
    cases run
    cases by_ with
    | yield old => exact .noThread from_
    | steal victim => exact .noLoot from_
  | succ rounds =>
    have choosing : (s.pc c).rounds = some (by_, rounds + 1) := by
      rw [from_]
      rfl
    have enough := inv.counted c by_ (rounds + 1) choosing
    cases queue : s.queue (by_.target c) with
    | nil =>
      rw [queue] at enough
      simp at enough
    | cons node rest =>
      simp only [queue] at run
      cases run
      have first : node ∈ s.queue (by_.target c) := by simp [queue]
      exact .pop from_ queue ((inv.placed.queue _ _).mp first) (inv.locked.target choosing)

omit inv in
theorem next_inspect (from_ : s.pc c = .inspect by_ rounds node)
    (run : Sched.next n c late s = some s') : Moves n s c s' := by
  have found {blocked : Nat → Bool} :
      Moves n s c { s.goTo c (by_.found node) with blocked := blocked } := by
    cases by_ with
    | yield old => exact .found from_
    | steal victim => exact .loot from_
  simp only [Sched.next, from_] at run
  split at run
  case isTrue stopped =>
    cases run
    exact .stopped from_ stopped
  case isFalse =>
    split at run
    · cases run
      exact found
    · split at run
      · cases run
        exact found
      · cases run
        exact .waits from_

theorem Inv.next_zombie (from_ : s.pc c = .zombie by_ rounds node)
    (run : Sched.next n c late s = some s') : Moves n s c s' := by
  have here : s.place node = some (.held c) := inv.here (by rw [from_]; rfl)
  have unlisted := inv.placed.not_inList (n := n) node (by simp [here]) (by simp [here])
  simp only [Sched.next, from_, unlisted, Bool.false_eq_true, if_false] at run
  cases run
  exact .zombie from_ here

theorem Inv.next_pushBack (from_ : s.pc c = .pushBack by_ rounds node)
    (run : Sched.next n c late s = some s') : Moves n s c s' := by
  have here : s.place node = some (.held c) := inv.here (by rw [from_]; rfl)
  simp only [Sched.next, from_, inv.placed.pushHeld here] at run
  cases run
  exact .pushBack from_ here (inv.mine (by simp [from_, Pc.locks]))

/-- The slot is full while a thread is switched from, unless that is the idle thread. -/
theorem Inv.next_takeIdle {old : Option Nat} (inside : c < n) (from_ : s.pc c = .takeIdle old)
    (run : Sched.next n c late s = some s') : Moves n s c s' := by
  have slot := inv.idle c inside
  simp only [from_, Pc.front, reduceCtorEq, if_false] at slot
  simp only [Sched.next, from_, slot] at run
  cases run
  exact .takeIdle from_ slot ((inv.placed.idle _ _).mp slot)

theorem Inv.next_stealAdd {victim thread : Nat} (from_ : s.pc c = .stealAdd victim thread)
    (run : Sched.next n c late s = some s') : Moves n s c s' := by
  have here : s.place thread = some (.held c) := inv.here (by rw [from_]; rfl)
  simp only [Sched.next, from_, inv.placed.pushHeld here] at run
  cases run
  exact .stealAdd from_ here (inv.mine (by simp [from_, Pc.locks]))

theorem Inv.next_createAdd (from_ : s.pc c = .createAdd)
    (run : Sched.next n c late s = some s') : Moves n s c s' := by
  have here := inv.placed.created _ (Nat.le_refl _)
  simp only [Sched.next, from_,
    inv.placed.push (by simp [here]) (fun _ => Nat.le_refl _)] at run
  cases run
  exact .create from_ here (inv.mine (by simp [from_, Pc.locks]))

theorem Inv.next (inside : c < n) (run : Sched.next n c late s = some s') : Moves n s c s' := by
  cases from_ : s.pc c with
  | yieldReturn old => exact inv.next_yieldReturn from_ run
  | choose by_ rounds => exact inv.next_choose from_ run
  | inspect by_ rounds node => exact next_inspect from_ run
  | zombie by_ rounds node => exact inv.next_zombie from_ run
  | pushBack by_ rounds node => exact inv.next_pushBack from_ run
  | takeIdle old => exact inv.next_takeIdle inside from_ run
  | stealAdd victim thread => exact inv.next_stealAdd from_ run
  | createAdd => exact inv.next_createAdd from_ run
  | run | panic =>
    simp only [Sched.next, from_] at run
    cases run
  | yieldLock old =>
    simp only [Sched.next, from_] at run
    obtain ⟨free, rfl⟩ := acquire_eq run
    exact .yieldLock from_ free
  | stealLock victim =>
    simp only [Sched.next, from_] at run
    obtain ⟨free, rfl⟩ := acquire_eq run
    exact .stealLock from_ free
  | stealOwnLock victim thread =>
    simp only [Sched.next, from_] at run
    obtain ⟨free, rfl⟩ := acquire_eq run
    exact .stealOwnLock from_ free
  | createLock =>
    simp only [Sched.next, from_] at run
    obtain ⟨free, rfl⟩ := acquire_eq run
    exact .createLock from_ free
  | wakeReaper by_ rounds =>
    simp only [Sched.next, from_] at run
    cases run
    exact .wakeReaper from_
  | switch old next =>
    simp only [Sched.next, from_] at run
    cases run
    exact .switch from_ (inv.here (by rw [from_]; rfl))
      (inv.running.inside c old (by rw [from_]; rfl)).1
  | yieldUnlock =>
    simp only [Sched.next, from_] at run
    cases run
    exact .yieldUnlock from_
  | stealOwnUnlock victim =>
    simp only [Sched.next, from_] at run
    cases run
    exact .stealOwnUnlock from_
  | stealUnlock victim =>
    simp only [Sched.next, from_] at run
    cases run
    exact .stealUnlock from_
  | createUnlock =>
    simp only [Sched.next, from_] at run
    cases run
    exact .createUnlock from_

end Next

theorem Inv.stepMoves (inv : Inv n s) (run : Sched.step n e s = some s') : ∃ c,
    Moves n s c s' := by
  cases e with
  | yield c =>
    obtain ⟨⟨-, from_⟩, run⟩ := ite_none_right_eq_some.mp run
    split at run
    case h_1 nobody =>
      cases run
      exact ⟨c, .begin from_ nobody⟩
    case h_2 old current =>
      cases run
      exact ⟨c, .leave from_ current ((inv.placed.current c old).mp current)⟩
  | next c late =>
    obtain ⟨inside, run⟩ := ite_none_right_eq_some.mp run
    exact ⟨c, inv.next inside run⟩
  | steal c victim =>
    obtain ⟨⟨-, -, ne, from_, -⟩, run⟩ := ite_none_right_eq_some.mp run
    cases run
    exact ⟨c, .steal from_ ne.symm⟩
  | create c =>
    obtain ⟨⟨-, from_⟩, run⟩ := ite_none_right_eq_some.mp run
    cases run
    exact ⟨c, .makeThread from_⟩
  | die c =>
    obtain ⟨-, run⟩ := ite_none_right_eq_some.mp run
    obtain ⟨t, current, rfl⟩ := map_eq_some_iff.mp run
    exact ⟨c, .die ((inv.placed.current c t).mp current)⟩
  | setBlocked t blocked =>
    cases run
    exact ⟨0, .block⟩
  | reap c =>
    obtain ⟨-, run⟩ := ite_none_right_eq_some.mp run
    cases run
    exact ⟨c, .reap⟩
  | drop c =>
    obtain ⟨-, run⟩ := ite_none_right_eq_some.mp run
    cases run
    exact ⟨c, .drop⟩

theorem Inv.step (inv : Inv n s) (run : Sched.step n e s = some s') : Inv n s' := by
  obtain ⟨c, moves⟩ := inv.stepMoves run
  exact inv.moves moves

end Steps

theorem inv_start (n : Nat) : Inv n (start n) := by
  constructor
  · constructor <;> simp only [start] <;> grind [idleThread, upReporter, reaper]
  · intro c v
    simp [start, Pc.locks]
  · constructor <;> simp [start, Pc.leaves]
  · intro c old
    simp [start, Pc.returned]
  · intro c inside
    simp [start, Pc.front, inside]
  · intro c by_ rounds
    simp [start, Pc.rounds]
  · intro c victim
    simp [start, Pc.victim]
  · constructor <;> simp only [start] <;> grind
  · simp [start]

theorem inv_reached (reached : Reaches (step n) (fun _ _ => True) (start n) s) : Inv n s :=
  reached.invariant (inv_start n) fun _ inv run => inv.step run

/-! ### What holds of all runs -/

/-- The thread is there. -/
def State.Holds (s : State) : Place → Nat → Prop
  | .queue c, t => t ∈ s.queue c
  | .idle c, t => s.idle c = some t
  | .current c, t => s.current c = some t
  | .held c, t => (s.pc c).held = some t

theorem Placed.holds_iff (placed : Placed s) (p : Place) (t : Nat) : s.Holds p t ↔
    s.place t = some p := by
  cases p with
  | queue c => exact placed.queue c t
  | idle c => exact placed.idle c t
  | current c => exact placed.current c t
  | held c => exact placed.held c t

/-- Nobody else has the thread's context in its registers when a CPU switches to it. -/
theorem Inv.saved {c next : Nat} {old : Option Nat} (inv : Inv n s)
    (from_ : s.pc c = .switch old next) {d : Nat} (ne : d ≠ c) : s.registers d ≠ some next := by
  have here := (inv.placed.held c next).mp (by rw [from_]; rfl)
  have held := inv.placed.held d next
  have current := inv.placed.current d next
  have returned := inv.returned d next
  cases leaves : (s.pc d).leaves with
  | none =>
    rw [inv.running.outside d leaves]
    grind
  | some old' =>
    rw [(inv.running.inside d old' leaves).2]
    cases from_' : s.pc d <;> grind [Caller.old_of_leaves]

/-- Every thread that has not stopped is in one place; outside `sched_yield` the idle slot
is empty when the idle thread is current; a thread goes to `ZOMBIES` at most once; no
`unwrap` fails; and no CPU switches to a thread whose context another one has not saved. -/
theorem threads_conserved {n : Nat} {s : State}
    (reached : Reaches (step n) (fun _ _ => True) (start n) s) :
    (∀ t < s.created, s.stopped t = false → ∃ p, s.Holds p t ∧
      ∀ q, s.Holds q t → q = p) ∧
    (∀ c, (s.queue c).Nodup) ∧
    (∀ c < n, (s.pc c).leaves = none →
      (s.idle c = none ↔ s.current c = some (idleThread c))) ∧
    (∀ t, s.entered t ≤ 1) ∧ (∀ c, s.pc c ≠ .panic) ∧
    ∀ c old next, s.pc c = .switch old next → s.registers c = old ∧
      ∀ d ≠ c, s.registers d ≠ some next := by
  have inv := inv_reached reached
  refine ⟨fun t old runs => ?_, inv.placed.once, fun c inside out => ?_, fun t => ?_, inv.alive,
    fun c old next from_ => ⟨?_, fun d ne => inv.saved from_ ne⟩⟩
  · cases here : s.place t with
    | none =>
      have stopped := inv.buried.dead t here old
      rw [runs] at stopped
      cases stopped
    | some p =>
      refine ⟨p, (inv.placed.holds_iff p t).mpr here, fun q there => ?_⟩
      rw [inv.placed.holds_iff, here] at there
      exact (Option.some.inj there).symm
  · have slot := inv.idle c inside
    have front : (s.pc c).front (s.current c) = s.current c := by
      cases from_ : s.pc c <;> grind
    rw [slot]
    split
    · simp_all
    · simp_all
  · rw [inv.buried.entered t]
    split <;> omega
  · exact (inv.running.inside c old (by rw [from_]; rfl)).2

/-- A CPU starts, its up-reporter stops, and its idle thread steals another one. -/
def stealing : List Event :=
  let steps (k : Nat) := List.replicate k (Event.next 1 false)
  [.yield 1] ++ steps 6 ++ [.die 1, .yield 1] ++ steps 10 ++ [.steal 1 0] ++ steps 7 ++
    [.yield 1] ++ steps 6

theorem threads_conserved_stolen : ∃ s, Reaches (step 2) (fun _ _ => True) (start 2) s ∧
    s.entered 3 = 1 ∧
    s.current 1 = some 2 ∧ s.queue 0 = [reaper 2] ∧ ∀ q, s.Holds q 2 → q = .current 1 := by
  obtain ⟨s, reached, entered, current, queue, created, runs⟩ : ∃ s,
    Reaches (step 2) (fun _ _ => True) (start 2) s ∧
      s.entered 3 = 1 ∧ s.current 1 = some 2 ∧ s.queue 0 = [reaper 2] ∧ s.created = 5 ∧
          s.stopped 2 = false :=
    exists_of_run stealing (by decide +kernel)
  obtain ⟨p, -, only⟩ := (threads_conserved reached).1 2 (by omega) runs
  refine ⟨s, reached, entered, current, queue, fun q there => ?_⟩
  have here : s.Holds (.current 1) 2 := current
  rw [only q there, only _ here]

end BadgerOS.Sched
