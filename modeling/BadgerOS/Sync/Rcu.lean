import BadgerOS.Lib.Interleaving

/-!
# Read-copy-update

`kcore/sync/rcu.rs`: the callbacks of the schedulers and `rcu_sync`. A step is one
atomic operation or one acquisition or release of the spinlock; what a CPU does to
its own data or under its lock goes with the operation before it. The counters of
CPUs do not overflow, since a CPU's number is a `u32`; generations do at `2 ^ 32`.
A failed assertion or an arithmetic overflow leads to `panic`.
-/

namespace BadgerOS.Rcu

open Interleaving Option List

/-- One more than `u32::MAX`. -/
abbrev u32Size : Nat := 4294967296

inductive Pc where
  | off
  /-- In `post_start_callback`, at the lock. -/
  | lock
  | first
  | firstGeneration
  | spin
  | join
  | unlock
  /-- A participant, between two callbacks. -/
  | run
  /-- In `sched_callback`, at the load of `RCU_GENERATION`. -/
  | load
  | pass
  | lockShared
  | store
  | unlockShared
  | bump
  | panic
  deriving DecidableEq, Repr

structure Cpu where
  pc : Pc
  generation : Nat
  /-- Whether the CPU is counted in `RCU_PARTICIPATING`. -/
  joined : Bool
  /-- The callbacks that have begun and ended. No code reads these two. -/
  begun : Nat
  ended : Nat
  deriving DecidableEq, Repr

inductive SyncPc where
  | load
  | wait (generation : Nat)
  | returned
  deriving DecidableEq, Repr

/-- A call of `rcu_sync`, with the callbacks that had begun on the CPUs that were
participants when it was called. -/
structure Sync where
  pc : SyncPc
  need : List (Option Nat)
  deriving DecidableEq, Repr

structure State where
  /-- `RCU_GENERATION`. -/
  generation : Nat
  /-- `RCU_OUTSTANDING`. -/
  outstanding : Nat
  /-- `RCU_PARTICIPATING`. -/
  participating : Nat
  /-- Its spinlock. -/
  exclusive : Bool
  shared : Nat
  /-- `RUNNING_SCHED_COUNT`. -/
  running : Nat
  cpus : List Cpu
  syncs : List Sync
  deriving DecidableEq, Repr

def Cpu.finish (c : Cpu) : Cpu := { c with pc := .run, ended := c.ended + 1 }

/-- The next step of a CPU in a callback: its own data and the shared data. -/
def next (s : State) (c : Cpu) : Option (Cpu × State) :=
  match c.pc with
  | .off => none
  | .lock =>
    if s.exclusive = false ∧ s.shared = 0 then
      some ({ c with pc := if s.participating = 0 then .first else .spin },
        { s with exclusive := true })
    else none
  | .first => some ({ c with pc := .firstGeneration }, { s with outstanding := 1 })
  | .firstGeneration =>
    some ({ c with pc := .unlock, generation := 0, joined := true },
      { s with generation := 0, participating := 1 })
  | .spin => some ({ c with pc := if 0 < s.outstanding then .spin else .join }, s)
  | .join =>
    if s.generation + 1 < u32Size then
      some ({ c with pc := .unlock, generation := s.generation + 1, joined := true },
        { s with participating := s.participating + 1 })
    else some ({ c with pc := .panic }, s)
  | .unlock => some ({ c with pc := .run }, { s with exclusive := false })
  | .run => none
  | .load =>
    if s.generation = c.generation then some ({ c with pc := .pass }, s)
    else if (s.generation + 1) % u32Size = c.generation then some (c.finish, s)
    else some ({ c with pc := .panic }, s)
  | .pass =>
    if c.generation + 1 < u32Size ∧ 1 ≤ s.outstanding then
      let c := { c with generation := c.generation + 1 }
      some (if 1 < s.outstanding then c.finish else { c with pc := .lockShared },
        { s with outstanding := s.outstanding - 1 })
    else some ({ c with pc := .panic }, s)
  | .lockShared =>
    if s.exclusive = false then some ({ c with pc := .store }, { s with shared := s.shared + 1 })
      else none
  | .store => some ({ c with pc := .unlockShared }, { s with outstanding := s.participating })
  | .unlockShared => some ({ c with pc := .bump }, { s with shared := s.shared - 1 })
  | .bump => some (c.finish, { s with generation := (s.generation + 1) % u32Size })
  | .panic => none

inductive Event where
  /-- The scheduler of a CPU starts. -/
  | start (i : Nat)
  | callback (i : Nat)
  | next (i : Nat)
  /-- Some thread calls `rcu_sync`. -/
  | sync
  | syncNext (j : Nat)
  deriving DecidableEq, Repr

def State.setCpu (s : State) (i : Nat) (c : Cpu) : State := { s with cpus := s.cpus.set i c }

def State.setSync (s : State) (j : Nat) (y : Sync) : State := { s with syncs := s.syncs.set j y }

def step : Event → State → Option State
  | .start i, s => do
    let c ← s.cpus[i]?
    if c.pc = .off then some { s.setCpu i { c with pc := .lock } with running := s.running + 1 }
      else none
  | .callback i, s => do
    let c ← s.cpus[i]?
    if c.pc = .run then some (s.setCpu i { c with pc := .load, begun := c.begun + 1 }) else none
  | .next i, s => do
    let c ← s.cpus[i]?
    let (c, s) ← next s c
    some (s.setCpu i c)
  | .sync, s =>
    let need := s.cpus.map fun c => if c.joined then some c.begun else none
    some { s with syncs := s.syncs ++ [⟨if s.running = 0 then .returned else .load, need⟩] }
  | .syncNext j, s => do
    let y ← s.syncs[j]?
    match y.pc with
    | .load => some (s.setSync j { y with pc := .wait s.generation })
    | .wait generation =>
      -- `thread_yield` is a callback of some CPU
      some (if s.generation = generation then s else s.setSync j { y with pc := .returned })
    | .returned => none

def start (n : Nat) : State :=
  ⟨0, 1, 0, false, 0, 0, List.replicate n ⟨.off, 0, false, 0, 0⟩, []⟩

/-- `RCU_GENERATION` can be counted up once more. -/
def FewGenerations (s : State) (_ : Event) : Prop := s.generation + 1 < u32Size

instance (s : State) (e : Event) : Decidable (FewGenerations s e) :=
  inferInstanceAs (Decidable (_ < _))

/-! ### The invariant -/

def Cpu.member (c : Cpu) : Nat := c.joined.toNat

/-- The CPU has not passed generation `g`. -/
def Cpu.behind (g : Nat) (c : Cpu) : Nat := (c.joined && c.generation == g).toNat

def Cpu.advancing (c : Cpu) : Nat :=
  match c.pc with
  | .lockShared | .store | .unlockShared | .bump => 1
  | _ => 0

def Cpu.locking (c : Cpu) : Nat :=
  match c.pc with
  | .first | .firstGeneration | .spin | .join | .unlock => 1
  | _ => 0

def Cpu.sharing (c : Cpu) : Nat :=
  match c.pc with
  | .store | .unlockShared => 1
  | _ => 0

namespace State

variable (s : State)

def members : Nat := (s.cpus.map Cpu.member).sum
def behind : Nat := (s.cpus.map (Cpu.behind s.generation)).sum
def advancing : Nat := (s.cpus.map Cpu.advancing).sum

end State

open Cpu

/-- What is true of each CPU at its place. -/
def CpuOk (s : State) (c : Cpu) : Prop :=
  (c.joined = true → c.generation = s.generation ∨ c.generation = s.generation + 1) ∧
  match c.pc with
  | .off | .lock => c.joined = false
  | .first | .firstGeneration => c.joined = false ∧ s.participating = 0
  | .spin => c.joined = false ∧ 0 < s.participating
  | .join => c.joined = false ∧ 0 < s.participating ∧ s.outstanding = 0
  | .unlock | .run | .load => c.joined = true
  | .pass => c.joined = true ∧ c.generation = s.generation
  | .lockShared | .store => c.joined = true ∧ s.outstanding = 0
  | .unlockShared | .bump => c.joined = true ∧ s.outstanding = s.participating
  | .panic => False

/-- Nobody advances, or one CPU does and all participants have passed. -/
def PhaseOf (s : State) (advancing behind : Nat) : Prop :=
  (advancing = 0 ∧ (s.participating = 0 → s.outstanding = 1 ∧ s.generation = 0) ∧
    (0 < s.participating → s.outstanding = behind ∧ 0 < s.outstanding)) ∨
  (advancing = 1 ∧ behind = 0 ∧ 0 < s.participating)

def Phase (s : State) : Prop := PhaseOf s s.advancing s.behind

structure Inv (s : State) : Prop where
  members : s.members = s.participating
  locking : (s.cpus.map Cpu.locking).sum = s.exclusive.toNat
  sharing : (s.cpus.map Cpu.sharing).sum = s.shared
  apart : s.exclusive = true → s.shared = 0
  each : ∀ {i : Nat} {c}, s.cpus[i]? = some c → CpuOk s c
  phase : Phase s

variable {s' s₁ : State}

section Steps

variable {s : State} {i j : Nat} {c c' c₀ : Cpu}

/-- Nothing that the account is about changes. -/
theorem Inv.congr (inv : Inv s) (cpus : s'.cpus = s.cpus)
    (generation : s'.generation = s.generation)
    (outstanding : s'.outstanding = s.outstanding)
    (participating : s'.participating = s.participating)
    (exclusive : s'.exclusive = s.exclusive) (shared : s'.shared = s.shared) : Inv s' := by
  obtain ⟨members, locking, sharing, apart, each, phase⟩ := inv
  constructor
  · rw [participating, ← members]
    simp only [State.members, cpus]
  · rw [cpus, exclusive]
    exact locking
  · rw [cpus, shared]
    exact sharing
  · rw [exclusive, shared]
    exact apart
  · intro i c here
    rw [cpus] at here
    simpa only [CpuOk, generation, outstanding, participating] using each here
  · simpa only [Phase, PhaseOf, State.advancing, State.behind, generation, outstanding,
      participating, cpus] using phase

section

variable (here : s.cpus[i]? = some c)
include here

/-- A CPU that has the lock is alone. -/
theorem Inv.locked (inv : Inv s) (locking : c.locking = 1) : s.exclusive = true ∧ s.shared = 0 ∧
      ∀ {j c₀}, j ≠ i → s.cpus[j]? = some c₀ → c₀.locking = 0 ∧
        c₀.sharing = 0 := by
  have mine := le_sum Cpu.locking here
  have sum := inv.locking
  have exclusive : s.exclusive = true := by
    cases eq : s.exclusive with
    | true => rfl
    | false =>
      rw [eq, Bool.toNat_false] at sum
      omega
  rw [exclusive, Bool.toNat_true] at sum
  refine ⟨exclusive, inv.apart exclusive, fun {j c₀} ne there => ?_⟩
  have both := add_le_sum Cpu.locking here there ne
  have none := le_sum Cpu.sharing there
  rw [inv.sharing, inv.apart exclusive] at none
  omega

/-- A CPU that advances is alone, and all have passed. -/
theorem Inv.advances (inv : Inv s) (advancing : c.advancing = 1) :
    s.advancing = 1 ∧ s.behind = 0 ∧ 0 < s.participating ∧
      ∀ {j c₀}, j ≠ i → s.cpus[j]? = some c₀ → c₀.advancing = 0 := by
  have mine : c.advancing ≤ s.advancing := le_sum Cpu.advancing here
  rcases inv.phase with ⟨none, -⟩ | ⟨one, behind, some_cpu⟩
  · omega
  · refine ⟨one, behind, some_cpu, fun {j c₀} ne there => ?_⟩
    have both : c.advancing + c₀.advancing ≤ s.advancing :=
      add_le_sum Cpu.advancing here there ne
    omega

/-- All participants have passed. -/
theorem Inv.passed (inv : Inv s) (behind : s.behind = 0) (joined : c.joined = true) :
    c.generation = s.generation + 1 := by
  have mine : Cpu.behind s.generation c ≤ s.behind := le_sum (Cpu.behind s.generation) here
  rcases (inv.each here).1 joined with eq | eq
  · simp [Cpu.behind, joined, eq] at mine
    omega
  · exact eq

/-- One CPU changes, and the shared data with it. -/
theorem Inv.change (inv : Inv s) (cpus : s₁.cpus = s.cpus)
    (members : s₁.participating + c.member = s.participating + c'.member)
    (locking : s₁.exclusive.toNat + c.locking = s.exclusive.toNat + c'.locking)
    (sharing : s₁.shared + c.sharing = s.shared + c'.sharing)
    (apart : s₁.exclusive = true → s₁.shared = 0)
    (others : ∀ {j c₀}, j ≠ i → s.cpus[j]? = some c₀ → CpuOk s c₀ → CpuOk s₁ c₀)
    (mine : CpuOk s₁ c') (phase : Phase (s₁.setCpu i c')) : Inv (s₁.setCpu i c') := by
  have inside := (List.getElem?_eq_some_iff.mp here).1
  constructor
  · have sum := sum_set (y := c') member here
    have old : (s.cpus.map member).sum = s.participating := inv.members
    simp only [State.members, State.setCpu, cpus]
    omega
  · have sum := sum_set (y := c') Cpu.locking here
    have old := inv.locking
    simp only [State.setCpu, cpus]
    omega
  · have sum := sum_set (y := c') Cpu.sharing here
    have old := inv.sharing
    simp only [State.setCpu, cpus]
    omega
  · exact apart
  · intro j c₀ there
    by_cases eq : j = i
    · subst eq
      simp only [State.setCpu, cpus, getElem?_set_self inside, some.injEq] at there
      subst there
      exact mine
    · simp only [State.setCpu, cpus] at there
      rw [getElem?_set_ne fun eq' => eq eq'.symm] at there
      exact others eq there (inv.each there)
  · exact phase

theorem phase_set (s₁ : State) (cpus : s₁.cpus = s.cpus)
    (generation : s₁.generation = s.generation)
    (phase : ∀ {a b}, a + c.advancing = s.advancing + c'.advancing →
      b + c.behind s.generation = s.behind + c'.behind s.generation → PhaseOf s₁ a b) :
    Phase (s₁.setCpu i c') := by
  have advances := sum_set (y := c') advancing here
  have behind := sum_set (y := c') (behind s.generation) here
  have new := phase advances behind
  simpa only [Phase, State.advancing, State.behind, State.setCpu, cpus, generation,
    PhaseOf] using new

/-- A CPU goes on, and only the lock may change. -/
theorem Inv.goes (inv : Inv s) (cpus : s₁.cpus = s.cpus) (generation : s₁.generation = s.generation)
    (outstanding : s₁.outstanding = s.outstanding)
    (participating : s₁.participating = s.participating) (joined : c'.joined = c.joined)
    (own : c'.generation = c.generation) (advancing : c'.advancing = c.advancing)
    (locking : s₁.exclusive.toNat + c.locking = s.exclusive.toNat + c'.locking)
    (sharing : s₁.shared + c.sharing = s.shared + c'.sharing)
    (apart : s₁.exclusive = true → s₁.shared = 0) (mine : CpuOk s c') : Inv (s₁.setCpu i c') := by
  have ok {c₀ : Cpu} (ok : CpuOk s c₀) : CpuOk s₁ c₀ := by
    simpa only [CpuOk, generation, outstanding, participating] using ok
  refine inv.change here cpus ?_ locking sharing apart (fun _ _ => ok) (ok mine) ?_
  · simp only [member, joined, participating]
  · apply phase_set here s₁ cpus generation
    intro a b advances behind
    have same : c'.behind s.generation = c.behind s.generation := by
      simp only [Cpu.behind, joined, own]
    have eq : a = s.advancing ∧ b = s.behind := by omega
    rw [eq.1, eq.2]
    simpa only [Phase, PhaseOf, generation, outstanding, participating] using inv.phase

end

/-- What a CPU knows of the counts depends on its place. -/
theorem CpuOk.keep {s₁ : State} (ok : CpuOk s c) (generation : s₁.generation = s.generation)
    (locking : c.locking = 1 → s₁.participating = s.participating ∧ (s.outstanding = 0 →
    s₁.outstanding = 0)) (advancing : c.advancing = 1 → s₁.outstanding = s.outstanding ∧
      (s.outstanding = s.participating → s₁.participating = s.participating)) :
        CpuOk s₁ c := by
  unfold CpuOk Cpu.locking Cpu.advancing at *
  cases from_ : c.pc <;> simp_all

theorem Cpu.behind_passed (c : Cpu) {g : Nat} (passed : c.generation = g + 1) : c.behind g = 0 := by
  simp [behind, passed]

theorem Inv.absent (inv : Inv s) (nobody : s.participating = 0) (here : s.cpus[i]? = some c) :
    c.joined = false := by
  have mine : c.member ≤ s.members := le_sum member here
  rw [inv.members, nobody] at mine
  cases joined : c.joined with
  | false => rfl
  | true => simp [member, joined] at mine

section

variable (inv : Inv s) (here : s.cpus[i]? = some c)
include inv here

/-- The first participant. -/
theorem Inv.first (from_ : c.pc = .firstGeneration) :
    Inv (State.setCpu { s with generation := 0, participating := 1 } i
      { c with pc := .unlock, generation := 0, joined := true }) := by
  obtain ⟨-, free, alone⟩ := inv.locked here (by simp only [Cpu.locking, from_])
  have ok := inv.each here
  simp only [CpuOk, from_] at ok
  obtain ⟨-, notJoined, nobody⟩ := ok
  obtain ⟨quiet, fresh, -⟩ := inv.phase.resolve_right fun busy => by omega
  obtain ⟨one, zero⟩ := fresh nobody
  have none : s.behind = 0 := by
    apply Interleaving.sum_eq_zero
    intro c₀ mem
    obtain ⟨j, there⟩ := getElem?_of_mem mem
    simp [behind, inv.absent nobody there]
  refine inv.change here rfl ?_ ?_ ?_ (fun _ => free) ?_ ?_ ?_
  · simp [member, notJoined, nobody]
  · simp [Cpu.locking, from_]
  · simp [Cpu.sharing, from_]
  · intro j c₀ ne there ok
    have out : c₀.advancing ≤ s.advancing := le_sum advancing there
    have unlocked := (alone ne there).1
    exact ok.keep zero.symm (by omega) (by omega)
  · simp [CpuOk]
  · apply phase_set here { s with generation := 0, participating := 1 } rfl zero.symm
    intro a b advances behind
    simp only [Cpu.advancing, Cpu.behind, from_, notJoined, zero] at advances behind
    left
    simp at behind
    exact ⟨by omega, nofun, fun _ => ⟨by simp only; omega, by simp only; omega⟩⟩

/-- The others have all passed, and the new one is as far as they are. -/
theorem Inv.joins (from_ : c.pc = .join) :
    Inv (State.setCpu { s with participating := s.participating + 1 } i
      { c with pc := .unlock, generation := s.generation + 1, joined := true }) := by
  obtain ⟨-, free, alone⟩ := inv.locked here (by simp only [Cpu.locking, from_])
  have ok := inv.each here
  simp only [CpuOk, from_] at ok
  obtain ⟨-, notJoined, some_cpu, none⟩ := ok
  obtain ⟨one, passed, -⟩ := inv.phase.resolve_left fun quiet => by
    omega
  refine inv.change here rfl ?_ ?_ ?_ (fun _ => free) ?_ ?_ ?_
  · simp [member, notJoined]
  · simp [Cpu.locking, from_]
  · simp [Cpu.sharing, from_]
  · intro j c₀ ne there ok
    have unlocked := (alone ne there).1
    exact ok.keep rfl (by omega) fun _ => ⟨rfl, by omega⟩
  · simp [CpuOk]
  · apply phase_set here { s with participating := s.participating + 1 } rfl rfl
    intro a b advances behind
    rw [behind_passed { c with pc := .unlock, generation := s.generation + 1, joined := true }
      rfl] at behind
    simp only [advancing, from_] at advances
    right
    exact ⟨by omega, by omega, by simp only; omega⟩

/-- A CPU passes: one of those that were counted. -/
theorem Inv.pass (from_ : c.pc = .pass) :
    1 ≤ s.outstanding ∧ Inv (State.setCpu { s with outstanding := s.outstanding - 1 } i
      (if 1 < s.outstanding then { c with generation := c.generation + 1 }.finish
        else { c with generation := c.generation + 1, pc := .lockShared })) := by
  have ok := inv.each here
  simp only [CpuOk, from_] at ok
  obtain ⟨-, joined, current⟩ := ok
  have counted : c.behind s.generation = 1 := by simp [behind, joined, current]
  have mine : c.behind s.generation ≤ s.behind := le_sum (behind s.generation) here
  have member : c.member ≤ s.members := le_sum member here
  rw [inv.members] at member
  have one : c.member = 1 := by simp [Cpu.member, joined]
  obtain ⟨quiet, -, count⟩ := inv.phase.resolve_right fun busy => by omega
  obtain ⟨count, positive⟩ := count (by omega)
  have others {j : Nat} {c₀ : Cpu} (ne : j ≠ i) (there : s.cpus[j]? = some c₀)
    (ok : CpuOk s c₀) :
      CpuOk { s with outstanding := s.outstanding - 1 } c₀ := by
    have out : c₀.advancing ≤ s.advancing := le_sum advancing there
    exact ok.keep rfl (fun _ => ⟨rfl, by omega⟩) (by omega)
  have next : c.generation + 1 = s.generation + 1 := by rw [current]
  split
  case isTrue more =>
    refine ⟨positive, inv.change here rfl ?_ ?_ ?_ inv.apart others ?_ ?_⟩
    · simp [Cpu.member, Cpu.finish]
    · simp [Cpu.locking, from_, Cpu.finish]
    · simp [Cpu.sharing, from_, Cpu.finish]
    · simp [CpuOk, finish, joined, current]
    · apply phase_set here { s with outstanding := s.outstanding - 1 } rfl rfl
      intro a b advances behind
      rw [behind_passed (finish { c with generation := c.generation + 1 }) next] at behind
      simp only [advancing, finish, from_] at advances
      left
      exact
        ⟨by omega, by simp only; omega, fun _ => ⟨by simp only; omega, by simp only; omega⟩⟩
  case isFalse last =>
    refine ⟨positive, inv.change here rfl ?_ ?_ ?_ inv.apart others ?_ ?_⟩
    · simp [Cpu.member]
    · simp [Cpu.locking, from_]
    · simp [Cpu.sharing, from_]
    · simp [CpuOk, joined]
      omega
    · apply phase_set here { s with outstanding := s.outstanding - 1 } rfl rfl
      intro a b advances behind
      rw [behind_passed { c with generation := c.generation + 1, pc := .lockShared } next] at behind
      simp only [advancing, from_] at advances
      right
      exact ⟨by omega, by omega, by simp only; omega⟩

/-- The last one to pass counts the participants anew. Nobody can join meanwhile. -/
theorem Inv.store (from_ : c.pc = .store) :
    Inv (State.setCpu { s with outstanding := s.participating } i
      { c with pc := .unlockShared }) := by
  have busy : c.advancing = 1 := by simp only [advancing, from_]
  obtain ⟨one, passed, some_cpu, alone⟩ := inv.advances here busy
  have ok := inv.each here
  simp only [CpuOk, from_] at ok
  obtain ⟨known, joined, -⟩ := ok
  have mine := inv.sharing ▸ le_sum Cpu.sharing here
  have share : c.sharing = 1 := by simp only [Cpu.sharing, from_]
  refine inv.change here rfl ?_ ?_ ?_ inv.apart ?_ ?_ ?_
  · simp [member]
  · simp [Cpu.locking, from_]
  · simp [Cpu.sharing, from_]
  · intro j c₀ ne there ok
    refine ok.keep rfl (fun held => ?_) fun busy => ?_
    · have := (inv.locked there held).2.1
      omega
    · have := alone ne there
      omega
  · simp only [CpuOk]
    exact ⟨known, joined, trivial⟩
  · apply phase_set here { s with outstanding := s.participating } rfl rfl
    intro a b advances behind
    have same : Cpu.behind s.generation { c with pc := .unlockShared } = c.behind s.generation :=
      rfl
    simp only [advancing, from_] at advances
    right
    exact ⟨by omega, by omega, some_cpu⟩

end

theorem CpuOk.bumped (ok : CpuOk s c) (passed : c.joined = true → c.generation = s.generation + 1) :
    CpuOk { s with generation := s.generation + 1 } c := by
  unfold CpuOk at *
  cases from_ : c.pc <;> simp_all

/-- Everybody has passed, so everybody is counted in the new generation. -/
theorem Inv.bump (inv : Inv s) (here : s.cpus[i]? = some c) (from_ : c.pc = .bump)
    (few : s.generation + 1 < u32Size) :
    Inv (State.setCpu { s with generation := (s.generation + 1) % u32Size } i c.finish) := by
  rw [Nat.mod_eq_of_lt few]
  have busy : c.advancing = 1 := by simp only [advancing, from_]
  obtain ⟨one, passed, some_cpu, alone⟩ := inv.advances here busy
  have ok := inv.each here
  simp only [CpuOk, from_] at ok
  obtain ⟨-, joined, counted⟩ := ok
  have every : (s.cpus.map (behind (s.generation + 1))).sum = s.members := by
    apply congrArg
    apply map_congr_left
    intro c₀ mem
    obtain ⟨j, there⟩ := getElem?_of_mem mem
    cases eq : c₀.joined with
    | false => simp [behind, member, eq]
    | true => simp [behind, member, eq, inv.passed there passed eq]
  refine inv.change here rfl ?_ ?_ ?_ inv.apart ?_ ?_ ?_
  · simp [member, finish]
  · simp [Cpu.locking, from_, Cpu.finish]
  · simp [Cpu.sharing, from_, Cpu.finish]
  · intro j c₀ ne there ok
    exact ok.bumped (inv.passed there passed)
  · simp [CpuOk, finish, joined, inv.passed here passed joined]
  · have advances := sum_set (y := c.finish) advancing here
    have behind := sum_set (y := c.finish) (behind (s.generation + 1)) here
    have advancing : (s.cpus.map advancing).sum = 1 := one
    have still : c.finish.behind (s.generation + 1) = c.behind (s.generation + 1) := rfl
    have quiet : c.finish.advancing = 0 := rfl
    have members := inv.members
    left
    simp only [State.advancing, State.behind, State.setCpu]
    exact ⟨by omega, by omega, by omega⟩

theorem Inv.next (inv : Inv s) (few : s.generation + 1 < u32Size) (here : s.cpus[i]? = some c)
    (goes : Rcu.next s c = some (c', s₁)) : Inv (s₁.setCpu i c') := by
  have ok := inv.each here
  unfold Rcu.next at goes
  cases from_ : c.pc <;> simp only [from_] at goes <;> simp only [CpuOk, from_] at ok
  case off | run | panic => cases goes
  case firstGeneration =>
    cases goes
    exact inv.first here from_
  case store =>
    cases goes
    exact inv.store here from_
  case bump =>
    cases goes
    exact inv.bump here from_ few
  case join =>
    rw [if_pos few] at goes
    cases goes
    exact inv.joins here from_
  case pass =>
    obtain ⟨counted, after⟩ := inv.pass here from_
    rw [if_pos ⟨by omega, counted⟩] at goes
    cases goes
    exact after
  case load =>
    obtain ⟨known, joined⟩ := ok
    rw [Nat.mod_eq_of_lt few] at goes
    split at goes
    case isTrue eq =>
      cases goes
      refine inv.goes here rfl rfl rfl rfl rfl rfl ?_ ?_ ?_ inv.apart ?_
      all_goals simp [Cpu.advancing, Cpu.locking, Cpu.sharing, CpuOk, from_, joined, eq]
    case isFalse ne =>
      have passed := (known joined).resolve_left fun eq => ne eq.symm
      rw [if_pos passed.symm] at goes
      cases goes
      refine inv.goes here rfl rfl rfl rfl rfl rfl ?_ ?_ ?_ inv.apart ?_
      all_goals simp [Cpu.advancing, Cpu.locking, Cpu.sharing, CpuOk, Cpu.finish, from_,
        joined, passed]
  case lock =>
    obtain ⟨⟨free, alone⟩, goes⟩ := ite_none_right_eq_some.mp goes
    cases goes
    refine inv.goes here rfl rfl rfl rfl rfl rfl ?_ ?_ ?_ (fun _ => alone) ?_
    all_goals
      split
      all_goals simp_all [Cpu.advancing, Cpu.locking, Cpu.sharing, CpuOk]
    omega
  case first =>
    cases goes
    obtain ⟨-, fresh, -⟩ := inv.phase.resolve_right fun busy => by omega
    refine inv.goes here rfl rfl (fresh ok.2.2).1.symm rfl rfl rfl ?_ ?_ ?_ inv.apart ?_
    all_goals simp_all [Cpu.advancing, Cpu.locking, Cpu.sharing, CpuOk]
  case spin =>
    cases goes
    refine inv.goes here rfl rfl rfl rfl rfl rfl ?_ ?_ ?_ inv.apart ?_
    all_goals
      split
      all_goals simp_all [Cpu.advancing, Cpu.locking, Cpu.sharing, CpuOk]
  case unlock =>
    cases goes
    obtain ⟨held, -⟩ := inv.locked here (by simp only [Cpu.locking, from_])
    refine inv.goes here rfl rfl rfl rfl rfl rfl ?_ ?_ ?_ nofun ?_
    all_goals simp_all [Cpu.advancing, Cpu.locking, Cpu.sharing, CpuOk]
  case lockShared =>
    obtain ⟨free, goes⟩ := ite_none_right_eq_some.mp goes
    cases goes
    refine inv.goes here rfl rfl rfl rfl rfl rfl ?_ ?_ ?_ ?_ ?_
    all_goals simp_all [Cpu.advancing, Cpu.locking, Cpu.sharing, CpuOk]
  case unlockShared =>
    cases goes
    have mine := inv.sharing ▸ le_sum Cpu.sharing here
    have share : c.sharing = 1 := by simp only [Cpu.sharing, from_]
    refine inv.goes here rfl rfl rfl rfl rfl rfl ?_ ?_ ?_ ?_ ?_
    · simp only [advancing, from_]
    · simp only [Cpu.locking, from_]
    · simp only [Cpu.sharing, from_]
      omega
    · intro held
      have := inv.apart held
      omega
    · exact ok

theorem Inv.step {e : Event} (inv : Inv s) (few : FewGenerations s e)
    (run : Rcu.step e s = some s') : Inv s' := by
  cases e with
  | start i =>
    obtain ⟨c, here, run⟩ := bind_eq_some_iff.mp run
    obtain ⟨from_, run⟩ := ite_none_right_eq_some.mp run
    cases run
    have goes : Inv (s.setCpu i { c with pc := .lock }) := by
      have ok := inv.each here
      refine inv.goes here rfl rfl rfl rfl rfl rfl ?_ ?_ ?_ inv.apart ?_
      all_goals simp_all [Cpu.advancing, Cpu.locking, Cpu.sharing, CpuOk]
    exact goes.congr rfl rfl rfl rfl rfl rfl
  | callback i =>
    obtain ⟨c, here, run⟩ := bind_eq_some_iff.mp run
    obtain ⟨from_, run⟩ := ite_none_right_eq_some.mp run
    cases run
    have ok := inv.each here
    refine inv.goes here rfl rfl rfl rfl rfl rfl ?_ ?_ ?_ inv.apart ?_
    all_goals simp_all [Cpu.advancing, Cpu.locking, Cpu.sharing, CpuOk]
  | next i =>
    obtain ⟨c, here, run⟩ := bind_eq_some_iff.mp run
    obtain ⟨⟨c', s₁⟩, goes, run⟩ := bind_eq_some_iff.mp run
    cases run
    exact inv.next few here goes
  | sync =>
    cases run
    exact inv.congr rfl rfl rfl rfl rfl rfl
  | syncNext j =>
    obtain ⟨y, here, run⟩ := bind_eq_some_iff.mp run
    cases from_ : y.pc with
    | load =>
      simp only [from_, some.injEq] at run
      subst run
      exact inv.congr rfl rfl rfl rfl rfl rfl
    | wait generation =>
      simp only [from_, some.injEq] at run
      subst run
      split
      · exact inv
      · exact inv.congr rfl rfl rfl rfl rfl rfl
    | returned => simp only [from_, reduceCtorEq] at run

end Steps

theorem inv_start (n : Nat) : Inv (start n) := by
  constructor
  · simp [State.members, start, member]
  · simp [start, locking]
  · simp [start, sharing]
  · intro
    rfl
  · intro i c here
    cases eq_of_mem_replicate (mem_of_getElem? here)
    simp [CpuOk]
  · left
    simp [State.advancing, start, advancing]

theorem inv_reached {n : Nat} {s : State} (reached : Reaches step FewGenerations (start n) s) :
    Inv s :=
  reached.invariant (inv_start n) fun few inv run => inv.step few run

/-- From the first participant on, `RCU_OUTSTANDING` counts those that have not passed
`RCU_GENERATION`, while no CPU advances. -/
theorem generations_counted {n : Nat} {s : State}
    (reached : Reaches step FewGenerations (start n) s) :
    (∀ {i : Nat} {c}, s.cpus[i]? = some c → c.joined = true →
      c.generation = s.generation ∨ c.generation = s.generation + 1) ∧
    (s.advancing = 0 → 0 < s.members → s.outstanding = s.behind) ∧ s.advancing ≤ 1 ∧
    ∀ {i : Nat} {c}, s.cpus[i]? = some c → c.pc ≠ .panic := by
  have inv := inv_reached reached
  refine ⟨fun here => (inv.each here).1, fun quiet some_cpu => ?_, ?_,
    fun {i c} here failed => ?_⟩
  · rw [inv.members] at some_cpu
    obtain ⟨-, -, count⟩ := inv.phase.resolve_right fun busy => by omega
    exact (count some_cpu).1
  · rcases inv.phase with ⟨quiet, -⟩ | ⟨one, -⟩
    · omega
    · omega
  · have ok := inv.each here
    simp only [CpuOk, failed, and_false] at ok

/-- Nobody takes part before the first scheduler starts, and one is outstanding. -/
theorem not_generations_counted : ∃ s, Reaches step FewGenerations (start 2) s ∧
    s.advancing = 0 ∧ s.outstanding ≠ s.behind :=
  ⟨start 2, .init, by decide, by decide⟩

/-- The first CPU starts, and the second one as the first passes generation 0. -/
def twoStart : List Event :=
  [.start 0, .next 0, .next 0, .next 0, .next 0, .start 1, .next 1, .callback 0, .next 0, .next 0,
    .next 1, .next 1, .next 1, .next 0, .next 0, .next 0, .next 0]

theorem generations_counted_two : ∃ s, Reaches step FewGenerations (start 2) s ∧
    s.members = 2 ∧ s.advancing = 0 ∧ s.outstanding = 2 ∧ s.outstanding = s.behind := by
  obtain ⟨s, reached, members, quiet, outstanding⟩ : ∃ s, Reaches step FewGenerations
    (start 2) s ∧
    s.members = 2 ∧ s.advancing = 0 ∧ s.outstanding = 2 :=
      exists_of_run twoStart (by decide +kernel)
  exact ⟨s, reached, members, quiet, outstanding, (generations_counted reached).2.1 quiet
    (by omega)⟩

end BadgerOS.Rcu
