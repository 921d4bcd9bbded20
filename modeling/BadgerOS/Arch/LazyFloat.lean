import BadgerOS.Lib.Interleaving

/-!
# Floating-point state of riscv64

`RiscvLazyFloat` in the exception handler of one CPU with any number of threads. The
registers are saved when a trap finds them dirty, loaded before the return to user mode,
and cleared when a thread first needs them. The kernel runs with the unit off, so that a trap
in it saves and loads nothing, except in the assembly of `enable`, where the unit is on and
so are interrupts. A step is one of these, an instruction of that assembly, a context
switch, or what user code does. `sigret`, which sets registers from user memory, is left out.
-/

namespace BadgerOS.LazyFloat

open Interleaving Option
open Function (update update_apply update_self)

attribute [local grind =] update_apply

/-- The field `FS` of `sstatus`. -/
inductive Fs where
  | off | init | clean | dirty
  deriving DecidableEq, Repr

/-- `fs | INIT`. -/
def Fs.orInit : Fs → Fs
  | .off | .init => .init
  | .clean | .dirty => .dirty

abbrev FRegs := Fin 32 → Nat

/-- Where a thread is. -/
inductive Phase where
  | user
  /-- In the handler of a trap. -/
  | trap
  /-- Between `load_lazy_state` and the return to user mode, where signals are delivered. -/
  | loaded
  /-- In `check_lazy_init_state` for a floating-point instruction. -/
  | illegal
  /-- In the assembly of `enable`, with so many registers cleared. -/
  | clearing (n : Nat)
  /-- In the handler of an interrupt of that assembly. -/
  | interrupted (n : Nat)
  /-- Between `enable` and the return to user mode. -/
  | enabled
  deriving DecidableEq, Repr

/-- Where a thread can be switched to another one. -/
def Phase.inKernel : Phase → Bool
  | .user | .clearing _ => false
  | _ => true

attribute [local grind] Phase.inKernel

structure State where
  -- of the CPU
  current : Nat
  freg : FRegs
  fcsr : Nat
  -- of each thread
  phase : Nat → Phase
  /-- In the trap frame of the thread, or in `sstatus` while it is in user mode. -/
  fs : Nat → Fs
  saved : Nat → FRegs
  savedFcsr : Nat → Nat
  -- History: what each thread has written.
  wrote : Nat → FRegs
  wroteFcsr : Nat → Nat

inductive Event where
  /-- User code changes registers, if the unit is on. -/
  | compute (freg : FRegs)
  | setFcsr (fcsr : Nat)
  /-- A trap, and one for an illegal floating-point instruction. -/
  | trap
  | illegal
  /-- `enable` begins, one instruction of its assembly, and an interrupt there with its return. -/
  | enable
  | clear
  | interrupt
  | resume
  /-- The return without `load_lazy_state`. -/
  | retry
  /-- `load_lazy_state`, and the return. -/
  | load
  | ret
  | switch (t : Nat)

section

variable (s : State)

def enter (phase : Phase) : State := { s with phase := update s.phase s.current phase }

/-- The assembly of `save_state`. -/
def store : State :=
  { s with
    saved := update s.saved s.current s.freg
    savedFcsr := update s.savedFcsr s.current s.fcsr }

/-- `save_state`. -/
def saveState : State :=
  if s.fs s.current ≠ .dirty then s
  else { store s with fs := update s.fs s.current .clean }

/-- `load_state`, which leaves `fcsr` alone. -/
def loadState : State :=
  if s.fs s.current = .off then s
  else { s with freg := s.saved s.current, fs := update s.fs s.current .clean }

/-- `enable` up to its assembly. The test for a unit that is on is `sstatus & (FS_MASK >> FS_BIT)`,
which are other bits of `sstatus`, and they are clear in a trap frame. -/
def enable : State := { s with fs := update s.fs s.current (s.fs s.current).orInit }

/-- The next instruction of the assembly: one register after the other, and then `fcsr`. -/
def clear (n : Nat) : State :=
  if h : n < 32 then enter { s with freg := update s.freg ⟨n, h⟩ 0 } (.clearing (n + 1))
  else enter { s with fcsr := 0 } .enabled

end

def step : Event → State → Option State
  | .compute freg, s =>
    if s.phase s.current = .user ∧ s.fs s.current ≠ .off then
      some { s with
        freg := freg
        fs := update s.fs s.current .dirty
        wrote := update s.wrote s.current freg }
    else none
  | .setFcsr fcsr, s =>
    if s.phase s.current = .user ∧ s.fs s.current ≠ .off then
      some { s with
        fcsr := fcsr
        fs := update s.fs s.current .dirty
        wroteFcsr := update s.wroteFcsr s.current fcsr }
    else none
  | .trap, s => if s.phase s.current = .user then some (enter (saveState s) .trap) else none
  | .illegal, s => if s.phase s.current = .user then some (enter (saveState s) .illegal) else none
  | .enable, s =>
    if s.phase s.current = .illegal then some (enter (enable s) (.clearing 0)) else none
  | .clear, s => match s.phase s.current with
    | .clearing n => some (clear s n)
    | _ => none
  -- The unit is on in the frame of the interrupt: registers are saved, and loaded at its return.
  | .interrupt, s => match s.phase s.current with
    | .clearing n => some (enter (store s) (.interrupted n))
    | _ => none
  | .resume, s => match s.phase s.current with
    | .interrupted n => some (enter { s with freg := s.saved s.current } (.clearing n))
    | _ => none
  | .retry, s => if s.phase s.current = .enabled then some (enter s .user) else none
  | .load, s => if s.phase s.current = .trap then some (enter (loadState s) .loaded) else none
  | .ret, s => if s.phase s.current = .loaded then some (enter s .user) else none
  | .switch t, s =>
    if (s.phase s.current).inKernel ∧ (s.phase t).inKernel then some { s with current := t }
    else none

/-- Threads start in the kernel. -/
def start (freg : FRegs) (fcsr : Nat) : State :=
  ⟨0, freg, fcsr, fun _ => .trap, fun _ => .off, fun _ _ => 0, fun _ => 0, fun _ _ => 0,
    fun _ => 0⟩

/-- Nobody changes `fcsr`, floating-point instructions are illegal only while the unit is off, there
is
no interrupt in the assembly of `enable`, and no switch between `enable` or `load_lazy_state` and
the return to user mode. -/
def Gentle (s : State) : Event → Prop
  | .setFcsr _ | .interrupt => False
  | .illegal => s.fs s.current = .off
  | .switch _ => s.phase s.current ≠ .enabled ∧ s.phase s.current ≠ .loaded
  | _ => True

instance {s : State} : (e : Event) → Decidable (Gentle s e)
  | .setFcsr _ | .interrupt => inferInstanceAs (Decidable False)
  | .illegal => inferInstanceAs (Decidable (s.fs s.current = .off))
  | .switch _ => inferInstanceAs (Decidable (_ ≠ Phase.enabled ∧ _ ≠ Phase.loaded))
  | .compute _ | .trap | .enable | .clear | .resume | .retry | .load | .ret =>
    inferInstanceAs (Decidable True)

structure Inv (s : State) : Prop where
  saved : ∀ t, s.fs t ≠ .dirty → s.saved t = s.wrote t
  unused : ∀ t, s.fs t = .off → s.wrote t = fun _ => 0
  dirty : ∀ t, s.fs t = .dirty → t = s.current ∧ s.phase t = .user
  illegal : ∀ t, s.phase t = .illegal → s.fs t = .off
  clearing : ∀ t n, s.phase t = .clearing n → s.fs t = .init ∧ s.wrote t = fun _ => 0
  below : ∀ n, s.phase s.current = .clearing n → ∀ i : Fin 32, i < n → s.freg i = 0
  calm : ∀ t n, s.phase t ≠ .interrupted n
  outside : ∀ t, t ≠ s.current → (s.phase t).inKernel ∧ s.phase t ≠ .enabled ∧
    s.phase t ≠ .loaded
  loaded : s.phase s.current ∈ [.user, .loaded, .enabled] → s.fs s.current ≠ .off →
    s.freg = s.wrote s.current
  fcsr : ∀ t, s.fs t ≠ .off → (∀ n, s.phase t ≠ .clearing n) → s.fcsr = 0
  fcsrs : ∀ t, s.wroteFcsr t = 0

theorem Inv.clear {s : State} {n : Nat} (inv : Inv s) (here : s.phase s.current = .clearing n) :
    Inv (clear s n) := by
  obtain ⟨saved, unused, dirty, illegal, clearing, below, calm, outside, loaded, fcsr, fcsrs⟩ :=
    inv
  obtain ⟨init, fresh⟩ := clearing s.current n here
  have below := below n here
  unfold LazyFloat.clear
  split
  · rename_i more
    constructor <;> dsimp only [enter]
    case below =>
      intro m eq i lt
      rw [update_self] at eq
      cases eq
      rw [update_apply]
      split
      · rfl
      · rename_i other
        simp only [Fin.ext_iff] at other
        exact below i (by omega)
    all_goals grind
  · have zero : s.freg = s.wrote s.current := by
      rw [fresh]
      exact funext fun i => below i (by omega)
    constructor <;> dsimp only [enter] <;> grind

theorem Inv.step {s s' : State} {e : Event} (inv : Inv s) (gentle : Gentle s e)
    (run : LazyFloat.step e s = some s') : Inv s' := by
  have whole := inv
  obtain ⟨saved, unused, dirty, illegal, clearing, below, calm, outside, loaded, fcsr, fcsrs⟩ :=
    inv
  cases e with
  | compute freg =>
    obtain ⟨⟨user, on⟩, run⟩ := ite_none_right_eq_some.mp run
    cases run
    constructor <;> grind
  | setFcsr fcsr => exact gentle.elim
  | trap =>
    obtain ⟨user, run⟩ := ite_none_right_eq_some.mp run
    cases run
    unfold saveState store
    split <;> constructor <;> dsimp only [enter] <;> grind
  | illegal =>
    obtain ⟨user, run⟩ := ite_none_right_eq_some.mp run
    cases run
    have off : s.fs s.current = .off := gentle
    unfold saveState
    constructor <;> dsimp only [enter] <;> grind
  | enable =>
    obtain ⟨here, run⟩ := ite_none_right_eq_some.mp run
    cases run
    have off := illegal s.current here
    have init : (s.fs s.current).orInit = .init := by rw [off]; rfl
    unfold enable
    constructor <;> dsimp only [enter] <;> grind
  | clear =>
    cases here : s.phase s.current with
    | clearing n =>
      simp only [LazyFloat.step, here] at run
      cases run
      exact whole.clear here
    | _ => simp [LazyFloat.step, here] at run
  | interrupt => exact gentle.elim
  | resume =>
    cases here : s.phase s.current with
    | interrupted n => exact absurd here (calm _ n)
    | _ => simp [LazyFloat.step, here] at run
  | retry =>
    obtain ⟨here, run⟩ := ite_none_right_eq_some.mp run
    cases run
    constructor <;> dsimp only [enter] <;> grind
  | load =>
    obtain ⟨here, run⟩ := ite_none_right_eq_some.mp run
    cases run
    unfold loadState
    split <;> constructor <;> dsimp only [enter] <;> grind
  | ret =>
    obtain ⟨here, run⟩ := ite_none_right_eq_some.mp run
    cases run
    constructor <;> dsimp only [enter] <;> grind
  | switch t =>
    obtain ⟨⟨here, there⟩, run⟩ := ite_none_right_eq_some.mp run
    cases run
    obtain ⟨notEnabled, notLoaded⟩ := gentle
    constructor <;> grind

/-- User code then finds in the registers what the thread has written, and zero before that. -/
theorem float_registers_isolated {freg : FRegs} {fcsr : Nat} {s : State}
    (reached : Reaches step Gentle (start freg fcsr) s) (user : s.phase s.current = .user)
    (on : s.fs s.current ≠ .off) :
    s.freg = s.wrote s.current ∧ s.fcsr = s.wroteFcsr s.current := by
  have inv : Inv s := by
    refine reached.invariant ?_ fun gentle inv run => inv.step gentle run
    constructor <;> simp [start, Phase.inKernel]
  refine ⟨inv.loaded (by simp [user]) on, ?_⟩
  rw [inv.fcsr _ on (by simp [user]), inv.fcsrs]

/-- The first use of the registers, up to the return. -/
def enabling : List Event := .illegal :: .enable :: List.replicate 33 .clear

/-- A thread starts to use the registers and is preempted by another one that writes to them. -/
def first (preempted : Bool) : List Event :=
  [.load, .ret] ++ enabling ++ if preempted then [] else [.retry, .trap]

def second : List Event :=
  [.switch 1, .load, .ret] ++ enabling ++ [.retry, .compute fun _ => 7, .trap, .switch 0]

theorem float_registers_isolated_preempted : ∃ s, Reaches step Gentle (start (fun _ => 5) 5) s ∧
    s.current = 0 ∧ s.wrote 1 0 = 7 ∧ s.freg = s.wrote 0 ∧ s.fcsr = s.wroteFcsr 0 := by
  obtain ⟨s, reached, current, wrote, user, clean⟩ : ∃ s,
      Reaches step Gentle (start (fun _ => 5) 5) s ∧
      s.current = 0 ∧ s.wrote 1 0 = 7 ∧ s.phase 0 = .user ∧ s.fs 0 = .clean :=
    exists_of_run (first false ++ second ++ [.load, .ret]) (by decide +kernel)
  have isolated := float_registers_isolated reached (by rw [current]; exact user)
    (by rw [current, clean]; decide)
  rw [current] at isolated
  exact ⟨s, reached, current, wrote, isolated⟩

/-- A thread that is preempted between `enable` and its return finds the registers of another one.
-/
theorem not_float_registers_isolated : ∃ s,
    Reaches step (fun _ _ => True) (start (fun _ => 5) 5) s ∧ s.current = 0 ∧
      s.phase 0 = .user ∧
      s.fs 0 ≠ .off ∧ s.wrote 0 0 = 0 ∧ s.freg 0 = s.wrote 1 0 ∧ s.wrote 1 0 = 7 :=
  exists_of_run (first true ++ second ++ [.retry]) (by decide +kernel)

end BadgerOS.LazyFloat
