import BadgerOS.Lib.Interleaving
import BadgerOS.Machine
import BadgerOS.Types

/-!
# Signal handlers

`run_handler` and `sigret` of a thread, with `enter_signal` and `exit_signal` of riscv64,
and the queues of pending signals with `kill`. User memory is what it would be read as by
`exit_signal`. `none` is a panic.
-/

namespace BadgerOS.Signal

open Option

abbrev Sigset := BitVec 1024

def bit (i : Nat) : Sigset := 1#1024 <<< i

def SIGKILL : Nat := 9
def SIGSEGV : Nat := 11
def SIGSTOP : Nat := 19

structure Siginfo where
  signo : Nat
  /-- `si_code as usize`. -/
  code : Nat
  pid : Nat
  deriving DecidableEq, Repr

structure Sigaction where
  handler : Nat
  restorer : Nat
  nodefer : Bool
  mask : Sigset
  deriving DecidableEq

/-- What user code sees: `pc` and the other general registers, and those of floating point. -/
structure Context where
  gregs : Fin 32 → Nat
  freg : Fin 32 → Nat
  fcsr : Nat

structure SignalFrame where
  info : Siginfo
  context : Context

structure Thread where
  context : Context
  sigprocmask : Sigset
  memory : Nat → SignalFrame

def Thread.sp (t : Thread) : Nat := t.context.gregs 2

structure Env where
  pid : Nat
  /-- The size of a signal frame, which is aligned to 16 bytes, and where its fields are in it. -/
  blocks : Nat
  info : Nat
  uctx : Nat
  /-- Whether a frame can be read and written. -/
  readable : Nat → Bool
  writable : Nat → Bool

section

variable (env : Env)

/-- The saved registers are those of the trap, so the ones that the handler starts with. -/
def enterSignal (t : Thread) (info : Siginfo) (handler returner : Nat) : Option Thread :=
  let sp := wrappingSub t.sp (16 * env.blocks)
  if env.writable sp = false then none
  else some { t with
    memory := fun a => if a = sp then ⟨info, t.context⟩ else t.memory a
    context.gregs := fun r =>
      if r = 0 then handler else if r = 1 then returner else if r = 2 then sp
      else if r = 10 then info.signo else if r = 11 then sp + env.info
      else if r = 12 then sp + env.uctx else t.context.gregs r }

/-- The registers are loaded from the frame, except `fcsr`, of which `load_state` loads nothing. -/
def exitSignal (t : Thread) : Option Thread :=
  if t.sp % 16 ≠ 0 then none
  else if env.readable t.sp = false then none
  else some { t with
    context.gregs := (t.memory t.sp).context.gregs
    context.freg := (t.memory t.sp).context.freg }

inductive Result where
  | died (signal : Nat)
  | paused (signal : Nat)
  | resumed (signal : Nat)
  | ignored
  | entered (t : Thread)

/-- The numbers that the enumeration `Signal` has. -/
abbrev IsSignal (signo : Nat) : Prop := (1 ≤ signo ∧ signo ≤ 33) ∨ signo = 35 ∨ signo = 64

/-- What is done about signals without a handler. -/
def defaultAction (signo : Nat) : Result :=
  if signo ∈ [6, 7, 8, 4, 3, 11, 31, 5, 24, 25] ∨
      signo ∈ [14, 1, 2, 13, 27, 30, 16, 15, 10, 12, 26] then .died signo
  else if signo ∈ [19, 21, 22] then .paused signo
  else if signo = 18 then .resumed signo
  else .ignored

/-- The mask while the handler runs. It is the code of the signal that is set, not its number. -/
def enteredMask (mask : Sigset) (info : Siginfo) (action : Sigaction) : Sigset :=
  (if action.nodefer then mask else mask ||| bit info.code) ||| action.mask

/-- `action` is the entry of the table for the signal. With `SIG_DFL` and `SIG_IGN` the number is
transmuted to a `Signal`, which panics in a debug build if there is none with this number. -/
def runHandler (action : Sigaction) (info : Siginfo) (t : Thread) : Option Result :=
  if info.signo = SIGKILL then some (.died info.signo)
  else if info.signo ≥ 65 then none
  else if action.handler = 0 then
    if IsSignal info.signo then some (defaultAction info.signo) else none
  else if action.handler = 1 then
    if ¬ IsSignal info.signo then none
    else if info.signo ∈ [11, 5, 4, 8] ∧ info.pid = env.pid then some (.died info.signo)
    else some .ignored
  else match enterSignal env t info action.handler action.restorer with
    | none => some (.died SIGSEGV)
    | some t =>
      if action.nodefer = false ∧ info.code ≥ 1024 then none
      else some (.entered { t with sigprocmask := enteredMask t.sigprocmask info action })

end

/-! ### Pending signals -/

/-- The first signal of a queue that can be delivered, and the queue without it. -/
def takeSig (mask : Sigset) : List Siginfo → Option (Option (Siginfo × List Siginfo))
  | [] => some none
  | info :: rest =>
    if info.signo = SIGSTOP ∨ info.signo = SIGKILL then some (some (info, rest))
    else if info.signo ≥ 1024 then none
    else if mask.getLsbD info.signo = false then some (some (info, rest))
    else (takeSig mask rest).map fun r => r.map fun (found, rest) => (found, info :: rest)

/-- The signals of the thread come before those of the process. -/
def getAsyncSig (isPoll : Bool) (mask : Sigset) (thread process : List Siginfo) :
    Option (Option Siginfo × List Siginfo × List Siginfo) := do
  match ← takeSig mask thread with
  | some (info, rest) => pure (some info, if isPoll then thread else rest, process)
  | none =>
    match ← takeSig mask process with
    | some (info, rest) => pure (some info, thread, if isPoll then process else rest)
    | none => pure (none, thread, process)

theorem takeSig_unblocked {mask : Sigset} {queue rest : List Siginfo} {info : Siginfo}
    (taken : takeSig mask queue = some (some (info, rest))) :
    info.signo = SIGSTOP ∨ info.signo = SIGKILL ∨ mask.getLsbD info.signo = false := by
  induction queue generalizing rest with
  | nil => cases taken
  | cons first queue ih =>
    unfold takeSig at taken
    split at taken
    · cases taken
      rename_i always
      obtain stop | kill := always
      · exact .inl stop
      · exact .inr (.inl kill)
    split at taken
    · cases taken
    split at taken
    · cases taken
      exact .inr (.inr ‹_›)
    · obtain ⟨r, found, taken⟩ := map_eq_some_iff.mp taken
      obtain ⟨⟨info', rest'⟩, rfl, taken⟩ := map_eq_some_iff.mp taken
      cases taken
      exact ih found

/-- A blocked signal is not taken out of the queues. -/
theorem getAsyncSig_unblocked {isPoll : Bool} {mask : Sigset}
    {thread process thread' process' : List Siginfo}
    {info : Siginfo}
    (taken : getAsyncSig isPoll mask thread process = some (some info, thread', process')) :
    info.signo = SIGSTOP ∨ info.signo = SIGKILL ∨ mask.getLsbD info.signo = false := by
  obtain ⟨first, found, taken⟩ := bind_eq_some_iff.mp taken
  split at taken
  · cases taken
    exact takeSig_unblocked found
  · obtain ⟨second, found, taken⟩ := bind_eq_some_iff.mp taken
    split at taken
    · cases taken
      exact takeSig_unblocked found
    · cases taken

/-! ### Nested handlers -/

/-- The mask that is to be set while the handler runs. -/
def handlerMask (mask : Sigset) (info : Siginfo) (action : Sigaction) : Sigset :=
  mask ||| action.mask ||| (if action.nodefer then 0 else bit info.signo)

/-- The handler asks for nothing that is not blocked before. -/
def Calm (mask : Sigset) (info : Siginfo) (action : Sigaction) : Prop :=
  mask ||| action.mask = mask ∧
    (action.nodefer = true ∨ (mask ||| bit info.signo = mask ∧ mask ||| bit info.code = mask))

/-- User code runs, with handlers that are entered and left again. -/
inductive Run (env : Env) : Thread → Thread → Prop
  | refl {t : Thread} : Run env t t
  | user {t t₁ t' : Thread} (same : t₁.sigprocmask = t.sigprocmask) (rest : Run env t₁ t') :
    Run env t t'
  | handler {t t₁ t₂ t₃ t' : Thread} {info : Siginfo} {action : Sigaction}
    (calm : Calm t.sigprocmask info action)
      (entered : runHandler env action info t = some (.entered t₁)) (body : Run env t₁ t₂)
      (left : exitSignal env t₂ = some t₃) (rest : Run env t₃ t') : Run env t t'

section

variable {env : Env} {t t₁ t₂ t₃ : Thread} {info : Siginfo} {action : Sigaction}

theorem runHandler_entered (entered : runHandler env action info t = some (.entered t₁)) :
    ∃ t₀, enterSignal env t info action.handler action.restorer = some t₀ ∧
      t₁ = { t₀ with sigprocmask := enteredMask t₀.sigprocmask info action } := by
  unfold runHandler at entered
  split at entered
  · cases entered
  split at entered
  · cases entered
  split at entered
  · split at entered
    · unfold defaultAction at entered
      split at entered
      · cases entered
      split at entered
      · cases entered
      split at entered <;> cases entered
    · cases entered
  split at entered
  · split at entered
    · cases entered
    split at entered <;> cases entered
  split at entered
  · cases entered
  rename_i t₀ enters
  split at entered
  · cases entered
  · cases entered
    exact ⟨t₀, enters, rfl⟩

theorem enterSignal_eq {handler returner : Nat}
    (enters : enterSignal env t info handler returner = some t₁) :
    t₁.sigprocmask = t.sigprocmask ∧ t₁.sp = wrappingSub t.sp (16 * env.blocks) ∧
      t₁.memory t₁.sp = ⟨info, t.context⟩ := by
  obtain ⟨-, enters⟩ := ite_none_left_eq_some.mp enters
  cases enters
  refine ⟨rfl, rfl, ?_⟩
  exact if_pos rfl

/-- The rest of the memory is left alone, and so is `fcsr`. -/
theorem enterSignal_frame {handler returner : Nat}
    (enters : enterSignal env t info handler returner = some t₁) :
    (∀ a ≠ wrappingSub t.sp (16 * env.blocks), t₁.memory a = t.memory a) ∧
      t₁.context.fcsr = t.context.fcsr := by
  obtain ⟨-, enters⟩ := ite_none_left_eq_some.mp enters
  cases enters
  exact ⟨fun a other => if_neg other, rfl⟩

theorem exitSignal_mask (left : exitSignal env t₂ = some t₃) :
    t₃.sigprocmask = t₂.sigprocmask := by
  obtain ⟨-, left⟩ := ite_none_left_eq_some.mp left
  obtain ⟨-, left⟩ := ite_none_left_eq_some.mp left
  cases left
  rfl

theorem exitSignal_memory (left : exitSignal env t₂ = some t₃) : t₃.memory = t₂.memory := by
  obtain ⟨-, left⟩ := ite_none_left_eq_some.mp left
  obtain ⟨-, left⟩ := ite_none_left_eq_some.mp left
  cases left
  rfl

theorem Calm.same {mask : Sigset} (calm : Calm mask info action) :
    enteredMask mask info action = mask ∧ handlerMask mask info action = mask := by
  obtain ⟨sub, nodefer | ⟨number, code⟩⟩ := calm
  · simp [enteredMask, handlerMask, nodefer, sub]
  · unfold enteredMask handlerMask
    split
    · simp [sub]
    · simp [sub, number, code]

theorem Calm.entered (calm : Calm t.sigprocmask info action)
    (entered : runHandler env action info t = some (.entered t₁)) :
    t₁.sigprocmask = t.sigprocmask := by
  obtain ⟨t₀, enters, rfl⟩ := runHandler_entered entered
  rw [← (enterSignal_eq enters).1] at calm ⊢
  exact calm.same.1

theorem Run.mask (run : Run env t t₁) : t₁.sigprocmask = t.sigprocmask := by
  induction run with
  | refl => rfl
  | user same _ ih => exact ih.trans same
  | handler calm entered _ left _ body rest =>
    rw [rest, exitSignal_mask left, body, calm.entered entered]

end

/-- If handlers ask for nothing that is not blocked before, the mask is as it should be
while a handler runs, and `sigret` gives back the mask and all registers, unless the handler
has changed `fcsr`. A blocked signal is never delivered. -/
theorem signal_masks_kept {env : Env} {t t₁ t₂ : Thread} {info : Siginfo} {action : Sigaction}
    (calm : Calm t.sigprocmask info action)
    (entered : runHandler env action info t = some (.entered t₁)) (body : Run env t₁ t₂) :
    t₂.sigprocmask = handlerMask t.sigprocmask info action ∧
    (t.sp % 16 = 0 → t₂.sp = t₁.sp → t₂.memory t₂.sp = t₁.memory t₁.sp →
    t₂.context.fcsr = t.context.fcsr →
      env.readable t₂.sp = true →
      ∃ t₃, exitSignal env t₂ = some t₃ ∧ t₃.sigprocmask = t.sigprocmask ∧
        t₃.context = t.context) ∧
    ∀ isPoll thread process found thread' process',
      getAsyncSig isPoll t₂.sigprocmask thread process = some (some found, thread', process') →
      found.signo = SIGSTOP ∨ found.signo = SIGKILL ∨
        t₂.sigprocmask.getLsbD found.signo = false := by
  have mask := body.mask.trans (calm.entered entered)
  refine ⟨mask.trans calm.same.2.symm, ?_, fun _ _ _ _ _ _ taken => getAsyncSig_unblocked taken⟩
  intro aligned sp intact fcsr readable
  obtain ⟨t₀, enters, rfl⟩ := runHandler_entered entered
  obtain ⟨-, there, saved⟩ := enterSignal_eq enters
  have sp : t₂.sp = t₀.sp := sp
  have aligned : t₂.sp % 16 = 0 := by
    rw [sp, there]
    simp only [wrappingSub, usizeSize]
    omega
  refine ⟨_, (if_neg (by simp [aligned])).trans (if_neg (by simp [readable])), mask, ?_⟩
  simp_all

/-- A thread with nothing blocked, whose stack can be accessed. -/
def quiet : Env := ⟨1, 70, 0, 160, fun _ => true, fun _ => true⟩

def idle : Thread := ⟨⟨fun _ => 0x20000, fun _ => 0, 0⟩, 0, fun _ =>
    ⟨⟨0, 0, 0⟩, fun _ => 0, fun _ => 0, 0⟩⟩

/-- `SIGUSR1` from `kill`, and a handler that blocks nothing else. -/
def userSignal : Siginfo := ⟨10, 0, 0⟩

/-- `SIGUSR2`. -/
def otherSignal : Siginfo := ⟨12, 0, 0⟩

def handled (nodefer : Bool) : Sigaction := ⟨0x10000, 0x10100, nodefer, 0⟩

/-- `SIG_DFL`. -/
def unhandled : Sigaction := ⟨0, 0, false, 0⟩

/-- A second signal is handled while the handler of the first one runs. -/
theorem signal_masks_kept_nested : ∃ t₁ u t₂ t₃,
    runHandler quiet (handled true) userSignal idle = some (.entered t₁) ∧
    runHandler quiet (handled true) otherSignal t₁ = some (.entered u) ∧
    exitSignal quiet u = some t₂ ∧
      t₂.sigprocmask = handlerMask 0 userSignal (handled true) ∧
    exitSignal quiet t₂ = some t₃ ∧ t₃.sigprocmask = 0 ∧ t₃.context = idle.context := by
  have calm (t : Thread) (info : Siginfo) : Calm t.sigprocmask info (handled true) :=
    ⟨BitVec.or_zero, .inl rfl⟩
  obtain ⟨t₁, entered, sp, fcsr⟩ : ∃ t₁,
      runHandler quiet (handled true) userSignal idle = some (.entered t₁) ∧
        t₁.sp = 0x1fba0 ∧
      t₁.context.fcsr = idle.context.fcsr := ⟨_, rfl, rfl, rfl⟩
  obtain ⟨u, again⟩ : ∃ u, runHandler quiet (handled true) otherSignal t₁ = some
      (.entered u) :=
    ⟨_, rfl⟩
  obtain ⟨t₀, enters, rfl⟩ := runHandler_entered again
  obtain ⟨stored, kept⟩ := enterSignal_frame enters
  obtain ⟨-, back, -⟩ := signal_masks_kept (calm t₁ otherSignal) again .refl
  obtain ⟨t₂, left, -, context⟩ := back (by rw [sp]) rfl rfl kept rfl
  have sp₂ : t₂.sp = t₁.sp := by
    unfold Thread.sp
    rw [context]
  have intact : t₂.memory t₂.sp = t₁.memory t₁.sp := by
    rw [exitSignal_memory left, sp₂]
    apply stored
    simp [sp, wrappingSub, usizeSize, quiet]
  obtain ⟨mask, back, -⟩ := signal_masks_kept (calm idle userSignal) entered
    (.handler (calm t₁ otherSignal) again .refl left .refl)
  obtain ⟨t₃, out, same, context'⟩ :=
    back (by decide) sp₂ intact (by rw [context, fcsr]) rfl
  exact ⟨t₁, _, t₂, t₃, entered, again, left, mask, out, same, context'⟩

/-- The handler runs with another signal blocked than its own, and that stays blocked. -/
theorem not_signal_masks_kept : ∃ t₁ t₃, runHandler quiet (handled false) userSignal idle =
    some (.entered t₁) ∧
    t₁.sigprocmask ≠ handlerMask idle.sigprocmask userSignal (handled false) ∧
    t₁.sigprocmask.getLsbD 10 = false ∧ exitSignal quiet t₁ = some t₃ ∧
      t₃.sigprocmask ≠ idle.sigprocmask := by
  refine ⟨_, _, rfl, ?_, ?_, rfl, ?_⟩
  · intro same
    have tenth := congrArg (·.getLsbD 10) same
    simp [enteredMask, handlerMask, handled, idle, userSignal, bit] at tenth
  · simp [enteredMask, handled, idle, userSignal, bit]
  · intro same
    have first := congrArg (·.getLsbD 0) same
    simp [enteredMask, handled, idle, userSignal, bit] at first

/-! ### Numbers from user code -/

open Interleaving List

/-- `si_signo as usize`, which extends the sign. -/
def asUsize (signum : BitVec 32) : Nat := (signum.toInt % usizeSize).toNat

/-- The queue is that of the process that is found, if there is one. `SI_USER` is 0, and so
are the fields about the sender. -/
def kill (signum : BitVec 32) (process : Option (List Siginfo)) : Except Errno (List Siginfo) :=
  if signum.toInt > 1023 then .error .eperm
  else match process with
    | none => .error .esrch
    | some queue => .ok (queue ++ [⟨asUsize signum, 0, 0⟩])

/-- What happens to a process: a signal is sent to it, or one of its threads looks for one,
in `block` or to handle it. Nothing sends a signal to one thread only. -/
inductive Event where
  | kill (signum : BitVec 32)
  | deliver (env : Env) (isPoll : Bool) (table : Nat → Sigaction) (t : Thread)

def step : Event → List Siginfo → Option (List Siginfo)
  | .kill signum, queue => some ((kill signum (some queue)).toOption.getD queue)
  | .deliver env isPoll table t, queue => do
    let (found, _, rest) ← getAsyncSig isPoll t.sigprocmask [] queue
    match found, isPoll with
    | some info, false => (runHandler env (table info.signo) info t).map fun _ => rest
    | _, _ => pure rest

def Sends (numbers : Set (BitVec 32)) : Event → Prop
  | .kill signum => signum ∈ numbers
  | .deliver .. => True

def Sane (queue : List Siginfo) : Prop := ∀ info ∈ queue, IsSignal info.signo ∧ info.code = 0

/-- The number is one of `Signal`, or it is refused. -/
def Valid (signum : BitVec 32) : Prop :=
  (1 ≤ signum.toInt ∧ signum.toInt ≤ 33) ∨ signum.toInt = 35 ∨ signum.toInt = 64 ∨
    1023 < signum.toInt

section

variable {env : Env} {t : Thread} {queue : List Siginfo} {signum : BitVec 32}

theorem isSignal_lt {signo : Nat} (valid : IsSignal signo) : signo < 65 := by
  unfold IsSignal at valid
  omega

/-- A number that is accepted is valid exactly if the enumeration has it. -/
theorem isSignal_iff (accepted : signum.toInt ≤ 1023) : IsSignal (asUsize signum) ↔
    Valid signum := by
  have range := signum.le_toInt
  simp only [IsSignal, Valid, asUsize, usizeSize]
  omega

theorem Sane.takeSig (sane : Sane queue) (mask : Sigset) :
    ∃ r, takeSig mask queue = some r ∧ ∀ x ∈ r, Sane (x.1 :: x.2) := by
  induction queue with
  | nil => exact ⟨none, rfl, nofun⟩
  | cons first queue ih =>
    obtain ⟨here, later⟩ := forall_mem_cons.mp sane
    have found : ∀ x ∈ some (first, queue), Sane (x.1 :: x.2) := fun | _, rfl => sane
    have small := isSignal_lt here.1
    unfold Signal.takeSig
    split
    · exact ⟨_, rfl, found⟩
    rw [if_neg (by omega)]
    split
    · exact ⟨_, rfl, found⟩
    obtain ⟨r, taken, rest⟩ := ih later
    refine ⟨_, congrArg (Option.map _) taken, ?_⟩
    intro x mem
    obtain ⟨y, rfl, rfl⟩ := map_eq_some_iff.mp mem
    obtain ⟨ok, rest⟩ := forall_mem_cons.mp (rest y rfl)
    exact forall_mem_cons.mpr ⟨ok, forall_mem_cons.mpr ⟨here, rest⟩⟩

theorem runHandler_isSome {info : Siginfo} {action : Sigaction} (signo : IsSignal info.signo)
    (code : info.code = 0) : (runHandler env action info t).isSome = true := by
  have small : ¬ (action.nodefer = false ∧ info.code ≥ 1024) := by omega
  unfold runHandler
  simp only [if_neg (isSignal_lt signo).not_ge, if_neg small, if_pos signo,
    if_neg (not_not_intro signo)]
  split_ifs
  all_goals try rfl
  split <;> rfl

theorem Sane.step {e : Event} {numbers : Set (BitVec 32)}
    (ok : ∀ signum ∈ numbers, Valid signum) (sane : Sane queue) (sends : Sends numbers e) :
    ∃ queue', step e queue = some queue' ∧ Sane queue' := by
  cases e with
  | kill signum =>
    dsimp only [Signal.step, kill]
    split_ifs with large
    · exact ⟨queue, rfl, sane⟩
    · refine ⟨_, rfl, forall_mem_append.mpr ⟨sane, ?_⟩⟩
      have accepted : signum.toInt ≤ 1023 := by omega
      exact forall_mem_singleton.mpr ⟨(isSignal_iff accepted).mpr (ok signum sends), rfl⟩
  | deliver env isPoll table t =>
    obtain ⟨r, taken, found⟩ := sane.takeSig t.sigprocmask
    simp only [Signal.step, getAsyncSig, Signal.takeSig, taken, bind_eq_bind, bind_some]
    cases r with
    | none => exact ⟨queue, rfl, sane⟩
    | some x =>
      obtain ⟨⟨signo, code⟩, later⟩ := forall_mem_cons.mp (found x rfl)
      cases isPoll with
      | true => exact ⟨queue, rfl, sane⟩
      | false =>
        obtain ⟨r, ran⟩ := isSome_iff_exists.mp (runHandler_isSome signo code)
        exact ⟨x.2, congrArg (Option.map _) ran, later⟩

/-- A number that is accepted and that no signal has is used all the same. -/
theorem kill_panics (accepted : signum.toInt ≤ 1023) (invalid : ¬ IsSignal (asUsize signum)) :
    ∃ queue, step (.kill signum) [] = some queue ∧
      step (.deliver quiet false (fun _ => unhandled) idle) queue = none := by
  refine ⟨[⟨asUsize signum, 0, 0⟩], ?_, ?_⟩
  · simp [step, kill, accepted.not_gt, Except.toOption]
  · have other : asUsize signum ≠ SIGKILL ∧ asUsize signum ≠ SIGSTOP := by
      constructor <;> intro eq <;> rw [eq] at invalid <;> exact invalid (by decide)
    by_cases huge : asUsize signum ≥ 1024
    · simp [step, getAsyncSig, takeSig, huge, other]
    · simp [step, getAsyncSig, takeSig, huge, runHandler, invalid, other, idle, unhandled]

end

/-- Whatever signals are sent and delivered, there is no panic as long as every number that is not
refused is one of `Signal`. The masks have 1024 bits, the table has 65 entries, the enumeration
has 35 members, and only the upper bound of the masks is checked. -/
theorem kill_never_panics_iff (numbers : Set (BitVec 32)) :
    (∀ queue e, Reaches step (fun _ => Sends numbers) [] queue → Sends numbers e →
      step e queue ≠ none) ↔ ∀ signum ∈ numbers, Valid signum := by
  constructor
  · intro safe signum mem
    by_contra bad
    have accepted : signum.toInt ≤ 1023 := by
      unfold Valid at bad
      omega
    have invalid : ¬ IsSignal (asUsize signum) :=
      fun valid => bad ((isSignal_iff accepted).mp valid)
    obtain ⟨queue, sent, panics⟩ := kill_panics accepted invalid
    exact safe queue (.deliver ..) (.next (k := .kill signum) .init mem sent) trivial panics
  · intro ok queue e reached sends
    have sane : Sane queue := by
      apply reached.invariant
      · nofun
      · intro e queue queue' sends sane ran
        obtain ⟨_, ran', sane'⟩ := sane.step ok sends
        cases ran.symm.trans ran'
        exact sane'
    obtain ⟨queue', ran, -⟩ := sane.step ok sends
    exact ran.trans_ne nofun

/-- The number 65 is queued, and there is no entry for it. -/
theorem not_kill_never_panics : ∃ queue, step (.kill 65) [] = some queue ∧
    step (.deliver quiet false (fun _ => handled false) idle) queue = none :=
  ⟨[⟨65, 0, 0⟩], by simp [step, kill, asUsize, Except.toOption, usizeSize],
    by simp [step, getAsyncSig, takeSig, runHandler, SIGKILL, SIGSTOP, idle]⟩

end BadgerOS.Signal
