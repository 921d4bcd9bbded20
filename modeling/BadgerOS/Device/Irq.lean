import BadgerOS.Lib.Interleaving

/-!
# Interrupt handlers

`install_irq`, `uninstall_irq` and `run_handlers` of `device/class/irqctl.rs`, and the
interrupt map of `device/bus/soc.rs`, for calls that return no error.
-/

namespace BadgerOS.Irq

open Interleaving Function Option List

abbrev U128 := BitVec 128

/-- The interrupt of a device, and the device. -/
abbrev Handler := U128 × Nat

/-- A controller, and the number of one of its inputs. -/
abbrev Line := Nat × U128

structure SocIrqMapEntry where
  devAddr : U128
  devIrq : U128
  target : Line

structure SocIrqMap where
  addrMask : U128
  vectorMask : U128
  map : List SocIrqMapEntry

/-- The masks of the controllers, and the map of the bus. -/
structure Machine where
  mask : Nat → U128
  irqMap : Option SocIrqMap

structure State where
  handlers : Line → Option (List Handler)
  enabled : Line → Bool

section Calls

variable (k : Machine)

def Machine.masked (line : Line) : Line := (line.1, line.2 &&& k.mask line.1)

def installIrq (line : Line) (handler : Handler) (s : State) : State :=
  let line := k.masked line
  match s.handlers line with
  | some irq => { s with handlers := update s.handlers line (some (irq ++ [handler])) }
  | none => ⟨update s.handlers line (some [handler]), update s.enabled line true⟩

def uninstallIrq (line : Line) (handler : Handler) (s : State) : State :=
  let line := k.masked line
  match s.handlers line with
  | some irq =>
    let irq := irq.filter (· ≠ handler)
    ⟨update s.handlers line (some irq), if irq = [] then update s.enabled line false
      else s.enabled⟩
  | none => s

/-- The handlers that are run. -/
def runHandlers (line : Line) (s : State) : List Handler := (s.handlers (k.masked line)).getD []

def Machine.entry (devAddr : U128) (irq : SocIrqMap → U128) : Option SocIrqMapEntry :=
  k.irqMap.bind fun m => m.map.find? fun entry => entry.devAddr = devAddr &&& m.addrMask ∧
    entry.devIrq = irq m

/-- Without an entry it is `EINVAL` or `ENOENT`. -/
def mapInstallIrq (devAddr : U128) (handler : Handler) (s : State) : Option State :=
  (k.entry devAddr fun m => handler.1 &&& m.vectorMask).map fun entry =>
    installIrq k entry.target handler s

def mapUninstallIrq (devAddr : U128) (handler : Handler) (s : State) : State :=
  (k.entry devAddr fun _ => handler.1).elim s fun entry => uninstallIrq k entry.target handler s

inductive Args where
  | direct (line : Line) (handler : Handler)
  | mapped (devAddr : U128) (handler : Handler)

def Args.handler : Args → Handler
  | .direct _ handler | .mapped _ handler => handler

inductive Call where
  | install (args : Args)
  | uninstall (args : Args)

def call : Call → State → Option State
  | .install (.direct line handler), s => some (installIrq k line handler s)
  | .install (.mapped devAddr handler), s => mapInstallIrq k devAddr handler s
  | .uninstall (.direct line handler), s => some (uninstallIrq k line handler s)
  | .uninstall (.mapped devAddr handler), s => some (mapUninstallIrq k devAddr handler s)

/-! ### What is installed -/

/-- Where a handler is installed. -/
def Args.line : Args → Option Line
  | .direct line _ => some (k.masked line)
  | .mapped devAddr handler => (k.entry devAddr fun m => handler.1 &&& m.vectorMask).map
    (k.masked ·.target)

/-- Where it is looked for to be uninstalled. -/
def Args.found : Args → Option Line
  | .direct line _ => some (k.masked line)
  | .mapped devAddr handler => (k.entry devAddr fun _ => handler.1).map (k.masked ·.target)

/-- The handlers of each line that were installed and not yet uninstalled. -/
abbrev Installed := Line → List Handler

/-- To uninstall with the same arguments undoes an install. -/
def Installed.after (a : Installed) : Call → Installed
  | .install args => fun line => if some line = args.line k then a line ++ [args.handler]
    else a line
  | .uninstall args => fun line => if some line = args.line k then
    (a line).erase args.handler else a line

def step (c : Call) (x : State × Installed) : Option (State × Installed) :=
  (call k c x.1).map fun s => (s, x.2.after k c)

def start : State × Installed := (⟨fun _ => none, fun _ => false⟩, fun _ => [])

/-- The lines with a handler are enabled, and those handlers are run. -/
structure Follows (s : State) (a : Installed) : Prop where
  enabled (line : Line) : s.enabled line = true ↔ a line ≠ []
  handlers (line : Line) : (s.handlers line).getD [] = a line

/-- Nothing is installed on a line whose handlers were all removed, and what is uninstalled
is there at most once where it is looked for, or not at all if it is looked for elsewhere. -/
def Regular (s : State) : Call → Prop
  | .install args => ∀ line, some line = args.line k → s.handlers line ≠ some []
  | .uninstall args => ∀ line, some line = args.line k ∨ some line = args.found k →
    ((s.handlers line).getD []).count args.handler ≤ if args.line k = args.found k then 1 else 0

end Calls

variable {k : Machine} {s s' : State} {a : Installed} {line : Line} {h : Handler} {args : Args}

/-- All equal handlers are removed, and one is to be. -/
theorem filter_eq_erase {l : List Handler} : l.filter (· ≠ h) = l.erase h ↔
    l.count h ≤ 1 := by
  constructor
  · intro same
    have none : (l.filter (· ≠ h)).count h = 0 := by simp [count_eq_zero]
    rw [same, count_erase_self] at none
    omega
  · intro few
    induction l with
    | nil => rfl
    | cons x l ih =>
      by_cases hx : x = h
      · subst hx
        rw [erase_cons_head, filter_cons_of_neg (by simp), filter_eq_self]
        grind
      · rw [count_cons_of_ne hx] at few
        rw [erase_cons_tail (by simpa using hx), filter_cons_of_pos (by simpa using hx), ih few]

theorem Follows.install (f : Follows s a) (run : call k (.install args) s = some s') :
    Follows s' (a.after k (.install args)) ↔ Regular k s (.install args) := by
  obtain ⟨target, there, rfl⟩ : ∃ target, args.line k = some (k.masked target) ∧
      s' = installIrq k target args.handler s := by
    cases args with
    | direct target handler =>
      cases run
      exact ⟨target, rfl, rfl⟩
    | mapped devAddr handler =>
      obtain ⟨entry, found, rfl⟩ := map_eq_some_iff.mp run
      exact ⟨entry.target, by simp [Args.line, found], rfl⟩
  have was (line : Line) := f.enabled line
  have list (line : Line) := f.handlers line
  constructor
  · intro after line here empty
    have now := after.enabled line
    unfold installIrq at now
    grind [Installed.after]
  · intro regular
    have kept := regular _ there.symm
    dsimp only [installIrq]
    split <;> constructor <;> dsimp only [Installed.after] <;> grind [append_eq_nil_iff]

theorem Follows.uninstall (f : Follows s a) (run : call k (.uninstall args) s = some s') :
    Follows s' (a.after k (.uninstall args)) ↔ Regular k s (.uninstall args) := by
  obtain ⟨target, looked, rfl⟩ : ∃ target : Option Line,
    args.found k = target.map k.masked ∧
      s' = target.elim s (uninstallIrq k · args.handler s) := by
    cases args with
    | direct target handler =>
      cases run
      exact ⟨some target, rfl, rfl⟩
    | mapped devAddr handler =>
      cases run
      exists (k.entry devAddr fun _ => handler.1).map (·.target)
      dsimp only [mapUninstallIrq, Args.found]
      cases k.entry devAddr fun _ => handler.1 <;> exact ⟨rfl, rfl⟩
  generalize hs' : target.elim s (uninstallIrq k · args.handler s) = s'
  -- what is left on each line, which is enabled as long as something is
  obtain ⟨left, enabled⟩ : (∀ line, (s'.handlers line).getD [] =
      if some line = args.found k then (a line).filter (· ≠ args.handler) else a line) ∧
      ∀ line, s'.enabled line = true ↔ (s'.handlers line).getD [] ≠ [] := by
    rw [looked, ← hs', ← forall_and]
    intro line
    have was := f.enabled line
    have list := f.handlers line
    cases target with
    | none => exact ⟨list, list ▸ was⟩
    | some target =>
      dsimp only [elim_some, uninstallIrq]
      split <;> grind
  have same : Follows s' (a.after k (.uninstall args)) ↔
      ∀ line, (s'.handlers line).getD [] = a.after k (.uninstall args) line :=
    ⟨Follows.handlers, fun all => ⟨fun line => by rw [enabled, all], all⟩⟩
  rw [same]
  apply forall_congr'
  intro line
  simp only [left, Installed.after, f.handlers]
  by_cases there : some line = args.line k <;> by_cases found : some line = args.found k
  · rw [if_pos there, if_pos found, ← there, ← found, filter_eq_erase]
    simp
  · rw [if_pos there, if_neg found, if_neg (there ▸ found)]
    simp [there, eq_comm (a := a line), count_eq_zero]
  · rw [if_neg there, if_pos found, if_neg (found ▸ Ne.symm there)]
    simp [found]
    grind
  · simp [there, found]

/-- Lines follow their handlers as long as the calls are regular, and no longer. -/
theorem lines_follow_handlers (reached : Reaches (step k) (fun x => Regular k x.1) start (s, a)) :
    Follows s a ∧ (∀ line, runHandlers k line s = a (k.masked line)) ∧
      ∀ c s', call k c s = some s' → (Follows s' (a.after k c) ↔ Regular k s c) := by
  have next {c s s' a} (f : Follows s a) (run : call k c s = some s') : Follows s' (a.after k c) ↔
      Regular k s c := by
    cases c with
    | install args => exact f.install run
    | uninstall args => exact f.uninstall run
  have f : Follows s a := by
    apply reached.invariant (I := fun x => Follows x.1 x.2)
    · exact ⟨by simp [start], fun _ => rfl⟩
    · intro c x y regular f run
      obtain ⟨s', ran, rfl⟩ := map_eq_some_iff.mp run
      exact (next f ran).mpr regular
  exact ⟨f, fun line => f.handlers _, fun c s' run => next f run⟩

/-- One controller, whose input 3 gets what devices send as 1, 9, 17 and so on. -/
def board : Machine := ⟨fun _ => 255, some ⟨0, 7, [⟨0, 1, (0, 3)⟩]⟩⟩

/-- Two handlers are installed on a line, one of them through the map, and the other one is
uninstalled again. -/
theorem lines_follow_handlers_shared : ∃ x, Reaches (step board) (fun x => Regular board x.1)
    start x ∧ x.1.enabled (0, 3) = true ∧ runHandlers board (0, 3) x.1 = [(9, 7)] := by
  have first : Reaches (step board) (fun x => Regular board x.1) start _ :=
    Reaches.init.next (k := .install (.direct (0, 3) (1, 6))) (fun _ _ => nofun) rfl
  have second := first.next (k := .install (.mapped 0 (9, 7))) (by rintro line ⟨⟩; decide) rfl
  have third := second.next (k := .uninstall (.direct (0, 3) (1, 6)))
    (by rintro line (⟨⟨⟩⟩ | ⟨⟨⟩⟩) <;> decide) rfl
  obtain ⟨follows, runs, -⟩ := lines_follow_handlers third
  exact ⟨_, third, (follows.enabled _).mpr (by decide), runs (0, 3)⟩

/-- A line that was disabled stays so when a handler is installed again, two equal handlers
are uninstalled at once, and one with a masked number is not uninstalled through the map. -/
theorem not_lines_follow_handlers :
    (∃ x, Reaches (step board) (fun _ _ => True) start x ∧ x.1.enabled (0, 3) = false ∧
    x.2 (0, 3) = [(1, 7)]) ∧
    (∃ x, Reaches (step board) (fun _ _ => True) start x ∧ runHandlers board (0, 3) x.1 = [] ∧
    x.2 (0, 3) = [(1, 7)]) ∧
    ∃ x, Reaches (step board) (fun _ _ => True) start x ∧
      runHandlers board (0, 3) x.1 = [(9, 7)] ∧ x.2 (0, 3) = [] := by
  let args : Args := .direct (0, 3) (1, 7)
  refine ⟨exists_of_run [.install args, .uninstall args, .install args] ?_,
    exists_of_run [.install args, .install args, .uninstall args] ?_,
    exists_of_run [.install (.mapped 0 (9, 7)), .uninstall (.mapped 0 (9, 7))] ?_⟩
      <;> decide +kernel

end BadgerOS.Irq
