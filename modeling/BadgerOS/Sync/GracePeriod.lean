import BadgerOS.Sync.Rcu

/-!
# Grace periods

`rcu_sync` waits for `RCU_GENERATION` to change. That needs every participant to pass
the generation, but a participant may have passed it before the call.
-/

namespace BadgerOS.Rcu

open Interleaving Option List

/-- The CPU is in `sched_callback`. -/
def Cpu.calling (c : Cpu) : Bool :=
  match c.pc with
  | .load | .pass | .lockShared | .store | .unlockShared | .bump => true
  | .off | .lock | .first | .firstGeneration | .spin | .join | .unlock | .run | .panic => false

/-- A callback that is counted in `begun` has not ended if the CPU is in it. -/
def Cpu.Counted (c : Cpu) : Prop := c.begun = c.ended + c.calling.toNat

/-- The CPU has ended a callback after the first `b`, or it has to do so before
`RCU_GENERATION`, which is `g`, is counted up. -/
def Owes (s : State) (g b : Nat) (c : Cpu) : Prop :=
  c.joined = true ∧ b ≤ c.begun ∧ (b < c.ended ∨
    (s.generation = g ∧ (c.generation = g ∧ (c.calling = true → b < c.begun) ∨
      c.advancing = 1 ∧ b < c.begun)))

section Steps

variable {s s₁ : State} {i : Nat} {c c' c₀ : Cpu} {g b : Nat}

section

variable (goes : next s c = some (c', s₁))
include goes

theorem next_frame :
    s₁.cpus = s.cpus ∧ s₁.syncs = s.syncs ∧ s₁.running = s.running ∧
      (c.joined = true → c'.joined = true) ∧ c.ended ≤ c'.ended ∧ c'.begun = c.begun := by
  unfold next at goes
  cases from_ : c.pc <;> grind [Cpu.finish]

theorem next_counted (counted : c.Counted) (alive : c'.pc ≠ .panic) : c'.Counted := by
  unfold next at goes
  cases from_ : c.pc <;> grind [Cpu.finish, Cpu.Counted, Cpu.calling]

/-- The generation changes when a CPU has advanced, or is set before there are participants. -/
theorem next_generation : s₁.generation = s.generation ∨ c.pc = .bump ∨
    c.pc = .firstGeneration := by
  unfold next at goes
  cases from_ : c.pc <;> grind

end

theorem Owes.mine (owes : Owes s g b c) (inv : Inv s) (few : s.generation + 1 < u32Size)
    (here : s.cpus[i]? = some c) (counted : c.Counted) (goes : next s c = some (c', s₁)) :
    Owes s₁ g b c' := by
  have ok := inv.each here
  unfold next at goes
  unfold CpuOk at ok
  cases from_ : c.pc <;> grind [Owes, Cpu.finish, Cpu.Counted, Cpu.calling, Cpu.advancing]

theorem Owes.other {j : Nat} (owes : Owes s g b c₀) (inv : Inv s) (here : s.cpus[i]? = some c)
    (there : s.cpus[j]? = some c₀) (ne : j ≠ i) (goes : next s c = some (c', s₁)) :
    Owes s₁ g b c₀ := by
  obtain ⟨joined, begun, owes⟩ := owes
  refine ⟨joined, begun, ?_⟩
  rcases next_generation goes with same | from_ | from_
  · rw [same]
    exact owes
  · -- the others have passed and do not advance, so they have ended their callbacks
    obtain ⟨-, passed, -, alone⟩ := inv.advances here (by simp only [Cpu.advancing, from_])
    have next := inv.passed there passed joined
    have idle := alone ne there
    omega
  · have ok := inv.each here
    simp only [CpuOk, from_] at ok
    have absent := inv.absent ok.2.2 there
    rw [absent] at joined
    cases joined

end Steps

/-- What a call of `rcu_sync` knows of a CPU that has begun `b` callbacks before it. -/
def Knows (s : State) (b : Nat) (c : Cpu) : SyncPc → Prop
  | .load => c.joined = true ∧ b ≤ c.begun
  | .wait g => Owes s g b c
  | .returned => b < c.ended

structure Account (s : State) : Prop where
  inv : Inv s
  counted : ∀ {i : Nat} {c}, s.cpus[i]? = some c → c.Counted
  running : ∀ {i : Nat} {c}, s.cpus[i]? = some c → c.pc ≠ .off → 0 < s.running
  syncs : ∀ {j : Nat} {y : Sync}, s.syncs[j]? = some y → ∀ {i : Nat} {b c},
    y.need[i]? = some (some b) → s.cpus[i]? = some c → Knows s b c y.pc

/-- Each CPU that was a participant at the call of `rcu_sync` has ended a callback that
began since, or it has not passed the generation and is in no callback that began before. -/
def Sync.Fresh (s : State) (y : Sync) : Prop :=
  ∀ p ∈ y.need.zip s.cpus, ∀ b ∈ p.1,
    b < p.2.ended ∨ p.2.generation = s.generation ∧ (p.2.calling = true → b < p.2.begun)

instance (s : State) (y : Sync) : Decidable (y.Fresh s) :=
  inferInstanceAs (Decidable (∀ p ∈ y.need.zip s.cpus, ∀ b ∈ p.1, _ ∨ _))

/-- So it is when `rcu_sync` loads `RCU_GENERATION`. -/
def Fresh (s : State) : Event → Prop
  | .syncNext j => ∀ y ∈ s.syncs[j]?, y.pc = .load → y.Fresh s
  | _ => True

instance (s : State) : (e : Event) → Decidable (Fresh s e)
  | .syncNext j => inferInstanceAs (Decidable (∀ y ∈ s.syncs[j]?, y.pc = .load → y.Fresh s))
  | .start _ | .callback _ | .next _ | .sync => .isTrue trivial

def Timely (s : State) (e : Event) : Prop := FewGenerations s e ∧ Fresh s e

instance (s : State) (e : Event) : Decidable (Timely s e) := inferInstanceAs (Decidable (_ ∧ _))

variable {y : Sync} {s₁ : State} {pc : SyncPc}

section Run

variable {s s' : State} {i j : Nat} {c c' : Cpu} {b : Nat} {y' : Sync} {e : Event}

/-- A CPU goes on. -/
theorem Account.change (account : Account s) (here : s.cpus[i]? = some c) (cpus : s₁.cpus = s.cpus)
    (syncs : s₁.syncs = s.syncs) (inv : Inv (s₁.setCpu i c')) (counted : c'.Counted)
    (running : s.running ≤ s₁.running) (started : c'.pc ≠ .off → 0 < s₁.running)
    (mine : ∀ {b pc}, Knows s b c pc → Knows s₁ b c' pc)
    (others : ∀ {j c₀ b pc}, j ≠ i → s.cpus[j]? = some c₀ → Knows s b c₀ pc → Knows s₁ b c₀ pc) :
    Account (s₁.setCpu i c') := by
  have cases_cpu {j : Nat} {c₀ : Cpu} (there : (s₁.setCpu i c').cpus[j]? = some c₀) :
      (j = i ∧ c₀ = c') ∨ (j ≠ i ∧ s.cpus[j]? = some c₀) := by
    simp only [State.setCpu, cpus] at there
    grind
  constructor
  · exact inv
  · intro j c₀ there
    rcases cases_cpu there with ⟨rfl, rfl⟩ | ⟨-, there⟩
    · exact counted
    · exact account.counted there
  · intro j c₀ there on
    rcases cases_cpu there with ⟨rfl, rfl⟩ | ⟨-, there⟩
    · exact started on
    · exact Nat.lt_of_lt_of_le (account.running there on) running
  · intro j y called k b c₀ need there
    replace called : s.syncs[j]? = some y := by rw [← syncs]; exact called
    have known : Knows s₁ b c₀ y.pc := by
      rcases cases_cpu there with ⟨rfl, rfl⟩ | ⟨ne, there⟩
      · exact mine (account.syncs called need here)
      · exact others ne there (account.syncs called need there)
    exact known

theorem Sync.Fresh.owes (fresh : y.Fresh s) (need : y.need[i]? = some (some b))
    (here : s.cpus[i]? = some c) (known : Knows s b c .load) : Owes s s.generation b c := by
  have mem : (some b, c) ∈ y.need.zip s.cpus :=
    mem_of_getElem? (getElem?_zip_eq_some.mpr ⟨need, here⟩)
  refine ⟨known.1, known.2, ?_⟩
  rcases fresh _ mem b rfl with ended | passes
  · exact .inl ended
  · exact .inr ⟨rfl, .inl passes⟩

section

variable (here : s.cpus[i]? = some c) (goes : Rcu.next s c = some (c', s₁))
include here goes

theorem Knows.next (known : Knows s b c pc) (inv : Inv s)
    (few : s.generation + 1 < u32Size) (counted : c.Counted) : Knows s₁ b c' pc := by
  obtain ⟨-, -, -, joined, ended, begun⟩ := next_frame goes
  cases pc with
  | load => exact ⟨joined known.1, begun ▸ known.2⟩
  | wait g => exact Owes.mine known inv few here counted goes
  | returned => exact Nat.lt_of_lt_of_le known ended

theorem Knows.other {c₀ : Cpu} (known : Knows s b c₀ pc) (inv : Inv s)
    (there : s.cpus[j]? = some c₀) (ne : j ≠ i) : Knows s₁ b c₀ pc := by
  cases pc with
  | load | returned => exact known
  | wait g => exact Owes.other known inv here there ne goes

theorem Account.next (account : Account s) (few : s.generation + 1 < u32Size) :
    Account (s₁.setCpu i c') := by
  obtain ⟨cpus, syncs, running, -⟩ := next_frame goes
  have inv := account.inv.next few here goes
  have set : (s₁.setCpu i c').cpus[i]? = some c' := by
    have inside := (List.getElem?_eq_some_iff.mp here).1
    simp only [State.setCpu, cpus, getElem?_set_self inside]
  have alive : c'.pc ≠ .panic := fun failed => by
    have ok := inv.each set
    simp only [CpuOk, failed, and_false] at ok
  have on : c.pc ≠ .off := fun off => by simp only [Rcu.next, off, reduceCtorEq] at goes
  have counted := account.counted here
  refine account.change here cpus syncs inv (next_counted goes counted alive)
    (Nat.le_of_eq running.symm) ?_ ?_ ?_
  · rw [running]
    exact fun _ => account.running here on
  · exact fun known => known.next here goes account.inv few counted
  · exact fun ne there known => known.other here goes account.inv there ne

end

theorem Account.call (account : Account s) (inv : Inv s')
    (call : s' = { s with syncs := s.syncs ++ [⟨if s.running = 0 then .returned else .load,
      s.cpus.map fun c => if c.joined then some c.begun else none⟩] }) : Account s' := by
  subst call
  refine ⟨inv, account.counted, account.running, fun {j y} called {i b c} need here => ?_⟩
  rw [getElem?_append] at called
  split at called
  · exact account.syncs called need here
  · cases mem_singleton.mp (mem_of_getElem? called)
    simp only [getElem?_map, here, map_some, some.injEq] at need
    obtain ⟨joined, begun⟩ := ite_none_right_eq_some.mp need
    cases begun
    have on : c.pc ≠ .off := fun off => by
      have ok := account.inv.each here
      simp only [CpuOk, off] at ok
      simp [ok] at joined
    have busy := Nat.pos_iff_ne_zero.mp (account.running here on)
    simp only [if_neg busy]
    exact ⟨joined, Nat.le_refl _⟩

theorem Account.goesOn (account : Account s) (called : s.syncs[j]? = some y)
    (inv : Inv (s.setSync j y')) (same : y'.need = y.need)
    (goes : ∀ {i b : Nat} {c}, y.need[i]? = some (some b) → s.cpus[i]? = some c →
    Knows s b c y.pc → Knows s b c y'.pc) : Account (s.setSync j y') := by
  refine ⟨inv, account.counted, account.running, fun {k z} there {i b c} need here => ?_⟩
  have inside := (List.getElem?_eq_some_iff.mp called).1
  simp only [State.setSync] at there
  by_cases eq : k = j
  · subst eq
    rw [getElem?_set_self inside] at there
    cases there
    rw [same] at need
    exact goes need here (account.syncs called need here)
  · rw [getElem?_set_ne fun eq' => eq eq'.symm] at there
    exact account.syncs there need here

theorem Account.step (account : Account s) (timely : Timely s e) (run : Rcu.step e s = some s') :
    Account s' := by
  have inv := account.inv.step timely.1 run
  cases e with
  | start i =>
    obtain ⟨c, here, run⟩ := bind_eq_some_iff.mp run
    obtain ⟨from_, run⟩ := ite_none_right_eq_some.mp run
    cases run
    have counted := account.counted here
    have ok := account.inv.each here
    simp only [CpuOk, from_] at ok
    change Account (State.setCpu { s with running := s.running + 1 } i _)
    refine account.change here rfl rfl inv ?_ (Nat.le_succ _) (fun _ => Nat.succ_pos _) ?_
      fun _ _ known => known
    · simpa [Cpu.Counted, Cpu.calling, from_] using counted
    · intro b pc known
      cases pc with
      | load | returned => exact known
      | wait g =>
        have joined := known.1
        rw [ok.2] at joined
        cases joined
  | callback i =>
    obtain ⟨c, here, run⟩ := bind_eq_some_iff.mp run
    obtain ⟨from_, run⟩ := ite_none_right_eq_some.mp run
    cases run
    have counted := account.counted here
    have on := account.running here (by simp [from_])
    refine account.change here rfl rfl inv ?_ (Nat.le_refl _) (fun _ => on) ?_
      fun _ _ known => known
    · simpa [Cpu.Counted, Cpu.calling, from_] using counted
    · intro b pc known
      cases pc with
      | load => exact ⟨known.1, Nat.le_succ_of_le known.2⟩
      | wait g => grind [Knows, Owes, Cpu.advancing]
      | returned => exact known
  | next i =>
    obtain ⟨c, here, run⟩ := bind_eq_some_iff.mp run
    obtain ⟨⟨c', s₁⟩, goes, run⟩ := bind_eq_some_iff.mp run
    cases run
    exact account.next here goes timely.1
  | sync =>
    cases run
    exact account.call inv rfl
  | syncNext j =>
    obtain ⟨y, called, run⟩ := bind_eq_some_iff.mp run
    cases from_ : y.pc with
    | load =>
      simp only [from_, some.injEq] at run
      subst run
      have fresh := timely.2 y called from_
      refine account.goesOn called inv rfl fun need here known => ?_
      rw [from_] at known
      exact fresh.owes need here known
    | wait g =>
      simp only [from_, some.injEq] at run
      subst run
      split
      case isTrue => exact account
      case isFalse changed =>
        rw [if_neg changed] at inv
        refine account.goesOn called inv rfl fun need here known => ?_
        rw [from_] at known
        exact known.2.2.resolve_right fun current => changed current.1
    | returned => simp only [from_, reduceCtorEq] at run

end Run

theorem account_start (n : Nat) : Account (start n) := by
  refine ⟨inv_start n, fun here => ?_, fun here on => ?_, fun called => nomatch called⟩
  · cases eq_of_mem_replicate (mem_of_getElem? here)
    rfl
  · cases eq_of_mem_replicate (mem_of_getElem? here)
    contradiction

/-- If every call loads `RCU_GENERATION` in time, it returns only after each CPU that was
a participant at the call has ended a callback that began after it. -/
theorem grace_period_full {n : Nat} {s : State} (reached : Reaches step Timely (start n) s)
    {j : Nat} {y : Sync}
    (called : s.syncs[j]? = some y) (returned : y.pc = .returned) {i b : Nat} {c : Cpu}
    (need : y.need[i]? = some (some b)) (here : s.cpus[i]? = some c) : b < c.ended := by
  have account := reached.invariant (account_start n) fun timely account run =>
    account.step timely run
  have known := account.syncs called need here
  rw [returned] at known
  exact known

/-- The first CPU passes, then `rcu_sync` is called, and the other CPU passes. -/
def latePass : List Event :=
  twoStart ++ [.callback 0, .next 0, .next 0, .sync, .syncNext 0,
    .callback 1, .next 1, .next 1, .next 1, .next 1, .next 1, .next 1, .syncNext 0]

/-- The call returns, and the first CPU has had no callback since. -/
theorem not_grace_period_full : ∃ s y b c, Reaches step FewGenerations (start 2) s ∧
    s.syncs[0]? = some y ∧
    y.pc = .returned ∧ y.need[0]? = some (some b) ∧ s.cpus[0]? = some c ∧ c.begun = b ∧
      ¬ b < c.ended := by
  have ran : run step FewGenerations latePass (start 2) =
      some ⟨2, 2, 2, false, 0, 2, [⟨.run, 2, true, 2, 2⟩, ⟨.run, 2, true, 1, 1⟩],
          [⟨.returned, [some 2, some 0]⟩]⟩ := by
    decide +kernel
  exact ⟨_, _, 2, _, .of_run .init ran, rfl, rfl, rfl, rfl, rfl, by decide⟩

/-- The call comes before both pass. -/
theorem grace_period_full_early : ∃ s c, Reaches step Timely (start 2) s ∧
    s.syncs = [⟨.returned, [some 1, some 0]⟩] ∧ s.cpus[0]? = some c ∧ 1 < c.ended := by
  have ran : run step Timely (twoStart ++ [.sync, .syncNext 0, .callback 0, .next 0, .next 0,
      .callback 1, .next 1, .next 1, .next 1, .next 1, .next 1, .next 1, .syncNext 0]) (start 2) =
      some ⟨2, 2, 2, false, 0, 2, [⟨.run, 2, true, 2, 2⟩, ⟨.run, 2, true, 1, 1⟩],
          [⟨.returned, [some 1, some 0]⟩]⟩ := by
    decide +kernel
  have reached : Reaches step Timely (start 2) _ := .of_run .init ran
  exact ⟨_, _, reached, rfl, rfl, grace_period_full (j := 0) (i := 0) reached rfl rfl rfl rfl⟩

end BadgerOS.Rcu
