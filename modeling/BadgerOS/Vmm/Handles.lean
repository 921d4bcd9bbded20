import BadgerOS.Vmm.Registrations

/-!
# Handles that are open for writing

`open`, `close` and `set_flags` of regular files, together with the calls on
address spaces: the counter of a file says whether it may be written to.
-/

namespace BadgerOS.Vmm

open Fallible Option

/-- The address spaces, and the number of open handles of each file that are
writable. -/
structure System where
  world : World
  writers : Nat → Nat

def onWorld {α : Type} (m : Kernel α) : Fallible System Errno α := fun σ =>
  (m σ.world).map fun (r, w) => (r, { σ with world := w })

/-- Set the counter of a file and the number of its writable handles. -/
def System.setWriters (object : Nat) (denywrite : Int) (writers : Nat) (σ : System) : System where
  world := σ.world.setVNode object { σ.world.vnodes object with denywrite := denywrite }
  writers := Function.update σ.writers object writers

/-- A handle gets the write flag, unless a mapping denies it. -/
def acquireWrite (object : Nat) : Fallible System Errno Unit := do
  let σ ← get
  let x := (σ.world.vnodes object).denywrite
  if x ≤ 0 then modify (System.setWriters object (x - 1) (σ.writers object + 1))
  else fail .etxtbsy

/-- A handle loses the write flag. -/
def releaseWrite (object : Nat) (σ : System) : System :=
  σ.setWriters object ((σ.world.vnodes object).denywrite + 1) (σ.writers object - 1)

/-- `open` of a regular file for writing. A handle that cannot be allocated is
dropped again. -/
def openWrite (env : Env) (object : Nat) : Fallible System Errno Unit := do
  acquireWrite object
  let _ ← (onWorld (allocate env)).onError (releaseWrite object)

/-- `Drop` of a writable handle. -/
def closeWrite (object : Nat) : Fallible System Errno Unit := do
  let σ ← get
  lift (debugAssert ((σ.world.vnodes object).denywrite ≤ -1))
  modify (releaseWrite object)

/-- The calls on address spaces, and those on handles: `open` for writing, `close`
of a writable handle, and `set_flags`, which adds or removes the write flag. -/
inductive FileCall where
  | vm (call : Call)
  | openWrite (object : Nat)
  | closeWrite (object : Nat)
  | setFlags (object : Nat) (write : Bool)

def fileExec (env : Env) : FileCall → Fallible System Errno Unit
  | .vm call => do
    let _ ← onWorld (exec env call)
  | .openWrite object => openWrite env object
  | .closeWrite object => closeWrite object
  | .setFlags object write => if write then acquireWrite object else modify (releaseWrite object)

/-- A call on address spaces is careful; a handle that is closed or loses its write
flag is there. -/
def FileCall.Careful (env : Env) (σ : System) : FileCall → Prop
  | .vm call => call.Careful env σ.world
  | .openWrite _ => True
  | .closeWrite object => 0 < σ.writers object
  | .setFlags object write => write = false → 0 < σ.writers object

instance {env : Env} {w : World} {i threshold : Nat} : Decidable (Uncut env w i threshold) :=
  inferInstanceAs (Decidable (∀ map ∈ w.maps[i]?, ∀ e ∈ map, e.MapsFile env →
    Beside threshold e))

instance {env : Env} {w : World} {i : Nat} : Decidable (NoFiles env w i) :=
  inferInstanceAs (Decidable (∀ map ∈ w.maps[i]?, ∀ e ∈ map, ¬ e.MapsFile env))

instance {env : Env} {w : World} {call : Call} : Decidable (Reserves env w call) :=
  inferInstanceAs (Decidable (∀ p ∈ exec env call w, ∀ t < p.2.tick, w.tick ≤ t →
    env.reserveOk t = true))

instance {env : Env} {w : World} : (call : Call) → Decidable (call.Careful env w)
  | .map .. => inferInstanceAs (Decidable (_ ∧ _ ∧ _))
  | .unmap .. => inferInstanceAs (Decidable (_ ∧ _))
  | .protect .. => inferInstanceAs (Decidable (_ ∧ _))
  | .fault .. => inferInstanceAs (Decidable True)
  | .fork i | .clear i | .drop i => inferInstanceAs (Decidable (NoFiles env w i))

instance {env : Env} {σ : System} : (call : FileCall) → Decidable (call.Careful env σ)
  | .vm call => inferInstanceAs (Decidable (call.Careful env σ.world))
  | .openWrite _ => inferInstanceAs (Decidable True)
  | .closeWrite _ => inferInstanceAs (Decidable (_ < _))
  | .setFlags .. => inferInstanceAs (Decidable (_ → _))

section Handles

variable {env : Env} {σ : System} {object : Nat}

theorem wlp_onWorld {α : Type} {m : Kernel α} {Q : α → System → Prop} {E : System → Prop} :
    wlp (onWorld m) Q E σ ↔
      wlp m (fun a w => Q a { σ with world := w }) (fun w => E { σ with world := w })
        σ.world := by
  constructor
  · intro h r w run
    refine h r _ ?_
    simp [onWorld, run]
  · intro h r σ' run
    simp only [onWorld, map_eq_some_iff, Prod.exists, Prod.mk.injEq] at run
    obtain ⟨r, w, run, rfl, rfl⟩ := run
    exact h r w run

/-- The records of the files agree with the entries and with the handles. -/
def System.Balanced (env : Env) (σ : System) : Prop :=
  Base σ.world ∧ σ.world.Registered env σ.writers

theorem System.Balanced.setWriters {denywrite : Int} {writers : Nat} (h : σ.Balanced env)
    (new : Matches (σ.world.vnodes object) (σ.writers object)
    (σ.world.mappingsOf object).flatten →
      Matches ⟨(σ.world.vnodes object).mappings, denywrite⟩ writers
        (σ.world.mappingsOf object).flatten) :
    (σ.setWriters object denywrite writers).Balanced env := by
  refine ⟨h.1.files _ (Nat.le_refl _), fun other file => ?_⟩
  by_cases heq : other = object
  · subst heq
    simp only [System.setWriters, World.setVNode_self, Function.update_self]
    exact new (h.2 other file)
  · simp only [System.setWriters, World.setVNode_other heq, Function.update_of_ne heq]
    exact h.2 other file

theorem acquireWrite_balanced (h : σ.Balanced env) : wlp (acquireWrite object)
      (fun _ σ' => σ'.Balanced env ∧ 0 < σ'.writers object) (System.Balanced env) σ := by
  simp only [acquireWrite, wlp_bind, wlp_get]
  split
  · rename_i allowed
    refine wlp_modify.mpr ⟨h.setWriters fun agree => agree.opened allowed, ?_⟩
    simp [System.setWriters]
  · exact wlp_fail.mpr h

theorem releaseWrite_balanced (h : σ.Balanced env) (writer : 0 < σ.writers object) :
    (releaseWrite object σ).Balanced env := by
  refine h.setWriters fun agree => ?_
  obtain ⟨n, hn⟩ : ∃ n, σ.writers object = n + 1 :=
    ⟨_, (Nat.succ_pred_eq_of_pos writer).symm⟩
  rw [hn] at agree ⊢
  exact agree.closed

theorem fileExec_balanced {call : FileCall} (careful : call.Careful env σ) (h : σ.Balanced env) :
    wlp (fileExec env call) (fun _ => System.Balanced env) (System.Balanced env) σ := by
  cases call with
  | vm call =>
    rw [fileExec, wlp_bind, wlp_onWorld]
    exact (exec_registered careful h.1 h.2).imp fun _ _ h => wlp_pure.mpr h
  | openWrite object =>
    rw [fileExec, openWrite, wlp_bind]
    refine (acquireWrite_balanced h).imp fun _ σ₁ ⟨h₁, writer⟩ => ?_
    rw [wlp_bind, wlp_onError, wlp_onWorld, wlp_allocate]
    have later : ∀ t, σ₁.world.tick ≤ t →
        System.Balanced env { σ₁ with world := { σ₁.world with tick := t } } :=
      fun t ht => ⟨h₁.1.files _ ht, h₁.2⟩
    refine ⟨fun _ => wlp_pure.mpr (later _ (Nat.le_succ _)), fun _ => ?_⟩
    exact releaseWrite_balanced (later _ (Nat.le_succ _)) writer
  | closeWrite object =>
    simp only [fileExec, closeWrite, wlp_bind, wlp_get, wlp_lift, wlp_modify]
    exact fun _ _ => releaseWrite_balanced h careful
  | setFlags object write =>
    cases write with
    | true => exact (acquireWrite_balanced h).imp fun _ _ h => h.1
    | false => exact wlp_modify.mpr (releaseWrite_balanced h (careful rfl))

/-- `open` for writing is refused while the counter is positive. -/
theorem openWrite_etxtbsy (env : Env) (object : Nat) (σ : System) : ∃ r σ',
    openWrite env object σ = some (r, σ') ∧
      (r = .error .etxtbsy ↔ 0 < (σ.world.vnodes object).denywrite) := by
  by_cases allowed : (σ.world.vnodes object).denywrite ≤ 0
  · have acquired : acquireWrite object σ = some (.ok (), σ.setWriters object
        ((σ.world.vnodes object).denywrite - 1) _) :=
      bind_eq_some.mpr (.inr ⟨σ, σ, rfl, by rw [if_pos allowed]; rfl⟩)
    have handle : ∀ σ₁ : System, ∃ r σ', (onWorld (allocate env)).onError
      (releaseWrite object) σ₁ = some (r, σ') ∧
          r ≠ .error .etxtbsy := by
      intro σ₁
      unfold onError onWorld allocate tryAlloc
      cases env.allocOk σ₁.world.tick with
      | true => exact ⟨.ok _, _, rfl, nofun⟩
      | false => exact ⟨.error .enomem, _, rfl, nofun⟩
    obtain ⟨r, σ', run, hne⟩ := handle (σ.setWriters object
      ((σ.world.vnodes object).denywrite - 1) _)
    have positive := not_lt.mpr allowed
    cases r with
    | error e =>
      refine ⟨.error e, σ', bind_eq_some.mpr (.inr ⟨(), _, acquired, ?_⟩), ?_⟩
      · exact bind_eq_some.mpr (.inl ⟨e, run, rfl⟩)
      · simp only [positive, iff_false]
        exact fun h => hne (by cases h; rfl)
    | ok ptr =>
      refine ⟨.ok (), σ', bind_eq_some.mpr (.inr ⟨(), _, acquired, ?_⟩), ?_⟩
      · exact bind_eq_some.mpr (.inr ⟨ptr, σ', run, rfl⟩)
      · simp [positive]
  · have refused : acquireWrite object σ = some (.error .etxtbsy, σ) :=
      bind_eq_some.mpr (.inr ⟨σ, σ, rfl, by simp [allowed]⟩)
    refine ⟨_, σ, bind_eq_some.mpr (.inl ⟨_, refused, rfl⟩), ?_⟩
    simpa using allowed

/-- From unused spaces, in every state that careful calls reach: the pairs that a
file knows of are those of the live entries that map it, its counter is the number
of entries that deny writing minus the number of writable handles, and it can be
opened for writing if and only if no entry denies it. -/
theorem registrations_balance {σ₀ : System} (fresh : σ₀.world.Fresh)
    (unmapped : ∀ object, env.isVNode object = true →
      σ₀.world.vnodes object = ⟨[], -(σ₀.writers object : Int)⟩)
    (h : Runs (fileExec env) (FileCall.Careful env) σ₀ σ) (object : Nat)
    (file : env.isVNode object = true) :
    (σ.world.vnodes object).mappings.Perm ((σ.world.mappingsOf object).flatten.map Prod.fst) ∧
    (σ.world.vnodes object).denywrite =
      ((σ.world.mappingsOf object).flatten.countP Prod.snd : Int) - σ.writers object ∧
    ∃ r σ', openWrite env object σ = some (r, σ') ∧
      (r = .error .etxtbsy ↔ ∃ m ∈ (σ.world.mappingsOf object).flatten, m.2 = true) := by
  have init : σ₀.Balanced env := by
    refine ⟨fresh.base, fun object file => ?_⟩
    have none : (σ₀.world.mappingsOf object).flatten = [] := by
      rw [List.flatten_eq_nil_iff]
      intro l hl
      obtain ⟨s, hs, rfl⟩ := List.mem_map.mp hl
      rw [(fresh.spaces s hs).1]
      rfl
    rw [unmapped object file, none]
    exact ⟨.nil, by simp, .inl rfl⟩
  have agree := (h.invariant init fileExec_balanced).2 object file
  obtain ⟨r, σ', run, refused⟩ := openWrite_etxtbsy env object σ
  refine ⟨agree.pairs, agree.count, r, σ', run, refused.trans ?_⟩
  rw [← not_le, agree.denywrite_le_zero, ← List.countP_pos_iff, Nat.pos_iff_ne_zero]

end Handles

/-- Two pages of the file 7 are mapped, without writers. -/
def mapFile : FileCall :=
  .vm (.map 0 8192 65536 0 0 (PRIVATE ||| FIXED ||| DENYWRITE) Prot.READ (some ⟨0, 7⟩))

theorem registrations_balance_mapped :
    ∃ (σ σ' : System), (σ.world.vnodes 7).mappings = [(0, 1)] ∧ (σ.world.vnodes
      7).denywrite = 1 ∧ openWrite calmEnv 7 σ = some (.error .etxtbsy, σ') := by
  obtain ⟨σ, run, live, writers⟩ : ∃ σ : System,
    Runs (fileExec calmEnv) (FileCall.Careful calmEnv)
      ⟨emptyWorld, fun _ => 0⟩ σ ∧ σ.world.mappingsOf 7 = [[((0, 1), true)]] ∧
          σ.writers 7 = 0 :=
    exists_of_runAll [mapFile] (by decide +kernel)
  have fresh : emptyWorld.Fresh := ⟨by simp [emptyWorld], rfl⟩
  obtain ⟨pairs, count, r, σ', opened, refused⟩ :=
    registrations_balance fresh (fun _ _ => rfl) run 7 rfl
  rw [live] at pairs count refused
  rw [writers] at count
  exact ⟨σ, σ', List.perm_singleton.mp pairs, count, by rw [opened, refused.mpr (by simp)]⟩

/-- A page that is left of a split mapping denies writing, but the file does not
know of it and can be opened for writing. -/
theorem not_registrations_balance :
    ∃ σ σ' : System, Runs (fileExec calmEnv) (fun _ _ => True) ⟨emptyWorld, fun _ => 0⟩
      σ ∧ σ.world.mappingsOf 7 = [[((0, 3), true)]] ∧ (σ.world.vnodes 7).mappings = [] ∧
      (σ.world.vnodes 7).denywrite = 0 ∧ openWrite calmEnv 7 σ = some (.ok (), σ') := by
  obtain ⟨σ, run, live, pairs, count, opened⟩ : ∃ σ : System,
    Runs (fileExec calmEnv) (fun _ _ => True)
      ⟨emptyWorld, fun _ => 0⟩ σ ∧ σ.world.mappingsOf 7 = [[((0, 3), true)]] ∧
      (σ.world.vnodes 7).mappings = [] ∧ (σ.world.vnodes 7).denywrite = 0 ∧
      (openWrite calmEnv 7 σ).map (·.1.isOk) = some true :=
    exists_of_runAll [mapFile, .vm (.unmap 0 65536 69632)] (by decide +kernel)
  obtain ⟨⟨_ | _, σ'⟩, opened, ok⟩ := map_eq_some_iff.mp opened
  · cases ok
  · exact ⟨σ, σ', run, live, pairs, count, opened⟩

end BadgerOS.Vmm
