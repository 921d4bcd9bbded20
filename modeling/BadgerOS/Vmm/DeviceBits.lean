import BadgerOS.Vmm.Invariants

/-!
# Device memory attributes

`VmSpace::map` takes the bits for I/O and write combining out of the protection that a
process asks for. `VmSpace::protect` does not.
-/

namespace BadgerOS.Vmm

open Fallible Option List

/-- The protection bits that are for device memory. -/
def Prot.device : ProtFlags := Prot.IOMEM ||| Prot.WC

/-- The same bits of a page table entry. -/
def Mmu.device : MmuFlags := Mmu.IOMEM ||| Mmu.WC

/-! ### The calls of processes -/

/-- `is_canon_user_range`. -/
abbrev isCanonUserRange (env : Env) (start stop : Nat) : Prop :=
  start < env.canonHalfSize ∧ (stop ≤ start ∨ stop - 1 < env.canonHalfSize)

/-- `VmSpace::protect`. -/
def userProtect (env : Env) (i start stop : Nat) (protFlags : ProtFlags) : Kernel Unit :=
  if ¬ isCanonUserRange env start stop then fail .einval
  else if start % pageSize ≠ 0 then fail .einval
  else do
    let stop ← lift (roundUp stop)
    protect env i start stop protFlags

/-- `VmSpace::unmap`. -/
def userUnmap (env : Env) (i start stop : Nat) : Kernel Unit :=
  if ¬ isCanonUserRange env start stop then fail .einval else unmap env i start stop

/-- The system calls on memory, `fork`, and page faults. `prot` is a `c_int`. -/
inductive MemCall where
  | map (i address size : Nat) (prot : BitVec 32) (flags : MapFlags) (mapping : Option Mapping)
  | unmap (i address size : Nat)
  | protect (i address size : Nat) (prot : BitVec 32)
  | fork (i : Nat)
  | fault (i vaddr : Nat) (access : ProtFlags) (size : Nat)
  deriving DecidableEq, Repr

def memExec (env : Env) : MemCall → Kernel Nat
  | .map i address size prot flags mapping => userMap env i size address flags
    (prot.setWidth 8) mapping
  | .unmap i address size => do
    let stop ← lift (usizeAdd address size)
    userUnmap env i address stop
    pure 0
  | .protect i address size prot => do
    let stop ← lift (usizeAdd address size)
    userProtect env i address stop (prot.setWidth 8)
    pure 0
  | .fork i => do
    fork env i
    pure 0
  | .fault i vaddr access size => do
    fault env i vaddr access size
    pure 0

/-- `protect` is not called with the bits. -/
def MemCall.Ordinary : MemCall → Prop
  | .protect _ _ _ prot => ¬ Has (prot.setWidth 8) Prot.device
  | _ => True

instance : (call : MemCall) → Decidable call.Ordinary
  | .protect _ _ _ prot => inferInstanceAs (Decidable (¬ Has (prot.setWidth 8) Prot.device))
  | .map .. | .unmap .. | .fork .. | .fault .. => inferInstanceAs (Decidable True)

/-! ### Entries and page tables without the bits -/

def Ordinary (inner : MapEntryInner) : Prop := ¬ Has inner.protFlags Prot.device

def NoDevice (pmap : PhysMap) : Prop := ∀ page pte, pmap page = some pte →
    ¬ Has pte.flags Mmu.device

theorem has_device_intoMmuFlags : ∀ prot : ProtFlags, Has (intoMmuFlags prot) Mmu.device →
    Has prot Prot.device := by
  decide +kernel

theorem not_has_device_masked : ∀ prot : ProtFlags,
    ¬ Has (prot &&& ~~~ Prot.IOMEM &&& ~~~ Prot.WC) Prot.device := by
  decide +kernel

/-- A leaf gets the bits from its entry only. -/
theorem Ordinary.leafFlags {guard : MapEntryInner} (h : Ordinary guard) (page : MappablePage)
    (vaddr : Nat) : ¬ Has (leafFlags guard page vaddr) Mmu.device := by
  intro has
  unfold Vmm.leafFlags at has
  simp only [has_or] at has
  obtain (((has | has) | has) | has) | has := has
  · have prot := has_device_intoMmuFlags _ has
    split at prot
    · exact h prot.of_and
    · exact h prot
  · exact absurd has (by decide)
  all_goals split at has <;> exact absurd has (by decide)

variable {start stop t : Nat} {protFlags : ProtFlags}

namespace NoDevice

variable {pmap : PhysMap}

section

variable (h : NoDevice pmap)
include h

theorem unmapMultiple (vaddr size : Nat) : NoDevice (pmap.unmapMultiple vaddr size) := by
  intro page pte hpte
  unfold PhysMap.unmapMultiple at hpte
  split at hpte
  · cases hpte
  · exact h page pte hpte

theorem mapMultiple {flags : MmuFlags} (hflags : ¬ Has flags Mmu.device) (vaddr paddr len : Nat) :
    NoDevice (pmap.mapMultiple vaddr paddr flags len) := by
  intro page pte hpte
  unfold PhysMap.mapMultiple at hpte
  split at hpte
  · cases hpte
    exact hflags
  · exact h page pte hpte

theorem protect (spill : Nat → Bool) (vaddr size : Nat) (maxProt : MmuFlags) :
    NoDevice (pmap.protect spill vaddr size maxProt) := by
  intro page pte hpte
  unfold PhysMap.protect at hpte
  split at hpte
  · obtain ⟨old, hold, rfl⟩ := map_eq_some_iff.mp hpte
    exact fun has => h page old hold has.of_and
  · exact h page pte hpte

variable {env : Env} {map : List MapEntry}

theorem protectPmap : NoDevice (protectPmap env start stop t protFlags map pmap) := by
  induction map generalizing pmap with
  | nil => exact h
  | cons e rest ih =>
    unfold Vmm.protectPmap
    split
    · exact h
    · apply ih
      split
      · exact h.protect _ _ _ _
      · exact h

theorem forkEntries {pmap' : PhysMap} {t' : Nat} {r : Except Errno Unit} {new : List MapEntry}
    (run : forkEntries env map pmap t = (r, new, pmap', t')) : NoDevice pmap' := by
  induction map generalizing pmap t new with
  | nil =>
    cases run
    exact h
  | cons e rest ih =>
    have cow : NoDevice (cowProtect env e t pmap) := by
      unfold cowProtect
      split
      · exact h.protect _ _ _ _
      · exact h
    unfold Vmm.forkEntries at run
    cases ok : env.allocOk t with
    | false =>
      simp only [tryAlloc, ok, Bool.false_eq_true, if_false] at run
      cases run
      exact cow
    | true =>
      simp only [tryAlloc, ok, if_true] at run
      generalize rec : Vmm.forkEntries env rest (cowProtect env e t pmap) (t + 1) = result at run
      obtain ⟨r', new', pmap'', t''⟩ := result
      cases run
      exact ih cow rec

end

end NoDevice

theorem ordinary_protectEntries {map : List MapEntry}
    (h : ∀ e ∈ map, Ordinary e.inner) (hflags : ¬ Has protFlags Prot.device) :
    ∀ e ∈ protectEntries start stop protFlags map, Ordinary e.inner := by
  induction map with
  | nil => exact h
  | cons e rest ih =>
    rw [forall_mem_cons] at h
    unfold protectEntries
    split
    · exact forall_mem_cons.mpr h
    · refine forall_mem_cons.mpr ⟨?_, ih h.2⟩
      split
      · exact hflags
      · exact h.1

/-! ### Each call -/

section Calls

variable {env : Env} {i : Nat} {w : World}

theorem noDevice_plain : Plain env i (Each Ordinary NoDevice) := by
  apply Each.plain
  · intro pmap vaddr size h
    exact h.unmapMultiple vaddr size
  · intro e e' part h
    unfold Ordinary
    rw [(MapEntryInner.eq_of_bare part.inner).1]
    exact h

abbrev Clean (w : World) : Prop := Base w ∧ Each Ordinary NoDevice w

theorem noDevice_fault : FaultKept env i Clean where
  step := by
    rintro access j vaddr w w' s entry ⟨base, h⟩ hs hentry step
    refine ⟨base.faultStep hs hentry step, ?_⟩
    have ordinary := h.entry hs (mem_of_getElem? hentry)
    have evicted : Each Ordinary NoDevice (w.setPmap i (evict vaddr)) :=
      h.setPmap fun s _ hok => hok.unmapMultiple _ _
    have hs₁ := World.setPmap_get (evict vaddr) hs
    have kept {guard : MapEntryInner}
      (bare : { guard with amap := none } = { entry.inner with amap := none }) :
        Ordinary guard := by
      unfold Ordinary
      rw [(MapEntryInner.eq_of_bare bare).1]
      exact ordinary
    cases step with
    | stale => exact h
    | denied => exact evicted
    | failed w₁ hw₁ _ inside resolved =>
      subst hw₁
      exact evicted.setInner hs₁ (kept (MapEntryInner.resolve_guard resolved))
    | mapped w₁ done hw₁ _ inside resolved _ =>
      subst hw₁
      have guarded := kept (MapEntryInner.resolve_guard resolved)
      exact (evicted.setInner hs₁ guarded).setPmap fun s _ hok =>
        hok.mapMultiple (guarded.leafFlags _ _) _ _ _

section

variable (h : Clean w)
include h

theorem noDevice_map {size hint : Nat} {mapFlags : MapFlags} {mapping : Option Mapping}
    (hsize : env.canonHalfSize < usizeSize) :
    wlp (userMap env i size hint mapFlags protFlags mapping) (fun _ => Clean) Clean w := by
  unfold userMap
  split
  · exact wlp_fail.mpr h
  split
  · exact wlp_fail.mpr h
  · apply map_keeps noDevice_plain.kept noDevice_fault (fun w h => h.elim id id) hsize h
      (fun _ => ⟨trivial, trivial⟩)
    apply Each.insertKept noDevice_plain rfl
    exact not_has_device_masked protFlags

theorem noDevice_unmap : wlp (userUnmap env i start stop) (fun _ => Clean) Clean w := by
  unfold userUnmap
  split
  · exact wlp_fail.mpr h
  · exact unmap_keeps noDevice_plain.kept h ⟨trivial, trivial⟩

theorem noDevice_protect (hflags : ¬ Has protFlags Prot.device) :
    wlp (userProtect env i start stop protFlags) (fun _ => Clean) Clean w := by
  unfold userProtect
  split
  · exact wlp_fail.mpr h
  split
  · exact wlp_fail.mpr h
  · rw [wlp_bind, wlp_lift]
    intro stop _
    apply protect_keeps noDevice_plain.kept h ⟨trivial, trivial⟩
    intro w s ⟨base, h⟩ hs
    refine ⟨base.protect hs (Nat.le_succ _), ?_⟩
    apply Each.setMap
    · exact h.setPmap fun s _ hok => hok.protectPmap
    · exact ordinary_protectEntries (fun e he => h.entry hs he) hflags

theorem noDevice_fork : wlp (fork env i) (fun _ => Clean) Clean w := by
  apply (Base.fork h.1).both
  apply wlp_fork
  · intro s r new pmap t t' hs forked _
    have parent : NoDevice pmap := (h.2 s (mem_of_getElem? hs)).2.forkEntries forked
    exact h.2.setPmap (f := fun _ => pmap) fun _ _ _ => parent
  · intro s new pmap t hs forked
    have parent : NoDevice pmap := (h.2 s (mem_of_getElem? hs)).2.forkEntries forked
    have old : Each Ordinary NoDevice (w.setPmap i fun _ => pmap) := h.2.setPmap fun _ _ _ => parent
    intro s' hs'
    obtain hs' | hs' := mem_append.mp hs'
    · exact old s' hs'
    · rw [mem_singleton.mp hs']
      refine ⟨?_, nofun⟩
      intro e he
      obtain ⟨_, _, boxes⟩ := forkEntries_boxes forked
      obtain ⟨f, hf, same⟩ := (boxes e he).2.2
      rw [← same]
      exact h.2.entry hs hf

end

end Calls

/-- If `protect` is never called with the bits for device memory, no entry and no page table gets
them. -/
theorem user_memory_ordinary {env : Env} {w₀ w : World} (hsize : env.canonHalfSize < usizeSize)
    (fresh : w₀.Fresh) (h : Runs (memExec env) (fun _ call => call.Ordinary) w₀ w) :
    ∀ s ∈ w.spaces, (∀ e ∈ s.map, ¬ Has e.inner.protFlags Prot.device) ∧
      ∀ page pte, s.pmap page = some pte → ¬ Has pte.flags Mmu.device := by
  have init : Each Ordinary NoDevice w₀ := by
    intro s hs
    rw [(fresh.spaces s hs).1, (fresh.spaces s hs).2]
    exact ⟨nofun, nofun⟩
  have inv : Clean w := by
    refine h.invariant ⟨fresh.base, init⟩ ?_
    intro call w ordinary hw
    cases call with
    | map => exact noDevice_map hw hsize
    | unmap =>
      simp only [memExec, wlp_bind, wlp_lift]
      exact fun _ _ => (noDevice_unmap hw).imp fun _ _ h => wlp_pure.mpr h
    | protect =>
      simp only [memExec, wlp_bind, wlp_lift]
      exact fun _ _ => (noDevice_protect hw ordinary).imp fun _ _ h => wlp_pure.mpr h
    | fork => exact (noDevice_fork hw).andPure
    | fault => exact (noDevice_fault.fault hw).andPure
  exact inv.2

/-- A page is mapped writable, gets another protection, and is read. -/
def protectPage (prot : BitVec 32) : List MemCall :=
  [.map 0 65536 4096 3 (PRIVATE ||| FIXED) none, .protect 0 65536 4096 prot,
    .fault 0 65536 Prot.READ 1]

theorem user_memory_ordinary_read_only : ∃ (w : World) (s : Space) (pte : Pte),
    s ∈ w.spaces ∧ s.pmap 16 = some pte ∧ ¬ Has pte.flags Mmu.device := by
  have found :
    (runAll (memExec calmEnv) (fun _ call => call.Ordinary) (protectPage 1) emptyWorld).bind
      (fun w => w.spaces.head?.bind fun s => s.pmap 16) =
      some ⟨4096, Mmu.R ||| Mmu.A ||| Mmu.U ||| Mmu.D⟩ := by decide +kernel
  obtain ⟨w, hw, found⟩ := bind_eq_some_iff.mp found
  obtain ⟨s, hs, found⟩ := bind_eq_some_iff.mp found
  have hmem := mem_of_head? hs
  exact ⟨w, s, _, hmem, found, (user_memory_ordinary (by decide) ⟨by simp [emptyWorld], rfl⟩
    (.of_runAll .init hw) s hmem).2 16 _ found⟩

/-- A process that asks `protect` for I/O memory gets an entry with that protection. -/
theorem not_user_memory_ordinary : ∃ (w : World) (s : Space) (e : MapEntry),
    Runs (memExec calmEnv) (fun _ _ => True) emptyWorld w ∧ s ∈ w.spaces ∧ e ∈ s.map ∧
    e.inner.protFlags = Prot.READ ||| Prot.IOMEM := by
  have found :
    (runAll (memExec calmEnv) (fun _ _ => True) ((protectPage 17).take 2) emptyWorld).bind
      (fun w => w.spaces.head?.bind fun s => s.map.head?.map (·.inner.protFlags)) =
      some (Prot.READ ||| Prot.IOMEM) := by decide +kernel
  obtain ⟨w, hw, found⟩ := bind_eq_some_iff.mp found
  obtain ⟨s, hs, found⟩ := bind_eq_some_iff.mp found
  obtain ⟨e, he, found⟩ := map_eq_some_iff.mp found
  exact ⟨w, s, e, .of_runAll .init hw, mem_of_head? hs, mem_of_head? he, found⟩

end BadgerOS.Vmm
