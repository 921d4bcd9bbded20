import BadgerOS.Vmm.Invariants

/-!
# The page of zeroes

A read fault in anonymous memory maps the one page of zeroes that all spaces
share. It must never be mapped writable.
-/

namespace BadgerOS.Vmm

open Fallible MapEntryInner

/-- The page of zeroes is no page of an anon or of a memory object. -/
structure ZeroApart (env : Env) : Prop where
  anon : ∀ t, env.pageAlloc t ≠ some env.zeroesPaddr
  object : ∀ {object offset t page len}, env.objectGet object offset t = some (page, len) ∨
      env.objectAlloc object offset t = .ok (page, len) →
    ∀ k, k * pageSize < len → page.paddr + k * pageSize ≠ env.zeroesPaddr

/-- An entry of shared anonymous memory is not writable, and no overlay has the
page of zeroes. -/
structure Guarded (env : Env) (inner : MapEntryInner) : Prop where
  shared : Has inner.mapFlags SHARED → inner.mapping = none → ¬ Has inner.protFlags Prot.WRITE
  held : ¬ inner.Holds env.zeroesPaddr

/-- No page table entry maps the page of zeroes writable. -/
def ReadOnlyZeroes (env : Env) (pmap : PhysMap) : Prop :=
  ∀ page pte, pmap page = some pte → pte.paddr = env.zeroesPaddr → ¬ Has pte.flags Mmu.W

def ZeroInv (env : Env) (w : World) : Prop :=
  ∀ s ∈ w.spaces, (∀ e ∈ s.map, Guarded env e.inner) ∧ ReadOnlyZeroes env s.pmap

namespace ReadOnlyZeroes

variable {env : Env} {pmap : PhysMap}

theorem unmapMultiple (h : ReadOnlyZeroes env pmap) (vaddr size : Nat) :
    ReadOnlyZeroes env (pmap.unmapMultiple vaddr size) := by
  intro page pte hpte
  unfold PhysMap.unmapMultiple at hpte
  split at hpte
  · cases hpte
  · exact h page pte hpte

theorem mapMultiple (h : ReadOnlyZeroes env pmap) {vaddr paddr len : Nat} {flags : MmuFlags}
    (safe : ∀ k, k * pageSize < len → paddr + k * pageSize = env.zeroesPaddr →
    ¬ Has flags Mmu.W) : ReadOnlyZeroes env (pmap.mapMultiple vaddr paddr flags len) := by
  intro page pte hpte
  unfold PhysMap.mapMultiple at hpte
  split at hpte
  · cases hpte
    refine safe _ ?_
    simp only [PhysMap.InPages, pageSize] at *
    omega
  · exact h page pte hpte

end ReadOnlyZeroes

variable {mapFlags : MapFlags} {protFlags : ProtFlags} {mapping : Option Mapping}

section Invariant

variable {env : Env} {i : Nat} {w w' : World}

theorem Guarded.of_bare {inner inner' : MapEntryInner} (h : Guarded env inner)
    (bare : { inner' with amap := none } = { inner with amap := none })
    (held : ¬ inner'.Holds env.zeroesPaddr) : Guarded env inner' := by
  obtain ⟨prot, flags, mapping⟩ := eq_of_bare bare
  refine ⟨?_, held⟩
  rw [flags, prot, mapping]
  exact h.shared

/-- What a fault finds is not the page of zeroes, unless it is mapped read-only. -/
theorem Guarded.resolved {inner guard : MapEntryInner} {handles : Handles} {offset t t' : Nat}
    {mem mem' : Memory} {r : Except Errno (MappablePage × Nat)} (apart : ZeroApart env)
    (vaddr : Nat) (h : Guarded env inner)
    (bare : { guard with amap := none } = { inner with amap := none })
    (found : MapEntryInner.Resolved env inner handles offset mem t r guard mem' t') :
    Guarded env guard ∧ ∀ page size, r = .ok (page, size) → ∀ k, k * pageSize < size →
      page.paddr + k * pageSize = env.zeroesPaddr →
        ¬ Has (leafFlags guard page vaddr) Mmu.W := by
  cases found with
  | anon hamap hp ht =>
    refine ⟨h, ?_⟩
    rintro _ _ ⟨⟩ k hk hzero
    obtain rfl : k = 0 := by
      simp only [pageSize] at hk
      omega
    rw [Nat.zero_mul, Nat.add_zero] at hzero
    dsimp only at hzero
    exact absurd ⟨_, hamap, AnonMap.anonAt_mem (hzero ▸ hp)⟩ h.held
  | object hm hobject ht =>
    refine ⟨h, ?_⟩
    rintro _ _ ⟨⟩ k hk hzero
    refine absurd ?_ (apart.object hobject k hk)
    rw [← hzero]
    split <;> rfl
  | zeroes hm ht =>
    refine ⟨h, ?_⟩
    rintro _ _ ⟨⟩ k hk hzero hwrite
    obtain ⟨write, hno | shared⟩ := has_leafFlags hwrite
    · cases hno
    · exact h.shared shared hm write
  | failed shown held aligned ht =>
    refine ⟨h.of_bare bare fun hz => h.held (held _ hz), nofun⟩
  | copied allocated shown held aligned source data =>
    refine ⟨h.of_bare bare ?_, ?_⟩
    · rintro ⟨_, ⟨⟩, hz⟩
      obtain rfl | hz := held _ hz
      · exact apart.anon _ allocated.2.2.1
      · exact h.held hz
    · rintro _ _ ⟨⟩ k hk hzero
      obtain rfl : k = 0 := by
        simp only [pageSize] at hk
        omega
      rw [Nat.zero_mul, Nat.add_zero] at hzero
      dsimp only at hzero
      exact absurd (hzero ▸ allocated.2.2.1) (apart.anon _)

theorem zeroInv_plain : Plain env i (ZeroInv env) := by
  apply Each.plain
  · intro pmap vaddr size h
    exact h.unmapMultiple vaddr size
  · intro e e' part guarded
    exact guarded.of_bare part.inner fun hz => guarded.held (part.held _ hz)

theorem zeroInv_fault (apart : ZeroApart env) : FaultKept env i fun w => Base w ∧
    ZeroInv env w where
  step := by
    rintro access j vaddr w w' s entry ⟨base, h⟩ hs hentry step
    refine ⟨base.faultStep hs hentry step, ?_⟩
    have hmem := List.mem_of_getElem? hentry
    have hmap := World.maps_get hs
    have guarded := Each.entry h hs hmem
    have haligned := base.aligned entry (Base.mem_entries hmap hmem)
    have hoffset := (base.ok.wellFormed hmap).page_offset hmem vaddr
    have evicted : ZeroInv env (w.setPmap i (evict vaddr)) :=
      Each.setPmap h fun s _ hok => hok.unmapMultiple _ _
    have hs₁ := World.setPmap_get (evict vaddr) hs
    cases step with
    | stale => exact h
    | denied => exact evicted
    | failed w₁ hw₁ _ inside resolved =>
      subst hw₁
      exact Each.setInner evicted hs₁ (guarded.resolved apart vaddr (resolve_guard resolved)
        (resolve_resolved resolved haligned hoffset)).1
    | mapped w₁ done hw₁ _ inside resolved hdone =>
      subst hw₁
      obtain ⟨hguard, safe⟩ := guarded.resolved apart vaddr (resolve_guard resolved)
        (resolve_resolved resolved haligned hoffset)
      refine Each.setPmap (Each.setInner evicted hs₁ hguard) fun s _ hok =>
        hok.mapMultiple fun k hk => ?_
      exact safe _ _ rfl k (by omega)

/-- A mapping that is not writable shared anonymous memory. -/
def Sound (mapFlags : MapFlags) (protFlags : ProtFlags) (mapping : Option Mapping) : Prop :=
  ¬ (Has mapFlags SHARED ∧ mapping = none ∧ Has protFlags Prot.WRITE)

instance {mapFlags : MapFlags} {protFlags : ProtFlags} {mapping : Option Mapping} :
    Decidable (Sound mapFlags protFlags mapping) :=
  inferInstanceAs (Decidable (¬ _))

theorem zeroInv_insert (sound : Sound mapFlags protFlags mapping) :
    InsertKept env i (fun w => Base w ∧ ZeroInv env w) (fun w => Base w ∧ ZeroInv env w)
      (fun w => Base w ∧ ZeroInv env w) ⟨protFlags, mapFlags, none, mapping⟩ := by
  apply Each.insertKept zeroInv_plain rfl
  refine ⟨fun shared hm write => sound ⟨shared, hm, write⟩, ?_⟩
  rintro ⟨_, ⟨⟩, _⟩

theorem userMap_zeroInv {size hint : Nat} (apart : ZeroApart env)
    (hsize : env.canonHalfSize < usizeSize) (sound : Sound mapFlags protFlags mapping)
    (h : Base w ∧ ZeroInv env w) :
    wlp (userMap env i size hint mapFlags protFlags mapping) (fun _ w => Base w ∧ ZeroInv env w)
      (fun w => Base w ∧ ZeroInv env w) w := by
  unfold userMap
  split
  · exact wlp_fail.mpr h
  split
  · exact wlp_fail.mpr h
  · refine map_keeps zeroInv_plain.kept (zeroInv_fault apart) (fun w h => h.elim id id) hsize h
      (fun _ => ⟨trivial, trivial⟩) (zeroInv_insert ?_)
    exact fun ⟨shared, hm, write⟩ => sound ⟨shared, hm, write.of_and.of_and⟩

end Invariant

/-- What processes do to their spaces: map memory, and touch it. -/
inductive UserCall where
  | map (i size hint : Nat) (mapFlags : MapFlags) (protFlags : ProtFlags) (mapping : Option Mapping)
  | fault (i vaddr : Nat) (access : ProtFlags) (size : Nat)
  deriving DecidableEq, Repr

def userExec (env : Env) : UserCall → Kernel Nat
  | .map i size hint mapFlags protFlags mapping =>
    userMap env i size hint mapFlags protFlags mapping
  | .fault i vaddr access size => do
    fault env i vaddr access size
    pure 0

def UserCall.Sound : UserCall → Prop
  | .map _ _ _ mapFlags protFlags mapping => Vmm.Sound mapFlags protFlags mapping
  | .fault .. => True

instance : (call : UserCall) → Decidable call.Sound
  | .map .. => inferInstanceAs (Decidable (Vmm.Sound _ _ _))
  | .fault .. => inferInstanceAs (Decidable True)

/-- If no process maps writable shared anonymous memory, no page table ever maps
the page of zeroes writable. -/
theorem zeroes_never_writable {env : Env} {w₀ w : World} (apart : ZeroApart env)
    (hsize : env.canonHalfSize < usizeSize) (fresh : w₀.Fresh)
    (h : Runs (userExec env) (fun _ call => call.Sound) w₀ w) :
    ∀ s ∈ w.spaces, ReadOnlyZeroes env s.pmap := by
  have init : ZeroInv env w₀ := by
    intro s hs
    rw [(fresh.spaces s hs).1, (fresh.spaces s hs).2]
    exact ⟨nofun, nofun⟩
  have inv : Base w ∧ ZeroInv env w := by
    refine h.invariant (I := fun w => Base w ∧ ZeroInv env w) ⟨fresh.base, init⟩ ?_
    intro call w sound hw
    cases call with
    | map => exact userMap_zeroInv apart hsize sound hw
    | fault => exact ((zeroInv_fault apart).fault hw).andPure
  exact fun s hs => (inv.2 s hs).2

/-- A page of anonymous memory is mapped and read. -/
def readPage (mapFlags : MapFlags) : List UserCall :=
  [.map 0 4096 65536 (mapFlags ||| FIXED) (Prot.READ ||| Prot.WRITE) none,
    .fault 0 65536 Prot.READ 1]

theorem zeroes_never_writable_private : ∃ (w : World) (s : Space) (pte : Pte), s ∈ w.spaces ∧
    s.pmap 16 = some pte ∧
      pte.paddr = calmEnv.zeroesPaddr ∧ ¬ Has pte.flags Mmu.W := by
  have found :
    (runAll (userExec calmEnv) (fun _ call => call.Sound) (readPage PRIVATE) emptyWorld).bind
      (fun w => w.spaces.head?.bind fun s => s.pmap 16) =
      some ⟨4096, Mmu.R ||| Mmu.A ||| Mmu.U ||| Mmu.D⟩ := by decide +kernel
  obtain ⟨w, hw, found⟩ := Option.bind_eq_some_iff.mp found
  obtain ⟨s, hs, found⟩ := Option.bind_eq_some_iff.mp found
  have hmem := List.mem_of_head? hs
  have apart : ZeroApart calmEnv := by
    refine ⟨fun t h => ?_, ?_⟩
    · simp only [calmEnv, pageSize, Option.some.injEq] at h
      omega
    · rintro _ _ _ _ _ (h | h)
      · cases h
      · cases h
  exact ⟨w, s, _, hmem, found, rfl, zeroes_never_writable apart (by decide)
    ⟨by simp [emptyWorld], rfl⟩ (.of_runAll .init hw) s hmem 16 _ found rfl⟩

/-- A read of writable shared anonymous memory maps the page of zeroes writable. -/
theorem not_zeroes_never_writable : ∃ (w : World) (s : Space) (pte : Pte),
      Runs (userExec calmEnv) (fun _ _ => True) emptyWorld w ∧ s ∈ w.spaces ∧
      s.pmap 16 = some pte ∧ pte.paddr = calmEnv.zeroesPaddr ∧ Has pte.flags Mmu.W ∧
      Has pte.flags Mmu.U := by
  have found : (runAll (userExec calmEnv) (fun _ _ => True) (readPage SHARED) emptyWorld).bind
      (fun w => w.spaces.head?.bind fun s => s.pmap 16) =
      some ⟨4096, Mmu.R ||| Mmu.W ||| Mmu.A ||| Mmu.U ||| Mmu.D⟩ := by decide +kernel
  obtain ⟨w, hw, found⟩ := Option.bind_eq_some_iff.mp found
  obtain ⟨s, hs, found⟩ := Option.bind_eq_some_iff.mp found
  exact ⟨w, s, _, .of_runAll .init hw, List.mem_of_head? hs, found, rfl, by decide, by decide⟩

end BadgerOS.Vmm
