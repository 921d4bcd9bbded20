import BadgerOS.Vmm.Invariants

/-!
# Where pages come from

Each page that a page table maps is an anon, the page of zeroes or a page of a
memory object. What a page fault does to a space, and that these kinds of pages
stay apart.
-/

namespace BadgerOS.Vmm

open Fallible Intervals Option List World MapEntryInner PhysMap MapEntry

/-- A page was allocated for an anon between two ticks. -/
def Allotted (env : Env) (t t' p : Nat) : Prop :=
  ∃ t₀, t ≤ t₀ ∧ t₀ + 1 < t' ∧ env.pageAlloc t₀ = some p ∧
    env.allocOk (t₀ + 1) = true

/-- The page is that of zeroes or one of a memory object. -/
def Borrowed (env : Env) (p : Nat) : Prop :=
  p = env.zeroesPaddr ∨ ∃ object offset t page len k,
    (env.objectGet object offset t = some (page, len) ∨
      env.objectAlloc object offset t = .ok (page, len)) ∧ (k = 0 ∨ k * pageSize < len) ∧
    p = page.paddr + k * pageSize

/-- Anons are never freed, so their pages are not allocated again and are no pages
of memory objects. -/
structure Separate (env : Env) : Prop where
  once : ∀ {t t' p}, t < t' → env.pageAlloc t = some p → env.allocOk (t + 1) = true →
    env.pageAlloc t' ≠ some p
  anon : ∀ {t p}, env.pageAlloc t = some p → env.allocOk (t + 1) = true → ¬ Borrowed env p

section Kinds

variable {env : Env} {t t' u p : Nat}

theorem Allotted.mono (h : Allotted env u t p) (ht : t ≤ t') : Allotted env u t' p := by
  obtain ⟨t₀, h₀, h₁, hp⟩ := h
  exact ⟨t₀, h₀, by omega, hp⟩

theorem Allotted.since (h : Allotted env t t' p) : Allotted env 0 t' p := by
  obtain ⟨t₀, h₀, h₁, hp⟩ := h
  exact ⟨t₀, Nat.zero_le _, h₁, hp⟩

theorem Separate.not_borrowed (separate : Separate env) (h : Allotted env t t' p) :
    ¬ Borrowed env p := by
  obtain ⟨t₀, _, _, hp, hok⟩ := h
  exact separate.anon hp hok

theorem Separate.fresh (separate : Separate env) (new : Allotted env t t' p) :
    ¬ Allotted env u t p := by
  rintro ⟨t₁, _, h₁, hp₁, hok₁⟩
  obtain ⟨t₀, h₀, _, hp, _⟩ := new
  exact separate.once (by omega : t₁ < t₀) hp₁ hok₁ hp

end Kinds

/-- The anon that a list of entries has at an address. -/
def slotAt (map : List MapEntry) (v : Nat) : Option Nat :=
  (entryAt map v).bind fun e => e.inner.anonAt (v - e.start)

/-- Some entry has a handle of the anon. -/
def Held (map : List MapEntry) (p : Nat) : Prop := ∃ e ∈ map, e.inner.Holds p

variable {p t' n : Nat} {guard : MapEntryInner} {mem mem' : Memory} {pmap' : PhysMap}
  {map' : List MapEntry}

section Slots

variable {map : List MapEntry} {v j : Nat} {e : MapEntry}

theorem held_of_slotAt (h : slotAt map v = some p) : Held map p := by
  obtain ⟨e, he, hp⟩ := bind_eq_some_iff.mp h
  exact ⟨e, mem_of_find?_eq_some he, holds_of_anonAt hp⟩

theorem slotAt_around (wf : WellFormed map) (he : e ∈ map) (around : Around v e) :
    slotAt map v = e.inner.anonAt (v - e.start) := by
  have found : entryAt map v = some e := wf.ordered.find_eq_some.mpr ⟨he, around⟩
  rw [slotAt, found, bind_some]

/-- The entry that a fault changed has the new slots, all others the old ones. -/
theorem slotAt_modify (wf : WellFormed map) (he : map[j]? = some e) :
    slotAt (map.modify j (setInner guard)) v =
      if Around v e then guard.anonAt (v - e.start) else slotAt map v := by
  have ranges : ∀ e : MapEntry, (e.setInner guard).start = e.start ∧
    (e.setInner guard).stop = e.stop := fun e => ⟨rfl, rfl⟩
  have wf' : WellFormed (map.modify j (setInner guard)) := by
    rw [← wellFormed_map ranges, map_modify_eq (f := setInner guard)
      fun _ _ => rfl, wellFormed_map ranges]
    exact wf
  have hnew : e.setInner guard ∈ map.modify j (setInner guard) := by
    refine mem_of_getElem? (i := j) ?_
    rw [getElem?_modify_eq, he]
    rfl
  split
  · rename_i around
    exact slotAt_around wf' hnew around
  · rename_i apart
    cases hf : entryAt map v with
    | none =>
      have none' : entryAt (map.modify j (setInner guard)) v = none := by
        refine find_eq_none.mpr fun f hf' around => ?_
        obtain hf' | ⟨x, hx, rfl⟩ := mem_modify hf'
        · exact find_eq_none.mp hf f hf' around
        · obtain rfl : e = x := some.inj (he.symm.trans hx)
          exact apart around
      rw [slotAt, slotAt, hf, none']
    | some f =>
      obtain ⟨hmem, around⟩ := wf.ordered.find_eq_some.mp hf
      have hmem' : f ∈ map.modify j (setInner guard) := by
        obtain ⟨k, hk⟩ := mem_iff_getElem?.mp hmem
        have hkj : j ≠ k := by
          rintro rfl
          obtain rfl : e = f := some.inj (he.symm.trans hk)
          exact apart around
        refine mem_of_getElem? (i := k) ?_
        rw [getElem?_modify_ne _ _ hkj, hk]
      rw [slotAt_around wf' hmem' around, slotAt_around wf hmem around]

theorem held_modify (h : Held (map.modify j (setInner guard)) p) : Held map p ∨
    guard.Holds p := by
  obtain ⟨f, hf, hp⟩ := h
  obtain hf | ⟨x, _, rfl⟩ := mem_modify hf
  · exact .inl ⟨f, hf, hp⟩
  · exact .inr hp

end Slots

/-- A page table entry that a fault made before tick `t'` for an address with these
flags. -/
structure NewLeaf (env : Env) (i : Nat) (w : World) (t' : Nat) (flags : ProtFlags × MapFlags)
    (slot : Option Nat) (pte : Pte) : Prop where
  write : Has pte.flags Mmu.W → Has flags.1 Prot.WRITE
  /-- A private page is writable only if it is new or no other space has a handle of it. -/
  page : (slot = some pte.paddr ∧
    (Has pte.flags Mmu.W → Has flags.2 SHARED ∨ Allotted env w.tick t' pte.paddr ∨
      ∀ k s, k ≠ i → w.spaces[k]? = some s → ¬ Held s.map pte.paddr)) ∨
    (Borrowed env pte.paddr ∧ (Has pte.flags Mmu.W → Has flags.2 SHARED))

/-- What a page fault does to the space `i`. -/
structure FaultEffect (env : Env) (i : Nat) (w : World) (s s' : Space) (w' : World) : Prop where
  before : w.spaces[i]? = some s
  after : w'.spaces = w.spaces.set i s'
  leaked : w'.leaked = w.leaked
  tick : w.tick ≤ w'.tick
  shape : s'.map.map MapEntry.bare = s.map.map MapEntry.bare
  held : ∀ p, Held s'.map p → Held s.map p ∨ Allotted env w.tick w'.tick p
  slots : ∀ n, slotAt s'.map (n * pageSize) = slotAt s.map (n * pageSize) ∨
    ∃ p, slotAt s'.map (n * pageSize) = some p ∧ Allotted env w.tick w'.tick p
  leaves : ∀ n pte, s'.pmap n = some pte →
    (s.pmap n = some pte ∧ slotAt s'.map (n * pageSize) = slotAt s.map (n * pageSize)) ∨
    ∃ flags, flagsAt s.map (n * pageSize) = some flags ∧
      NewLeaf env i w w'.tick flags (slotAt s'.map (n * pageSize)) pte

section Effect

variable {env : Env} {i : Nat} {w w' : World} {s : Space} {entry : MapEntry} {j vaddr : Nat}
  {access : ProtFlags}

/-- An anon with one handle is held by no other space. -/
theorem not_held_of_unique {amap : Arc AnonMap} {k : Nat} {s' : Space} (hs : w.spaces[i]? = some s)
    (hentry : s.map[j]? = some entry) (hamap : entry.inner.amap = some amap)
    (hp : some p ∈ amap.val.pages) (unique : w.handles.anonUnique p = true)
    (sole : w.handles.amapUnique amap.ptr = true) (hk : k ≠ i) (hs' : w.spaces[k]? = some s') :
    ¬ Held s'.map p := by
  rintro ⟨e', he', amap', hamap', hp'⟩
  have hmap := maps_get hs
  have hmem := mem_of_getElem? hentry
  simp only [handles, decide_eq_true_eq] at unique sole
  by_cases same : amap' = amap
  · -- Then two entries have the overlay.
    subst same
    obtain ⟨rest, perm, others⟩ := flatten_set_perm hmap
    have hrest : e' ∈ rest := by
      refine (others []).mem_iff.mp (mem_flatten.mpr ⟨s'.map, ?_, he'⟩)
      refine mem_of_getElem? (i := k) ?_
      rw [getElem?_set_ne (Ne.symm hk)]
      exact maps_get hs'
    have one : 0 < s.map.countP fun e => e.inner.amap.map (·.ptr) = some amap'.ptr :=
      countP_pos_iff.mpr ⟨entry, hmem, by simp [hamap]⟩
    have two : 0 < rest.countP fun e => e.inner.amap.map (·.ptr) = some amap'.ptr :=
      countP_pos_iff.mpr ⟨e', hrest, by simp [mem_def.mp hamap']⟩
    rw [entries_eq, countP_append, perm.countP_eq, countP_append] at sole
    omega
  · -- Then two overlays have the anon.
    have mem : ∀ {f : MapEntry} {a : Arc AnonMap}, f ∈ w.entries → f.inner.amap = some a →
        a ∈ w.amaps :=
      fun hf ha => mem_dedup.mpr (mem_filterMap.mpr ⟨_, hf, ha⟩)
    have first := mem (Base.mem_entries hmap hmem) hamap
    have second := mem (Base.mem_entries (maps_get hs') he') hamap'
    have perm := (perm_cons_erase first).map fun amap => amap.val.pages.count (some p)
    have rest := (mem_erase_of_ne same).mpr second
    have bound := single_le_sum (fun _ _ => Nat.zero_le _) _
      (mem_map_of_mem (f := fun amap : Arc AnonMap => amap.val.pages.count (some p)) rest)
    have one := count_pos_iff.mpr hp
    have two := count_pos_iff.mpr hp'
    rw [perm.sum_eq, map_cons, sum_cons] at unique
    omega

/-- The overlay that a fault leaves behind: a new anon at the offset at most. -/
theorem MapEntryInner.Resolved.overlay {self : MapEntryInner} {handles : Handles} {offset t : Nat}
    {r : Except Errno (MappablePage × Nat)}
    (h : Resolved env self handles offset mem t r guard mem' t') :
    (∀ o, o % pageSize = 0 → guard.anonAt o = self.anonAt o ∨
      o = offset ∧ ∃ p, guard.anonAt o = some p ∧ Allotted env t t' p) ∧
    ∀ p, guard.Holds p → self.Holds p ∨ Allotted env t t' p := by
  cases h with
  | anon _ _ _ | object _ _ _ | zeroes _ _ => exact ⟨fun _ _ => .inl rfl, fun _ h => .inl h⟩
  | failed shown held _ _ => exact ⟨fun o _ => .inl (shown o), fun p h => .inl (held p h)⟩
  | @copied amap p t₀ _ _ _ allocated shown held _ _ _ =>
    have new : Allotted env t t' p := ⟨t₀, allocated⟩
    constructor
    · intro o ho
      have key := shown o ho
      split at key
      · rename_i heq
        exact .inr ⟨heq, p, key, new⟩
      · exact .inl key
    · rintro q ⟨_, ⟨⟩, hq⟩
      obtain rfl | hq := held q hq
      · exact .inr new
      · exact .inl hq

/-- A fault changes the overlay of one entry, and nothing in the page table but
the page of the fault and pages of the entry behind it. -/
theorem faultEffect_of (base : Base w) (hs : w.spaces[i]? = some s) (hentry : s.map[j]? = some
    entry) (bare : { guard with amap := none } = { entry.inner with amap := none })
    (after : w'.spaces = w.spaces.set i ⟨s.ptr, s.map.modify j (setInner guard), pmap'⟩)
    (leaked : w'.leaked = w.leaked) (ht : w.tick ≤ t') (ht' : t' ≤ w'.tick)
    (shown : ∀ o, o % pageSize = 0 → guard.anonAt o = entry.inner.anonAt o ∨
      o = pageFloor vaddr - entry.start ∧ ∃ p, guard.anonAt o = some p ∧
        Allotted env w.tick t' p)
    (held : ∀ p, guard.Holds p → entry.inner.Holds p ∨ Allotted env w.tick t' p)
    (inside : entry.start ≤ pageFloor vaddr)
    (leaves : ∀ n pte, pmap' n = some pte → (s.pmap n = some pte ∧ n ≠ vaddr / pageSize) ∨
      Around (n * pageSize) entry ∧
        NewLeaf env i w w'.tick entry.flags (guard.anonAt (n * pageSize - entry.start)) pte) :
    ∃ s', FaultEffect env i w s s' w' := by
  have hmem := mem_of_getElem? hentry
  have wf := base.ok.wellFormed (maps_get hs)
  have hstart := (wf.aligned entry hmem).1
  refine ⟨_, hs, after, leaked, Nat.le_trans ht ht', ?_, ?_, ?_, ?_⟩
  · refine map_modify_eq fun e he => ?_
    obtain rfl : entry = e := some.inj (hentry.symm.trans he)
    exact congrArg (mk entry.ptr entry.start entry.stop) bare
  · intro p hp
    obtain hp | hp := held_modify hp
    · exact .inl hp
    · exact (held p hp).imp (fun hp => ⟨entry, hmem, hp⟩) fun new => new.mono ht'
  · intro n
    rw [slotAt_modify wf hentry]
    split
    · rename_i around
      rw [slotAt_around wf hmem around]
      have ho : (n * pageSize - entry.start) % pageSize = 0 := by
        simp only [pageSize] at *
        omega
      obtain same | ⟨_, p, hp, new⟩ := shown _ ho
      · exact .inl same
      · exact .inr ⟨p, hp, new.mono ht'⟩
    · exact .inl rfl
  · intro n pte hpte
    obtain ⟨old, hn⟩ | ⟨around, leaf⟩ := leaves n pte hpte
    · refine .inl ⟨old, ?_⟩
      rw [slotAt_modify wf hentry]
      split
      · rename_i around
        rw [slotAt_around wf hmem around]
        have ho : (n * pageSize - entry.start) % pageSize = 0 := by
          simp only [pageSize] at *
          omega
        refine (shown _ ho).resolve_right fun h => hn ?_
        simp only [pageFloor, pageSize] at *
        omega
      · rfl
    · have found : entryAt s.map (n * pageSize) = some entry :=
        wf.ordered.find_eq_some.mpr ⟨hmem, around⟩
      refine .inr ⟨entry.flags, by rw [flagsAt, found, map_some], ?_⟩
      rw [slotAt_modify wf hentry, if_pos around]
      exact leaf

theorem modify_eq_set {α : Type} {xs : List α} {x : α} {f : α → α} (h : xs[i]? = some x) :
    xs.modify i f = xs.set i (f x) := by
  rw [modify_eq_set_getElem?, h]
  rfl

theorem unmapMultiple_page {pmap : PhysMap} {pte : Pte}
    (h : pmap.unmapMultiple (pageFloor vaddr) pageSize n = some pte) :
    pmap n = some pte ∧ n ≠ vaddr / pageSize := by
  unfold unmapMultiple at h
  split at h
  · cases h
  · rename_i hout
    refine ⟨h, ?_⟩
    rintro rfl
    apply hout
    simp only [InPages, pageFloor, pageSize]
    omega

theorem faultEffect_evict (hs : w.spaces[i]? = some s)
    (after : w'.spaces = w.spaces.set i ⟨s.ptr, s.map, pmap'⟩) (leaked : w'.leaked = w.leaked)
    (tick : w.tick ≤ w'.tick) (sub : ∀ n pte, pmap' n = some pte → s.pmap n = some pte) :
    ∃ s', FaultEffect env i w s s' w' :=
  ⟨_, hs, after, leaked, tick, rfl, fun _ hp => .inl hp, fun _ => .inl rfl,
    fun n pte hpte => .inl ⟨sub n pte hpte, rfl⟩⟩

/-- The page table entries for what a fault has found. -/
theorem newLeaf_of_resolved {page : MappablePage} {size done : Nat} (hs : w.spaces[i]? = some s)
    (hentry : s.map[j]? = some entry)
    (bare : { guard with amap := none } = { entry.inner with amap := none })
    (hoffset : (pageFloor vaddr - entry.start) % pageSize = 0)
    (found : Resolved env entry.inner w.handles (pageFloor vaddr - entry.start) mem w.tick
      (.ok (page, size)) guard mem' t')
    (hin : InPages (pageFloor vaddr) done n) (hdone : done ≤ size) :
    NewLeaf env i w (t' + 1) entry.flags (guard.anonAt (n * pageSize - entry.start))
      ⟨page.paddr + (n - pageFloor vaddr / pageSize) * pageSize,
        leafFlags guard page vaddr⟩ := by
  have write : Has (leafFlags guard page vaddr) Mmu.W → Has entry.inner.protFlags Prot.WRITE := by
    intro h
    rw [← (eq_of_bare bare).1]
    exact (has_leafFlags h).1
  refine ⟨write, ?_⟩
  have single : size = pageSize → n - pageFloor vaddr / pageSize = 0 ∧
      n * pageSize = pageFloor vaddr := by
    simp only [InPages, pageFloor, pageSize] at *
    omega
  cases found with
  | @anon amap p _ hamap hp _ =>
    obtain ⟨hn, hv⟩ := single rfl
    rw [hn, Nat.zero_mul, Nat.add_zero, hv]
    refine .inl ⟨?_, fun write => ?_⟩
    · rw [anonAt, hamap]
      exact hp
    · obtain unique | shared := (has_leafFlags write).2
      · rw [Bool.and_eq_true] at unique
        exact .inr (.inr fun k s' hk hs' => not_held_of_unique hs hentry hamap
          (AnonMap.anonAt_mem hp) unique.1 unique.2 hk hs')
      · exact .inl shared
  | object hm hobject _ =>
    refine .inr ⟨.inr ⟨_, _, _, _, _, n - pageFloor vaddr / pageSize, hobject, ?_, ?_⟩,
      fun write => ?_⟩
    · simp only [InPages, pageSize] at *
      omega
    · split <;> rfl
    · obtain writable | shared := (has_leafFlags write).2
      · split at writable
        · rename_i shared
          exact shared
        · cases writable
      · exact shared
  | zeroes _ _ =>
    rw [(single rfl).1, Nat.zero_mul, Nat.add_zero]
    refine .inr ⟨.inl rfl, fun write => ?_⟩
    exact (has_leafFlags write).2.resolve_left (by rintro ⟨⟩)
  | @copied amap p t₀ _ _ _ allocated shown _ _ _ _ =>
    obtain ⟨hn, hv⟩ := single rfl
    rw [hn, Nat.zero_mul, Nat.add_zero, hv]
    refine .inl ⟨?_, fun _ => .inr (.inl ?_)⟩
    · exact (shown _ hoffset).trans (if_pos rfl)
    · exact Allotted.mono ⟨t₀, allocated⟩ (Nat.le_succ _)

theorem FaultStep.effect (base : Base w) (hs : w.spaces[i]? = some s)
    (hentry : s.map[j]? = some entry)
    (step : FaultStep env i j vaddr access w s entry w') : ∃ s', FaultEffect env i w s s' w' := by
  have hmem := mem_of_getElem? hentry
  have hmap := maps_get hs
  have haligned := base.aligned entry (Base.mem_entries hmap hmem)
  have hoffset := (base.ok.wellFormed hmap).page_offset hmem vaddr
  have evicted : (w.setPmap i (evict vaddr)).spaces =
      w.spaces.set i ⟨s.ptr, s.map, evict vaddr s.pmap⟩ :=
    modify_eq_set hs
  have hs₁ := setPmap_get (evict vaddr) hs
  have changed : ∀ guard, ((w.setPmap i (evict vaddr)).setInner i j
      guard).spaces = w.spaces.set i ⟨s.ptr, s.map.modify j (setInner guard),
        evict vaddr s.pmap⟩ := by
    intro guard
    refine (modify_eq_set hs₁).trans ?_
    rw [evicted, set_set]
  cases step with
  | stale =>
    refine faultEffect_evict hs ?_ rfl le_rfl fun _ _ h => h
    obtain ⟨hi, hget⟩ := List.getElem?_eq_some_iff.mp hs
    rw [← hget, set_getElem_self]
  | denied => exact faultEffect_evict hs evicted rfl le_rfl fun _ _ h => (unmapMultiple_page h).1
  | failed w₁ hw₁ _ inside resolved =>
    subst hw₁
    have found := resolve_resolved resolved haligned hoffset
    obtain ⟨shown, held⟩ := found.overlay
    exact faultEffect_of base hs hentry (resolve_guard resolved) (changed _) rfl
      (found.keeps haligned).1 le_rfl shown held inside
      fun n pte h => .inl (unmapMultiple_page h)
  | @mapped page size guard mem t w₁ done hw₁ _ inside resolved hdone =>
    subst hw₁
    have found := resolve_resolved resolved haligned hoffset
    have bare := resolve_guard resolved
    rw [handles_setPmap] at found
    obtain ⟨shown, held⟩ := found.overlay
    have spaces := changed guard
    have hs₂ : ((w.setPmap i (evict vaddr)).setInner i j guard).spaces[i]? = some
      ⟨s.ptr, s.map.modify j (setInner guard),
          evict vaddr s.pmap⟩ := by
      rw [spaces, List.getElem?_set_self (List.getElem?_eq_some_iff.mp hs).1]
    have after := modify_eq_set (f := fun s => ⟨s.ptr, s.map,
      mapMultiple (pageFloor vaddr) page.paddr (leafFlags guard page vaddr) done s.pmap⟩) hs₂
    conv_rhs at after => rw [spaces, set_set]
    refine faultEffect_of base hs hentry bare after rfl (found.keeps haligned).1 (Nat.le_succ _)
      shown held inside fun n pte h => ?_
    unfold mapMultiple at h
    split at h
    · rename_i hin
      cases h
      refine .inr ⟨?_, newLeaf_of_resolved hs hentry bare hoffset found hin hdone.1⟩
      simp only [InPages, pageFloor, pageSize] at *
      omega
    · exact .inl (unmapMultiple_page h)

end Effect

/-- Every page that is held or mapped is of one of the two kinds. -/
structure Accounted (env : Env) (w : World) : Prop where
  held : ∀ e ∈ w.entries, ∀ p, e.inner.Holds p → Allotted env 0 w.tick p
  leaves : ∀ s ∈ w.spaces, ∀ n pte, s.pmap n = some pte →
    Allotted env 0 w.tick pte.paddr ∨ Borrowed env pte.paddr

/-- A page is mapped writable only where writing is granted. -/
def Granted (w : World) : Prop :=
  ∀ s ∈ w.spaces, ∀ n pte, s.pmap n = some pte → Has pte.flags Mmu.W →
    ∃ flags, flagsAt s.map (n * pageSize) = some flags ∧ Has flags.1 Prot.WRITE

section Accounted

variable {env : Env} {i : Nat} {w w' : World} {s s' : Space}

theorem FaultEffect.flagsAt_eq (effect : FaultEffect env i w s s' w') :
    flagsAt s'.map = flagsAt s.map :=
  keepsView_bare.flagsAt_eq effect.shape

theorem Accounted.held_in (h : Accounted env w) (hs : w.spaces[i]? = some s) (hp : Held s.map p) :
    Allotted env 0 w.tick p := by
  obtain ⟨e, he, hp⟩ := hp
  exact h.held e (Base.mem_entries (maps_get hs) he) p hp

theorem FaultEffect.accounted (effect : FaultEffect env i w s s' w') (h : Accounted env w) :
    Accounted env w' := by
  have hmem := mem_of_getElem? effect.before
  have held' : ∀ p, Held s'.map p → Allotted env 0 w'.tick p := by
    intro p hp
    obtain hp | new := effect.held p hp
    · exact (h.held_in effect.before hp).mono effect.tick
    · exact new.since
  constructor
  · intro e he p hp
    rw [entries_eq, maps, effect.after, effect.leaked, mem_append, mem_flatten] at he
    obtain ⟨_, hmap, he⟩ | he := he
    · obtain ⟨s₁, hs₁, rfl⟩ := mem_map.mp hmap
      obtain hs₁ | rfl := mem_or_eq_of_mem_set hs₁
      · obtain ⟨k, hk⟩ := mem_iff_getElem?.mp hs₁
        exact (h.held_in hk ⟨e, he, hp⟩).mono effect.tick
      · exact held' p ⟨e, he, hp⟩
    · exact (h.held e (mem_append_right _ he) p hp).mono effect.tick
  · intro s₁ hs₁ n pte hpte
    rw [effect.after] at hs₁
    have old : ∀ s₂ ∈ w.spaces, s₂.pmap n = some pte →
        Allotted env 0 w'.tick pte.paddr ∨ Borrowed env pte.paddr :=
      fun s₂ hs₂ hpte => (h.leaves s₂ hs₂ n pte hpte).imp_left fun known =>
        known.mono effect.tick
    obtain hs₁ | rfl := mem_or_eq_of_mem_set hs₁
    · exact old s₁ hs₁ hpte
    · obtain ⟨hpte, _⟩ | ⟨_, _, leaf⟩ := effect.leaves n pte hpte
      · exact old s hmem hpte
      · obtain ⟨slot, _⟩ | ⟨borrowed, _⟩ := leaf.page
        · exact .inl (held' _ (held_of_slotAt slot))
        · exact .inr borrowed

theorem FaultEffect.granted (effect : FaultEffect env i w s s' w') (h : Granted w) :
    Granted w' := by
  intro s₁ hs₁ n pte hpte write
  rw [effect.after] at hs₁
  obtain hs₁ | rfl := mem_or_eq_of_mem_set hs₁
  · exact h s₁ hs₁ n pte hpte write
  · rw [effect.flagsAt_eq]
    obtain ⟨hpte, _⟩ | ⟨flags, hflags, leaf⟩ := effect.leaves n pte hpte
    · exact h s (mem_of_getElem? effect.before) n pte hpte write
    · exact ⟨flags, hflags, leaf.write write⟩

/-- The page table after the pages of some entries were unmapped. -/
theorem unmapAll_spaces (removed : List MapEntry) : ∀ {w : World} {s : Space}, w.spaces[i]? = some
    s → ∃ pmap', (w.unmapAll i removed).spaces = w.spaces.set i ⟨s.ptr, s.map, pmap'⟩ ∧
      ∀ n pte, pmap' n = some pte → s.pmap n = some pte ∧
        ∀ e ∈ removed, ¬ InPages e.start (e.stop - e.start) n := by
  induction removed with
  | nil =>
    intro w s hs
    refine ⟨s.pmap, ?_, fun n pte h => ⟨h, nofun⟩⟩
    obtain ⟨hi, hget⟩ := List.getElem?_eq_some_iff.mp hs
    rw [← hget, set_getElem_self]
    rfl
  | cons e rest ih =>
    intro w s hs
    have hs₁ := setPmap_get (unmapMultiple e.start (e.stop - e.start)) hs
    obtain ⟨pmap', spaces, sub⟩ := ih hs₁
    refine ⟨pmap', ?_, fun n pte h => ?_⟩
    · refine spaces.trans ?_
      rw [setPmap, modify_eq_set hs, set_set]
    · obtain ⟨old, apart⟩ := sub n pte h
      dsimp only [unmapMultiple] at old
      split at old
      · cases old
      · rename_i hout
        refine ⟨old, fun f hf => ?_⟩
        obtain rfl | hf := mem_cons.mp hf
        · exact hout
        · exact apart f hf

/-- A list of entries is replaced. -/
theorem Accounted.setMap (h : Accounted env w) (ht : w.tick ≤ t')
    (held : ∀ p, Held map' p → Allotted env 0 t' p) :
    Accounted env { w.setMap i map' with tick := t' } := by
  constructor
  · intro e he p hp
    rw [entries_eq, mem_append, mem_flatten] at he
    obtain ⟨m, hm, he⟩ | he := he
    · have hm := maps_setMap w i map' ▸ hm
      obtain hm | rfl := mem_or_eq_of_mem_set hm
      · exact (h.held e (mem_append_left _ (mem_flatten.mpr ⟨m, hm, he⟩)) p hp).mono ht
      · exact held p ⟨e, he, hp⟩
    · exact (h.held e (mem_append_right _ he) p hp).mono ht
  · exact forall_modify (fun s hs n pte hpte => (h.leaves s hs n pte hpte).imp_left (·.mono ht))
      fun s _ hok => hok

theorem granted_setMap (h : Granted w) (hs : w.spaces[i]? = some s)
    (kept : ∀ v flags, flagsAt s.map v = some flags → flagsAt map' v = some flags) :
    Granted (w.setMap i map') := by
  intro s' hs' n pte hpte write
  obtain hs' | ⟨x, hx, rfl⟩ := mem_modify hs'
  · exact h s' hs' n pte hpte write
  · obtain rfl : s = x := some.inj (hs.symm.trans hx)
    obtain ⟨flags, hflags, granted⟩ := h s (mem_of_getElem? hs) n pte hpte write
    exact ⟨flags, kept _ flags hflags, granted⟩

theorem accounted_plain : Plain env i fun w => Accounted env w ∧ Granted w where
  files vnodes t ht h := by
    refine ⟨⟨fun e he p hp => (h.1.held e he p hp).mono ht, fun s hs n pte hpte => ?_⟩, h.2⟩
    exact (h.1.leaves s hs n pte hpte).imp_left (·.mono ht)
  split := by
    intro w s threshold r map' t' base h hs ht run
    have hmap := maps_get hs
    have wf := base.ok.wellFormed hmap
    obtain ⟨htick, parts, _⟩ := splitEntries_parts run wf ht
      fun e he => base.aligned e (Base.mem_entries hmap he)
    refine ⟨h.1.setMap htick fun p hp => ?_, ?_⟩
    · obtain ⟨e', he', hp⟩ := hp
      obtain ⟨e, he, part⟩ := parts e' he'
      exact (h.1.held_in hs ⟨e, he, part.held p hp⟩).mono htick
    · refine granted_setMap h.2 hs fun v flags hflags => ?_
      rw [(splitEntries_splits run).1.flagsAt_eq ht wf, hflags]
  remove := by
    intro w s start stop base h hs hstart hstop
    have wf := base.ok.wellFormed (maps_get hs)
    have sub := (removeEntries_sublist start stop s.map).subset
    set r := removeEntries start stop s.map
    have hs₁ : (w.setMap i r.1).spaces[i]? = some ⟨s.ptr, r.1, s.pmap⟩ := by
      rw [setMap, getElem?_modify_eq, hs]
      rfl
    obtain ⟨pmap', spaces, left⟩ := unmapAll_spaces r.2 hs₁
    have cut : Accounted env (w.setMap i r.1) := by
      apply h.1.setMap le_rfl
      rintro p ⟨e, he, hp⟩
      exact h.1.held_in hs ⟨e, sub he, hp⟩
    have frame := unmapAll_frame (i := i) r.2 (w.setMap i r.1)
    refine ⟨⟨fun e he p hp => ?_, fun s' hs' n pte hpte => ?_⟩,
      fun s' hs' n pte hpte write => ?_⟩
    · rw [frame.2]
      rw [entries_eq, maps_unmapAll, frame.1] at he
      exact cut.held e he p hp
    · rw [frame.2]
      rw [spaces] at hs'
      obtain hs' | rfl := mem_or_eq_of_mem_set hs'
      · exact cut.leaves s' hs' n pte hpte
      · exact cut.leaves _ (mem_of_getElem? hs₁) n pte (left n pte hpte).1
    · rw [spaces, setMap, modify_eq_set hs, set_set] at hs'
      obtain hs' | rfl := mem_or_eq_of_mem_set hs'
      · exact h.2 s' hs' n pte hpte write
      · obtain ⟨hpte, apart⟩ := left n pte hpte
        obtain ⟨flags, hflags, granted⟩ := h.2 s (mem_of_getElem? hs) n pte hpte write
        refine ⟨flags, ?_, granted⟩
        rw [flagsAt_removeEntries wf hstart hstop, if_neg, hflags]
        -- The entry around a page in the bounds was removed, and so the page was unmapped.
        intro hv
        obtain ⟨e, he, _⟩ := map_eq_some_iff.mp hflags
        obtain ⟨hmem, around⟩ := wf.ordered.find_eq_some.mp he
        have := hstart e hmem
        have := wf.aligned e hmem
        refine apart e ((mem_removeEntries wf).2.mpr ⟨hmem, by omega⟩) ?_
        simp only [InPages, pageSize] at *
        omega

theorem accounted_fault : FaultKept env i fun w => Base w ∧ Accounted env w ∧ Granted w where
  step := by
    rintro access j vaddr w w' s entry ⟨base, accounted, granted⟩ hs hentry step
    obtain ⟨s', effect⟩ := step.effect base hs hentry
    exact ⟨base.faultStep hs hentry step, effect.accounted accounted, effect.granted granted⟩

theorem accounted_insert {inner : MapEntryInner} (hamap : inner.amap = none) :
    InsertKept env i (fun w => Base w ∧ Accounted env w ∧ Granted w)
      (fun w => Base w ∧ Accounted env w ∧ Granted w) (fun w => Base w ∧
        Accounted env w ∧ Granted w)
      inner := by
  refine accounted_plain.insertKept hamap ?_
  rintro w s new map' rfl base ⟨accounted, granted⟩ hs room inserted
  have wf := base.ok.wellFormed (maps_get hs)
  obtain ⟨map₁, inserted₁, _, mem, flags⟩ := insertMapping_spec wf room.nonempty
    room.aligned.1 room.aligned.2 room.clear
  obtain rfl : map' = map₁ := some.inj (inserted.symm.trans inserted₁)
  refine ⟨accounted.setMap le_rfl ?_, granted_setMap granted hs fun v old hold => ?_⟩
  · rintro p ⟨e, he, hp⟩
    obtain rfl | he := (mem e).mp he
    · obtain ⟨amap, ha, _⟩ := hp
      rw [hamap] at ha
      cases ha
    · exact accounted.held_in hs ⟨e, he, hp⟩
  · rw [flags v, if_neg, hold]
    obtain ⟨e, he, _⟩ := map_eq_some_iff.mp hold
    obtain ⟨hmem, around⟩ := wf.ordered.find_eq_some.mp he
    have := room.clear e hmem
    omega

end Accounted

end BadgerOS.Vmm
