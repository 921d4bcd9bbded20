import BadgerOS.Vmm.Entries

/-!
# What the operations change

For each operation on an address space, what it does to the lists of entries;
and all that a page fault can do.
-/

namespace BadgerOS.Vmm

open Fallible List World

variable {α β : Type} {xs : List α}
  {i threshold object vmspace range start stop j vaddr size : Nat}
  {f : α → α} {g : α → β} {w w' : World} {s : Space} {map map' removed : List MapEntry}
  {Q : Unit → World → Prop} {denywrite : Bool} {insert entry : MapEntry} {access : ProtFlags}
  {P : World → Prop} {guard : MapEntryInner} {env : Env}

/-- A change of one element that a function does not see. -/
theorem map_modify_eq (h : ∀ x, xs[i]? = some x → g (f x) = g x) :
    (xs.modify i f).map g = xs.map g := by
  apply ext_getElem?
  intro k
  rw [getElem?_map, getElem?_map, getElem?_modify]
  cases hx : xs[k]? with
  | none => rfl
  | some x =>
    by_cases hk : i = k
    · subst hk
      simp [h x hx]
    · simp [hk]

theorem mem_modify {y : α} (h : y ∈ xs.modify i f) : y ∈ xs ∨ ∃ x, xs[i]? = some x ∧
    y = f x := by
  obtain ⟨k, hk⟩ := mem_iff_getElem?.mp h
  rw [getElem?_modify] at hk
  obtain ⟨x, hx, rfl⟩ := Option.map_eq_some_iff.mp hk
  by_cases hik : i = k
  · subst hik
    exact .inr ⟨x, hx, if_pos rfl⟩
  · rw [if_neg hik]
    exact .inl (mem_of_getElem? hx)

theorem forall_modify {P : α → Prop}
    (h : ∀ x ∈ xs, P x) (hf : ∀ x, xs[i]? = some x → P x → P (f x)) :
    ∀ y ∈ xs.modify i f, P y := by
  intro y hy
  obtain hy | ⟨x, hx, rfl⟩ := mem_modify hy
  · exact h y hy
  · exact hf x hx (h x (mem_of_getElem? hx))

theorem map_modify_set {y : β}
    (h : ∀ x, xs[i]? = some x → g (f x) = y) : (xs.modify i f).map g = (xs.map g).set i y := by
  apply ext_getElem?
  intro k
  rw [getElem?_map, getElem?_modify, getElem?_set, getElem?_map]
  by_cases hk : i = k
  · subst hk
    cases hx : xs[i]? with
    | none => simp [getElem?_eq_none_iff.mp hx]
    | some x => simp [(List.getElem?_eq_some_iff.mp hx).1, h x hx]
  · simp [hk]

namespace World

/-- The lists of entries, by space. -/
def maps (w : World) : List (List MapEntry) := w.spaces.map (·.map)

theorem maps_get (h : w.spaces[i]? = some s) : w.maps[i]? = some s.map := by
  simp [maps, h]

theorem spaces_get (h : w.maps[i]? = some map) : ∃ s, w.spaces[i]? = some s ∧ s.map = map := by
  rw [maps, getElem?_map, Option.map_eq_some_iff] at h
  exact h

theorem maps_setMap (w : World) (i : Nat) (map : List MapEntry) :
    (w.setMap i map).maps = w.maps.set i map :=
  map_modify_set fun _ _ => rfl

theorem maps_setPmap (w : World) (i : Nat) (f : PhysMap → PhysMap) :
    (w.setPmap i f).maps = w.maps :=
  map_modify_eq fun _ _ => rfl

/-- The list of space `i` changed from `map` to `map'`. -/
structure Updates (w : World) (i : Nat) (w' : World) (map map' : List MapEntry) : Prop where
  before : w.maps[i]? = some map
  after : w'.maps = w.maps.set i map'

theorem Updates.trans {w₁ w₂ : World} {map₁ map₁' map₂ : List MapEntry}
    (h₁ : w.Updates i w₁ map map₁) (h₂ : w₁.Updates i w₂ map₁' map₂) :
    map₁' = map₁ ∧ w.Updates i w₂ map map₂ := by
  have hi := (List.getElem?_eq_some_iff.mp h₁.before).1
  refine ⟨?_, h₁.before, ?_⟩
  · have before := h₂.before
    rw [h₁.after, getElem?_set_self hi] at before
    exact (Option.some.inj before).symm
  · rw [h₂.after, h₁.after, set_set]

theorem Updates.get (h : w.Updates i w' map map') : w'.maps[i]? = some map' := by
  rw [h.after, List.getElem?_set_self (List.getElem?_eq_some_iff.mp h.before).1]

theorem Updates.at_tick (h : w.Updates i w' map map') (t : Nat) :
    w.Updates i { w' with tick := t } map map' :=
  ⟨h.before, h.after⟩

end World

/-- The function keeps the range and the flags of every entry. -/
def KeepsView (g : MapEntry → MapEntry) : Prop :=
  ∀ e, ((g e).start = e.start ∧ (g e).stop = e.stop) ∧ (g e).flags = e.flags

namespace KeepsView

variable {g : MapEntry → MapEntry}

theorem wellFormed (hg : KeepsView g) (h : map'.map g = map.map g) (wf : WellFormed map) :
    WellFormed map' := by
  have hw := (wellFormed_map fun e => (hg e).1).mpr wf
  rw [← h] at hw
  exact (wellFormed_map fun e => (hg e).1).mp hw

theorem flagsAt_map (hg : KeepsView g) (map : List MapEntry) :
    flagsAt (map.map g) = flagsAt map := by
  funext v
  unfold flagsAt
  rw [entryAt_map fun e => (hg e).1, Option.map_map]
  congr 1
  funext e
  exact (hg e).2

theorem flagsAt_eq (hg : KeepsView g) (h : map'.map g = map.map g) :
    flagsAt map' = flagsAt map := by
  rw [← hg.flagsAt_map map', h, hg.flagsAt_map map]

end KeepsView

/-- An entry without its overlay. -/
def MapEntry.bare (e : MapEntry) : MapEntry := { e with inner := { e.inner with amap := none } }

theorem keepsView_bare : KeepsView MapEntry.bare := fun _ => ⟨⟨rfl, rfl⟩, rfl⟩

/-- An entry without its address. -/
def MapEntry.unboxed (e : MapEntry) : MapEntry := { e with ptr := 0 }

theorem keepsView_unboxed : KeepsView MapEntry.unboxed := fun _ => ⟨⟨rfl, rfl⟩, rfl⟩

section Rules

variable {E : World → Prop}

theorem wlp_assert {p : Prop} [Decidable p] : wlp (assert p) Q E w ↔ (p → Q () w) := by
  unfold assert
  rw [wlp_lift]
  simp only [debugAssert_eq_some]
  exact ⟨fun h => h (), fun h _ => h⟩

theorem wlp_allocate {Q : Nat → World → Prop} : wlp (allocate env) Q E w ↔
      (env.allocOk w.tick = true → Q w.tick { w with tick := w.tick + 1 }) ∧
      (env.allocOk w.tick = false → E { w with tick := w.tick + 1 }) := by
  unfold wlp allocate tryAlloc
  cases env.allocOk w.tick <;> simp

theorem wlp_tryReserve : wlp (tryReserve env) Q E w ↔
      (env.reserveOk w.tick = true → Q () { w with tick := w.tick + 1 }) ∧
      (env.reserveOk w.tick = false → E { w with tick := w.tick + 1 }) := by
  unfold wlp tryReserve
  cases env.reserveOk w.tick <;> simp

theorem wlp_space {Q : Space → World → Prop} : wlp (space i) Q E w ↔
    ∀ s, w.spaces[i]? = some s → Q s w := by
  unfold wlp space
  cases w.spaces[i]? <;> simp

theorem wlp_split_iff : wlp (split env i threshold) Q E w ↔
    (threshold % pageSize = 0 → ∀ s, w.spaces[i]? = some s →
        match splitEntries env threshold s.map w.tick with
        | (.ok _, map', t') => Q () { w.setMap i map' with tick := t' }
        | (.error _, map', t') => E { w.setMap i map' with tick := t' }) := by
  unfold split
  simp only [wlp_bind, wlp_assert, wlp_space]
  unfold wlp splitMap
  refine imp_congr_right fun _ => forall_congr' fun s => imp_congr_right fun _ => ?_
  obtain ⟨_ | _, map', t'⟩ := splitEntries env threshold s.map w.tick <;> simp

/-- The rule for `split`, by what its loop does to the list. -/
theorem wlp_split (h : ∀ s map' t', w.spaces[i]? = some s → threshold % pageSize = 0 →
    Splits threshold s.map map' →
      E { w.setMap i map' with tick := t' } ∧
      ((∀ e ∈ map', Beside threshold e) → Q () { w.setMap i map' with tick := t' })) :
    wlp (split env i threshold) Q E w := by
  rw [wlp_split_iff]
  intro aligned s hs
  split
  · rename_i map' t' hsplit
    obtain ⟨splits, beside⟩ := splitEntries_splits hsplit
    exact (h s map' t' hs aligned splits).2 (beside rfl)
  · rename_i map' t' hsplit
    exact (h s map' t' hs aligned (splitEntries_splits hsplit).1).1

theorem wlp_modifyVNode {f : VNode → VNode} :
    wlp (modifyVNode object f) Q E w ↔ Q () (w.setVNode object (f (w.vnodes object))) :=
  wlp_modify

/-- How a `DENYWRITE` mapping counts. -/
def denyCount (denywrite : Bool) : Int := if denywrite then 1 else 0

@[simp] theorem denyCount_true : denyCount true = 1 := rfl

@[simp] theorem denyCount_false : denyCount false = 0 := rfl

theorem wlp_onMapped : wlp (onMapped env object denywrite vmspace range) Q E w ↔
      if env.isVNode object = false then Q () w
      else
        let vnode := w.vnodes object
        let count := vnode.denywrite + denyCount denywrite
        if denywrite ∧ vnode.denywrite < 0 then E w
        else
          (env.reserveOk w.tick = true → Q () { w.setVNode object
            ⟨vnode.mappings ++ [(vmspace, range)], count⟩ with tick := w.tick + 1 }) ∧
          (env.reserveOk w.tick = false →
            E { w.setVNode object ⟨vnode.mappings, count⟩ with tick := w.tick + 1 }) := by
  unfold onMapped
  split
  · exact wlp_pure
  · simp only [wlp_bind, wlp_get]
    split
    · exact wlp_fail
    · cases denywrite with
      | false | true =>
        simp [wlp_bind, wlp_tryReserve, wlp_modifyVNode, setVNode]

theorem wlp_onUnmapped : wlp (onUnmapped env object denywrite range) Q E w ↔
    if env.isVNode object = false then Q () w
      else
        let vnode := w.vnodes object
        (denywrite → vnode.denywrite ≥ 1) → Q () (w.setVNode object
          ⟨vnode.mappings.filter (·.2 ≠ range), vnode.denywrite - denyCount denywrite⟩) := by
  unfold onUnmapped
  split
  · exact wlp_pure
  · simp only [wlp_bind, wlp_get, wlp_assert]
    cases denywrite with
    | false => simp [wlp_modifyVNode]
    | true => simp [wlp_bind, wlp_modifyVNode, setVNode]

/-- `on_mapped` changes nothing but its file. -/
theorem onMapped_frame : wlp (onMapped env object denywrite vmspace range)
      (fun _ w' => ∃ vnodes t, w.tick ≤ t ∧ w' = { w with vnodes := vnodes, tick := t })
      (fun w' => ∃ vnodes t, w.tick ≤ t ∧ w' = { w with vnodes := vnodes, tick := t }) w := by
  rw [wlp_onMapped]
  dsimp only
  split
  · exact ⟨w.vnodes, w.tick, le_rfl, rfl⟩
  · split
    · exact ⟨w.vnodes, w.tick, le_rfl, rfl⟩
    · exact ⟨fun _ => ⟨_, _, Nat.le_succ _, rfl⟩, fun _ => ⟨_, _, Nat.le_succ _, rfl⟩⟩

theorem withdraw_frame {e : MapEntry} :
    wlp (withdraw env e) (fun _ w' => ∃ vnodes, w' = { w with vnodes := vnodes }) E w := by
  unfold withdraw
  split
  · rw [wlp_onUnmapped]
    split
    · exact ⟨w.vnodes, rfl⟩
    · exact fun _ => ⟨_, rfl⟩
  · exact wlp_pure.mpr ⟨w.vnodes, rfl⟩

/-- The pages of the entries are unmapped. -/
def World.unmapAll (i : Nat) (removed : List MapEntry) (w : World) : World :=
  removed.foldl (fun w e => w.setPmap i (PhysMap.unmapMultiple e.start (e.stop - e.start))) w

theorem World.maps_unmapAll : ∀ {w : World}, (w.unmapAll i removed).maps = w.maps := by
  induction removed with
  | nil => exact rfl
  | cons e rest ih =>
    intro w
    exact ih.trans (maps_setPmap w i _)

theorem unregister_frame : ∀ {w : World}, wlp (unregister env i removed)
      (fun _ w' => ∃ vnodes, w' = { w.unmapAll i removed with vnodes := vnodes }) E w := by
  induction removed with
  | nil => exact wlp_pure.mpr ⟨_, rfl⟩
  | cons e rest ih =>
    simp only [unregister, wlp_bind, wlp_modify]
    refine withdraw_frame.imp fun _ w₁ ⟨vnodes₁, h₁⟩ => ?_
    refine ih.imp fun _ w₂ ⟨vnodes₂, h₂⟩ => ⟨vnodes₂, ?_⟩
    rw [h₂, h₁]
    have key : ∀ (removed : List MapEntry) (w : World) vnodes,
        ({ w with vnodes := vnodes } : World).unmapAll i removed =
          { w.unmapAll i removed with vnodes := vnodes } := by
      intro removed
      induction removed with
      | nil => exact fun _ _ => rfl
      | cons e rest ih => exact fun w vnodes => ih (w.setPmap i _) vnodes
    rw [key]
    rfl

theorem wlp_removeMappings : wlp (removeMappings env i start stop) Q E w ↔
      (start % pageSize = 0 → stop % pageSize = 0 → ∀ s, w.spaces[i]? = some s →
        wlp (unregister env i (removeEntries start stop s.map).2) Q E
          (w.setMap i (removeEntries start stop s.map).1)) := by
  simp only [removeMappings, wlp_bind, wlp_assert, wlp_space, wlp_modify]

theorem wlp_removeMappings_maps : wlp (removeMappings env i start stop)
      (fun _ w' => ∃ map, w.Updates i w' map (removeEntries start stop map).1) E w := by
  rw [wlp_removeMappings]
  intro _ _ s hs
  refine unregister_frame.imp fun _ w' ⟨vnodes, h⟩ => ⟨s.map, maps_get hs, ?_⟩
  rw [h]
  exact maps_unmapAll.trans (maps_setMap w i _)

/-- An entry is inserted, and taken out again when its object does not accept it. -/
theorem wlp_insertAndRegister_frame (hs : w.spaces[i]? = some s)
    (inserted : insertMapping s.map insert = some map') : wlp (insertAndRegister env i insert)
      (fun _ w' => ∃ vnodes t, w.tick ≤ t ∧
        w' = { w.setMap i map' with vnodes := vnodes, tick := t })
      (fun w' => ∃ vnodes t, w.tick ≤ t ∧ w' = { w.setMap i
        (map'.filter fun e => e.ptr ≠ insert.ptr) with vnodes := vnodes, tick := t }) w := by
  simp only [insertAndRegister, wlp_bind, wlp_space, wlp_lift, wlp_modify]
  intro s₁ hs₁ map₁ inserted₁
  obtain rfl : s = s₁ := Option.some.inj (hs.symm.trans hs₁)
  obtain rfl : map' = map₁ := Option.some.inj (inserted.symm.trans inserted₁)
  split
  · exact wlp_pure.mpr ⟨w.vnodes, w.tick, le_rfl, rfl⟩
  · rw [wlp_onError]
    refine onMapped_frame.mono (fun _ w' h => h) ?_
    rintro _ ⟨vnodes, t, ht, rfl⟩
    refine ⟨vnodes, t, ht, ?_⟩
    simp only [removeEntry, setMap, modify_modify_eq]
    rfl

/-- The same for the lists alone. -/
theorem wlp_insertAndRegister_maps (hmap : w.maps[i]? = some map)
    (inserted : insertMapping map insert = some map') :
    wlp (insertAndRegister env i insert) (fun _ w' => w.Updates i w' map map')
      (fun w' => w.Updates i w' map (map'.filter fun e => e.ptr ≠ insert.ptr)) w := by
  obtain ⟨s, hs, rfl⟩ := spaces_get hmap
  refine (wlp_insertAndRegister_frame hs inserted).mono ?_ ?_
  · rintro _ _ ⟨_, _, _, rfl⟩
    exact ⟨hmap, maps_setMap w i _⟩
  · rintro _ ⟨_, _, _, rfl⟩
    exact ⟨hmap, maps_setMap w i _⟩

/-- The page is not mapped until the fault is resolved. -/
abbrev evict (vaddr : Nat) : PhysMap → PhysMap := PhysMap.unmapMultiple (pageFloor vaddr) pageSize

/-- All that `fault_impl` can do. -/
inductive FaultStep (env : Env) (i j vaddr : Nat) (access : ProtFlags) (w : World) (s : Space)
    (entry : MapEntry) : World → Prop
  | stale (allowed : mappedProt s.pmap (pageFloor vaddr) &&& access = access) :
      FaultStep env i j vaddr access w s entry w
  | denied (no : entry.inner.protFlags &&& access = 0) :
      FaultStep env i j vaddr access w s entry
        (w.setPmap i (PhysMap.unmapMultiple (pageFloor vaddr) pageSize))
  | failed {e : Errno} {guard : MapEntryInner} {mem : Memory} {t : Nat} (w₁ : World)
      (evicted : w₁ = w.setPmap i (PhysMap.unmapMultiple (pageFloor vaddr) pageSize))
      (granted : entry.inner.protFlags &&& access ≠ 0) (inside : entry.start ≤ pageFloor vaddr)
      (resolved : entry.inner.resolve env w₁.handles (pageFloor vaddr - entry.start) access
        w₁.mem w₁.tick = (.error e, guard, mem, t)) :
      FaultStep env i j vaddr access w s entry
        { w₁.setInner i j guard with mem := mem, tick := t }
  | mapped {page : MappablePage} {size : Nat} {guard : MapEntryInner} {mem : Memory} {t : Nat}
      (w₁ : World) (done : Nat)
      (evicted : w₁ = w.setPmap i (PhysMap.unmapMultiple (pageFloor vaddr) pageSize))
      (granted : entry.inner.protFlags &&& access ≠ 0) (inside : entry.start ≤ pageFloor vaddr)
      (resolved : entry.inner.resolve env w₁.handles (pageFloor vaddr - entry.start) access
        w₁.mem w₁.tick = (.ok (page, size), guard, mem, t))
      (hdone : done ≤ size ∧ pageFloor vaddr + done ≤ entry.stop) :
      FaultStep env i j vaddr access w s entry
        { ({ w₁.setInner i j guard with mem := mem, tick := t } : World).setPmap i
            (PhysMap.mapMultiple (pageFloor vaddr) page.paddr (leafFlags guard page vaddr) done)
          with tick := t + 1 }

theorem faultImpl_step (h : ∀ s entry w', w.spaces[i]? = some s → s.map[j]? = some entry →
      FaultStep env i j vaddr access w s entry w' → P w') :
    wlp (faultImpl env i j vaddr access) (fun _ => P) P w := by
  simp only [faultImpl, wlp_bind, wlp_space, wlp_lift]
  intro s hs entry hentry
  split
  · rename_i allowed
    exact wlp_pure.mpr (h s entry w hs hentry (.stale allowed))
  · simp only [wlp_bind, wlp_modify]
    split
    · rename_i no
      exact wlp_fail.mpr (h s entry _ hs hentry (.denied no))
    · rename_i granted
      simp only [wlp_bind, wlp_lift, usizeSub_eq_some]
      rintro _ ⟨inside, rfl⟩ r w₁ run
      unfold resolvePage at run
      split at run
      rename_i r' guard mem t resolved
      cases run
      cases r' with
      | error e => exact h s entry _ hs hentry (.failed _ rfl granted inside resolved)
      | ok found =>
        simp only [Except.map, installPage, wlp_bind, wlp_lift, wlp_get, wlp_modify,
          usizeSub_eq_some]
        rintro rest ⟨hstop, rfl⟩
        split
        · exact wlp_fail.mpr
            (h s entry _ hs hentry (.mapped _ _ rfl granted inside resolved (by omega)))
        · rw [wlp_lift]
          exact fun _ _ => h s entry _ hs hentry
            (.mapped _ _ rfl granted inside resolved (by omega))

/-- What every page fault keeps is kept by `fault`. -/
theorem fault_keeps
    (step : ∀ {j vaddr : Nat} {w w' : World} {s : Space} {entry : MapEntry}, P w →
      w.spaces[i]? = some s → s.map[j]? = some entry →
      FaultStep env i j vaddr access w s entry w' →
        P w') (h : P w) : wlp (fault env i vaddr access size) (fun _ => P) P w := by
  have loop : ∀ {j bound vaddr size : Nat} {w : World}, P w →
      wlp (faultLoop env i j access bound vaddr size) (fun _ => P) P w := by
    intro j bound
    induction bound with
    | zero =>
      intro vaddr size w h
      exact wlp_assert.mpr fun _ => h
    | succ bound ih =>
      intro vaddr size w h
      unfold faultLoop
      split
      · exact wlp_pure.mpr h
      · rw [wlp_bind]
        exact (faultImpl_step fun s entry w' => step h).imp fun len w₁ h₁ => ih h₁
  simp only [fault, wlp_bind, wlp_space]
  intro s hs
  split
  · exact loop h
  · exact wlp_fail.mpr h

end Rules

namespace MapEntryInner

variable {self : MapEntryInner} {handles : Handles} {offset t t' : Nat}
  {mem mem' : Memory} {r : Except Errno (MappablePage × Nat)}

/-- What is the same in two entries that differ in their overlay. -/
theorem eq_of_bare (h : { guard with amap := none } = { self with amap := none }) :
    guard.protFlags = self.protFlags ∧ guard.mapFlags = self.mapFlags ∧
      guard.mapping = self.mapping := by
  simpa using h

/-- A page is found or allocated without a change to anything but the overlay. -/
theorem allocPage_guard {forWriting : Bool}
    (h : self.allocPage env handles offset forWriting mem t = (r, guard, mem', t')) :
    { guard with amap := none } = { self with amap := none } := by
  unfold allocPage at h
  split at h
  · cases h
    rfl
  · cases h
    rfl
  · split at h
    · cases h
      rfl
    · split at h
      · cases h
        rfl
      · cases h
        rfl

theorem resolve_guard (h : self.resolve env handles offset access mem t = (r, guard, mem', t')) :
    { guard with amap := none } = { self with amap := none } := by
  unfold resolve at h
  split at h
  · exact allocPage_guard h
  · split at h
    · exact allocPage_guard h
    · cases h
      rfl

end MapEntryInner

namespace World

/-- The lists of entries without their overlays. -/
def shapes (w : World) : List (List MapEntry) := w.maps.map (·.map MapEntry.bare)

theorem shapes_setPmap (w : World) (i : Nat) (f : PhysMap → PhysMap) :
    (w.setPmap i f).shapes = w.shapes := by
  unfold shapes
  rw [maps_setPmap]

theorem setPmap_get (f : PhysMap → PhysMap) (hs : w.spaces[i]? = some s) :
    (w.setPmap i f).spaces[i]? = some { s with pmap := f s.pmap } := by
  simp [setPmap, hs]

theorem setInner_eq {inner : MapEntryInner} (hs : w.spaces[i]? = some s) :
    w.setInner i j inner = w.setMap i (s.map.modify j (MapEntry.setInner inner)) := by
  unfold setInner setMap
  congr 1
  apply ext_getElem?
  intro k
  rw [getElem?_modify, getElem?_modify]
  by_cases hk : i = k
  · subst hk
    rw [hs]
    rfl
  · simp [hk]

theorem shapes_setInner (hs : w.spaces[i]? = some s) (hentry : s.map[j]? = some entry)
    (hguard : { guard with amap := none } = { entry.inner with amap := none }) :
    (w.setInner i j guard).shapes = w.shapes := by
  unfold shapes maps setInner
  rw [map_map, map_map]
  refine map_modify_eq fun s' hs' => ?_
  rw [hs] at hs'
  cases hs'
  refine map_modify_eq fun e he => ?_
  rw [hentry] at he
  cases he
  exact congrArg (MapEntry.mk entry.ptr entry.start entry.stop) hguard

end World

theorem FaultStep.shapes (step : FaultStep env i j vaddr access w s entry w')
    (hs : w.spaces[i]? = some s) (hentry : s.map[j]? = some entry) : w'.shapes = w.shapes := by
  have shapes := shapes_setPmap w i (evict vaddr)
  have hs₁ := setPmap_get (evict vaddr) hs
  cases step with
  | stale => rfl
  | denied => exact shapes
  | failed _ evicted _ _ resolved =>
    subst evicted
    rw [← shapes]
    exact shapes_setInner hs₁ hentry (MapEntryInner.resolve_guard resolved)
  | mapped _ done evicted _ _ resolved _ =>
    subst evicted
    rw [← shapes]
    refine (shapes_setPmap _ i _).trans ?_
    exact shapes_setInner hs₁ hentry (MapEntryInner.resolve_guard resolved)

theorem fault_shapes : wlp (fault env i vaddr access size) (fun _ w' => w'.shapes = w.shapes)
      (fun w' => w'.shapes = w.shapes) w :=
  fault_keeps (P := fun w' => w'.shapes = w.shapes)
    (fun same hs hentry step => (step.shapes hs hentry).trans same) rfl

theorem populate_shapes {addr : Nat} {mapFlags : MapFlags} {hasMapping : Bool} :
    wlp (populate env i size addr mapFlags hasMapping) (fun _ w' => w'.shapes = w.shapes)
      (fun w' => w'.shapes = w.shapes) w := by
  unfold populate
  split
  · exact fault_shapes
  · exact wlp_pure.mpr rfl

/-- The entries that `fork` makes differ from the old ones in their addresses. -/
theorem forkEntries_unboxed : ∀ {pmap pmap' : PhysMap} {t t' : Nat} {new : List MapEntry},
    forkEntries env map pmap t = (.ok (), new, pmap', t') →
    new.map MapEntry.unboxed = map.map MapEntry.unboxed := by
  induction map with
  | nil =>
    intro pmap pmap' t t' new h
    cases h
    rfl
  | cons e rest ih =>
    intro pmap pmap' t t' new h
    simp only [forkEntries] at h
    split at h
    · cases h
    · rename_i ptr t₁ _
      cases hrest : forkEntries env rest (cowProtect env e t pmap) t₁ with
      | mk r out =>
        rw [hrest] at h
        cases h
        rw [map_cons, map_cons, ih hrest]
        rfl

/-- The rule for `fork`, by what its loop does. -/
theorem wlp_fork {E : World → Prop} (failed : ∀ s e new pmap t t', w.spaces[i]? = some s →
      forkEntries env s.map s.pmap w.tick = (e, new, pmap, t) → t ≤ t' →
      E { w.setPmap i (fun _ => pmap) with tick := t', leaked := w.leaked ++ new })
    (cloned : ∀ s new pmap t, w.spaces[i]? = some s →
    forkEntries env s.map s.pmap w.tick = (.ok (), new, pmap, t) →
      Q () { w.setPmap i (fun _ => pmap) with
        tick := t + 1, spaces :=
          (w.setPmap i fun _ => pmap).spaces ++ [⟨t, new, fun _ => none⟩] }) :
    wlp (fork env i) Q E w := by
  simp only [fork, wlp_bind, wlp_space]
  intro s hs r w₁ run
  unfold cloneMap at run
  split at run
  · rename_i e new pmap t forked
    cases run
    exact failed s _ new pmap t t hs forked (Nat.le_refl t)
  · rename_i new pmap t forked
    cases run
    simp only [wlp_bind, wlp_onError, wlp_allocate, wlp_modify]
    exact ⟨fun _ => cloned s new pmap t hs forked, fun _ =>
      failed s _ new pmap t (t + 1) hs forked (Nat.le_succ t)⟩

section Flags

variable {n : Nat} {a b mask : BitVec n}

theorem has_or : Has (a ||| b) mask ↔ Has a mask ∨ Has b mask := by
  unfold Has
  rw [BitVec.and_comm, BitVec.and_or_distrib_left, BitVec.and_comm mask, BitVec.and_comm mask]
  constructor
  · intro h
    by_contra hno
    rw [not_or, not_not, not_not] at hno
    rw [hno.1, hno.2] at h
    exact h (BitVec.or_zero)
  · rintro (h | h) hz
    · exact h (BitVec.or_eq_zero_iff.mp hz).1
    · exact h (BitVec.or_eq_zero_iff.mp hz).2

theorem Has.of_and (h : Has (a &&& b) mask) : Has a mask := by
  intro hz
  apply h
  rw [BitVec.and_assoc, BitVec.and_comm b, ← BitVec.and_assoc, hz]
  exact BitVec.zero_and

theorem has_intoMmuFlags : ∀ prot : ProtFlags, Has (intoMmuFlags prot) Mmu.W ↔
    Has prot Prot.WRITE := by
  decide +kernel

theorem not_has_removed : ∀ prot : ProtFlags, ¬ Has (prot &&& ~~~ Prot.WRITE) Prot.WRITE := by
  decide +kernel

/-- A leaf is writable if the entry is, and the page is or the entry is shared. -/
theorem has_leafFlags {page : MappablePage} (h : Has (leafFlags guard page vaddr) Mmu.W) :
    Has guard.protFlags Prot.WRITE ∧ (page.writable = true ∨ Has guard.mapFlags SHARED) := by
  unfold leafFlags at h
  simp only [has_or, has_intoMmuFlags] at h
  obtain (((h | h) | h) | h) | h := h
  · split at h
    · exact absurd h (not_has_removed _)
    · rename_i hshared
      refine ⟨h, ?_⟩
      by_contra hno
      rw [not_or, Bool.not_eq_true] at hno
      exact hshared hno
  · exact absurd h (by decide)
  all_goals split at h <;> exact absurd h (by decide)

end Flags

end BadgerOS.Vmm
