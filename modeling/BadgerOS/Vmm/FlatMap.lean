import BadgerOS.Vmm.Steps

/-!
# Address spaces as flat maps

A space is meant to be a partial map from addresses to their protection and
mapping flags. `FlatMap.Step` says what each call does to that map; the calls on
the lists of entries refine it, over every run.
-/

namespace BadgerOS.Vmm

open Fallible Option List World

/-- The calls on address spaces, each with the index of its space. -/
inductive Call where
  | map (i size hint start stop : Nat) (mapFlags : MapFlags) (protFlags : ProtFlags)
      (mapping : Option Mapping)
  | unmap (i start stop : Nat)
  | protect (i start stop : Nat) (protFlags : ProtFlags)
  | fault (i vaddr : Nat) (access : ProtFlags) (size : Nat)
  | fork (i : Nat)
  | clear (i : Nat)
  | drop (i : Nat)
  deriving DecidableEq, Repr

/-- Run a call; the result is the address that `map` returns. -/
def exec (env : Env) : Call → Kernel Nat
  | .map i size hint start stop mapFlags protFlags mapping =>
    map env i size hint start stop mapFlags protFlags mapping
  | .unmap i start stop => do
    unmap env i start stop
    pure 0
  | .protect i start stop protFlags => do
    protect env i start stop protFlags
    pure 0
  | .fault i vaddr access size => do
    fault env i vaddr access size
    pure 0
  | .fork i => do
    fork env i
    pure 0
  | .clear i => do
    clear i
    pure 0
  | .drop i => do
    dropSpace i
    pure 0

/-- The end of the bounds for a new mapping. -/
def Call.boundsStop : Call → Nat
  | .map _ _ _ _ stop _ _ _ => stop
  | _ => 0

/-- The bounds end at a `usize` address. -/
abbrev Call.Legal (call : Call) : Prop := call.boundsStop < usizeSize

/-- The states that calls reach. -/
abbrev Reach (env : Env) : World → World → Prop := Runs (exec env) fun _ call => call.Legal

/-- The flags of each mapped address. -/
abbrev FlatMap := Nat → Option (ProtFlags × MapFlags)

namespace FlatMap

def put (start stop : Nat) (flags : ProtFlags × MapFlags) (f : FlatMap) : FlatMap :=
  fun v => if start ≤ v ∧ v < stop then some flags else f v

def remove (start stop : Nat) (f : FlatMap) : FlatMap :=
  fun v => if start ≤ v ∧ v < stop then none else f v

def reprotect (start stop : Nat) (protFlags : ProtFlags) (f : FlatMap) : FlatMap :=
  fun v => if start ≤ v ∧ v < stop then (f v).map fun flags => (protFlags, flags.2) else f v

theorem put_remove (start stop : Nat) (flags : ProtFlags × MapFlags) (f : FlatMap) :
    put start stop flags (remove start stop f) = put start stop flags f := by
  funext v
  unfold put remove
  split <;> rfl

/-- The size in bytes of the pages that `size` bytes need. -/
def pagesSize (size : Nat) : Nat := (size + (pageSize - 1)) / pageSize * pageSize

/-- What a successful call does to the flat maps, by space. -/
inductive Step : Call → Nat → List FlatMap → List FlatMap → Prop
  | mapFixed {i size hint start stop : Nat} {mapFlags : MapFlags} {protFlags : ProtFlags}
      {mapping : Option Mapping} {views : List FlatMap} {f : FlatMap} (hf : views[i]? = some f)
      (fixed : Has mapFlags FIXED) :
      Step (.map i size hint start stop mapFlags protFlags mapping) hint views
        (views.set i (f.put hint (hint + pagesSize size) (protFlags, mapFlags)))
  -- A range that keeps away from the ends of the bounds and from every mapped address.
  | mapDynamic {i size hint start stop addr : Nat} {mapFlags : MapFlags} {protFlags : ProtFlags}
      {mapping : Option Mapping} {views : List FlatMap} {f : FlatMap} (hf : views[i]? = some f)
      (dynamic : ¬ Has mapFlags FIXED)
      (inside : start + mapMargin ≤ addr ∧ addr + pagesSize size + mapMargin ≤ stop)
      (apart : ∀ v, addr ≤ v + mapMargin → v < addr + pagesSize size + mapMargin →
        f v = none) :
      Step (.map i size hint start stop mapFlags protFlags mapping) addr views
        (views.set i (f.put addr (addr + pagesSize size) (protFlags, mapFlags)))
  | unmap {i start stop ceil : Nat} {views : List FlatMap} {f : FlatMap} (hf : views[i]? = some f)
      (hceil : ceil = pagesSize stop) :
      Step (.unmap i start stop) 0 views (views.set i (f.remove (pageFloor start) ceil))
  | protect {i start stop : Nat} {protFlags : ProtFlags} {views : List FlatMap} {f : FlatMap}
      (hf : views[i]? = some f) :
      Step (.protect i start stop protFlags) 0 views
        (views.set i (f.reprotect start stop protFlags))
  | fault {i vaddr size : Nat} {access : ProtFlags} {views : List FlatMap} :
      Step (.fault i vaddr access size) 0 views views
  | fork {i : Nat} {views : List FlatMap} {f : FlatMap} (hf : views[i]? = some f) :
      Step (.fork i) 0 views (views ++ [f])
  | clear {i : Nat} {views : List FlatMap} : Step (.clear i) 0 views (views.set i fun _ => none)
  | drop {i : Nat} {views : List FlatMap} : Step (.drop i) 0 views (views.eraseIdx i)

end FlatMap

namespace World

/-- The flat maps, by space. -/
def views (w : World) : List FlatMap := w.maps.map flagsAt

def Ok (w : World) : Prop := ∀ map ∈ w.maps, WellFormed map

variable {i : Nat} {w w' : World} {map map' : List MapEntry}

section

variable (h : w.Updates i w' map map')
include h

theorem Updates.ok (ok : w.Ok) (wf : WellFormed map') : w'.Ok := by
  intro m hm
  rw [h.after] at hm
  obtain hm | rfl := mem_or_eq_of_mem_set hm
  · exact ok m hm
  · exact wf

theorem Updates.view : w.views[i]? = some (flagsAt map) := by
  simp [views, h.before]

theorem Updates.views_eq {f : FlatMap} (hf : ∀ v, flagsAt map' v = f v) :
    w'.views = w.views.set i f := by
  rw [views, h.after, map_set, funext hf]
  rfl

end

theorem Ok.wellFormed (ok : w.Ok) (h : w.maps[i]? = some map) : WellFormed map :=
  ok map (mem_of_getElem? h)

theorem ok_of_shapes (h : w'.shapes = w.shapes) (ok : w.Ok) : w'.Ok := by
  intro map' hmap'
  have hmem : map'.map MapEntry.bare ∈ w.shapes := h ▸ mem_map_of_mem hmap'
  obtain ⟨map, hmap, same⟩ := mem_map.mp hmem
  exact keepsView_bare.wellFormed same.symm (ok map hmap)

theorem views_of_shapes (h : w'.shapes = w.shapes) : w'.views = w.views := by
  have key : ∀ w : World, w.views = w.shapes.map flagsAt := by
    intro w
    rw [shapes, List.map_map]
    exact map_congr_left fun map _ => (keepsView_bare.flagsAt_map map).symm
  rw [key, h, ← key]

end World

variable {thresholds : List Nat} {w' : World} {threshold size' : Nat} {call : Call}

section Refinement

variable {env : Env} {i start stop hint : Nat} {w : World}

/-- The list of a space after splits at some thresholds: they are invisible in
the flat map. -/
def Cut (w : World) (i : Nat) (thresholds : List Nat) (w' : World) : Prop :=
  ∃ map map', w.Updates i w' map map' ∧ WellFormed map' ∧ flagsAt map' = flagsAt map ∧
    ∀ t ∈ thresholds, ∀ e ∈ map', Beside t e

theorem Cut.ok (h : Cut w i thresholds w') (ok : w.Ok) : w'.Ok := by
  obtain ⟨map, map', up, wf, _⟩ := h
  exact up.ok ok wf

theorem split_cut (ok : w.Ok) : wlp (split env i threshold)
    (fun _ => Cut w i [threshold]) Ok w := by
  refine wlp_split fun s map' t' hs aligned splits => ?_
  have up : w.Updates i { w.setMap i map' with tick := t' } s.map map' :=
    ⟨maps_get hs, maps_setMap w i map'⟩
  have wf := ok.wellFormed up.before
  have wf' := splits.wellFormed aligned wf
  refine ⟨up.ok ok wf', fun beside =>
    ⟨s.map, map', up, wf', funext (splits.flagsAt_eq aligned wf), ?_⟩⟩
  intro t ht
  obtain rfl := mem_singleton.mp ht
  exact beside

theorem Cut.split {w₁ : World} (ok : w.Ok) (h : Cut w i thresholds w₁) :
    wlp (split env i threshold) (fun _ => Cut w i (threshold :: thresholds)) Ok w₁ := by
  obtain ⟨map, map₁, up₁, wf₁, flags₁, beside₁⟩ := h
  refine wlp_split fun s map' t' hs aligned splits => ?_
  have up' : w₁.Updates i { w₁.setMap i map' with tick := t' } s.map map' :=
    ⟨maps_get hs, maps_setMap w₁ i map'⟩
  obtain ⟨same, up⟩ := up₁.trans up'
  rw [same] at splits
  have wf' := splits.wellFormed aligned wf₁
  have flags' := funext (splits.flagsAt_eq aligned wf₁)
  refine ⟨up.ok ok wf', fun beside => ⟨map, map', up, wf', flags'.trans flags₁, ?_⟩⟩
  intro t ht
  obtain rfl | ht := mem_cons.mp ht
  · exact beside
  · exact splits.beside (beside₁ t ht)

/-- What is left of the list after the bounds were split off and removed. -/
theorem removeMappings_flat {map : List MapEntry} (hmap : w.maps[i]? = some map)
    (wf : WellFormed map)
    (hs : ∀ e ∈ map, Beside start e) (hz : ∀ e ∈ map, Beside stop e) {E : World → Prop} :
    wlp (removeMappings env i start stop)
      (fun _ w' => ∃ map', w.Updates i w' map map' ∧ map'.Sublist map ∧ WellFormed map' ∧
        (∀ e ∈ map', e.stop ≤ start ∨ stop ≤ e.start) ∧
        ∀ v, flagsAt map' v = FlatMap.remove start stop (flagsAt map) v) E w := by
  refine wlp_removeMappings_maps.imp fun _ w' ⟨map₁, up⟩ => ?_
  obtain rfl : map₁ = map := some.inj (up.before.symm.trans hmap)
  have sub := removeEntries_sublist start stop map₁
  refine ⟨_, up, sub, wf.sublist sub, ?_, flagsAt_removeEntries wf hs hz⟩
  intro e he
  obtain ⟨hmem, outside⟩ := (mem_removeEntries wf).1.mp he
  have hs' := hs e hmem
  omega

theorem insertAndRegister_flat {insert : MapEntry} {map : List MapEntry} (ok : w.Ok)
    (hmap : w.maps[i]? = some map) (hne : insert.start < insert.stop)
    (hs : insert.start % pageSize = 0) (hz : insert.stop % pageSize = 0)
    (hb : ∀ e ∈ map, e.stop ≤ insert.start ∨ insert.stop ≤ e.start) :
    wlp (insertAndRegister env i insert) (fun _ w' => w'.Ok ∧ w'.views =
        w.views.set i (FlatMap.put insert.start insert.stop insert.flags (flagsAt map)))
      Ok w := by
  obtain ⟨map', inserted, wf', mem, flags⟩ :=
    insertMapping_spec (ok.wellFormed hmap) hne hs hz hb
  exact (wlp_insertAndRegister_maps hmap inserted).mono (fun _ w' up =>
    ⟨up.ok ok wf', up.views_eq flags⟩) fun w' up => up.ok ok (wf'.sublist filter_sublist)

variable {size : Nat} {mapFlags : MapFlags} {protFlags : ProtFlags} {mapping : Option Mapping}

theorem mapFixed_flat {addr : Nat} (ok : w.Ok) (hsize : 0 < size) :
    wlp (mapFixed env i size addr mapFlags protFlags mapping) (fun _ w' => w'.Ok ∧
      ∃ f, w.views[i]? = some f ∧
        w'.views = w.views.set i (FlatMap.put addr (addr + size) (protFlags, mapFlags) f))
      Ok w := by
  simp only [mapFixed, wlp_bind, wlp_assert]
  intro haddr hsz
  refine (split_cut ok).imp fun _ w₁ cut₁ => ?_
  simp only [wlp_bind, wlp_lift, usizeAdd_eq_some]
  rintro _ ⟨_, rfl⟩
  refine (cut₁.split ok).imp fun _ w₂ cut₂ => ?_
  simp only [wlp_bind, wlp_allocate]
  refine ⟨fun _ => ?_, fun _ => cut₂.ok ok⟩
  obtain ⟨map, map₂, up₂, wf₂, flags₂, beside⟩ := cut₂
  have up₂ := up₂.at_tick (w₂.tick + 1)
  refine (removeMappings_flat up₂.get wf₂ (beside addr (by simp))
    (beside (addr + size) (by simp))).imp ?_
  intro _ w₃ ⟨map₃, up₃, _, wf₃, room, flags₃⟩
  obtain ⟨-, up⟩ := up₂.trans up₃
  refine (insertAndRegister_flat (up.ok ok wf₃) up.get (Nat.lt_add_of_pos_right hsize) haddr
    (add_aligned haddr hsz) room).imp ?_
  intro _ w' ⟨ok', views'⟩
  refine ⟨ok', flagsAt map, up.view, ?_⟩
  rw [views', up.views_eq fun _ => rfl, set_set, funext flags₃, flags₂, FlatMap.put_remove]

theorem mapDynamic_flat (ok : w.Ok) (hsize : 0 < size) (hstop : stop < usizeSize) :
    wlp (mapDynamic env i size hint start stop mapFlags protFlags mapping)
      (fun addr w' => w'.Ok ∧ ∃ f, w.views[i]? = some f ∧
        (start + mapMargin ≤ addr ∧ addr + size + mapMargin ≤ stop) ∧
        (∀ v, addr ≤ v + mapMargin → v < addr + size + mapMargin → f v = none) ∧
        w'.views = w.views.set i (FlatMap.put addr (addr + size) (protFlags, mapFlags) f))
      Ok w := by
  simp only [mapDynamic, wlp_bind, wlp_assert, wlp_space, wlp_liftExcept]
  intro hh hsz hs hz s hspace
  have hmap := maps_get hspace
  have wf := ok.wellFormed hmap
  refine ⟨?_, fun _ _ => ok⟩
  rintro ⟨start', stop'⟩ constrained
  obtain ⟨hs', hz', hsa, hza, clear⟩ := constrain_spec wf hs hz hsize constrained
  refine ⟨?_, fun _ _ => ok⟩
  intro addr placed
  obtain ⟨low, high, aligned⟩ := placeWithin_spec hsa hza hh hsz (by omega) placed
  rw [wlp_allocate]
  refine ⟨fun _ => ?_, fun _ => ok⟩
  simp only [wlp_bind, wlp_lift, usizeAdd_eq_some]
  rintro _ ⟨_, rfl⟩
  refine (insertAndRegister_flat (w := { w with tick := w.tick + 1 }) ok hmap
    (Nat.lt_add_of_pos_right hsize) aligned (add_aligned aligned hsz) ?_).imp ?_
  · intro e he
    have := clear e he
    simp only
    omega
  · rintro _ w' ⟨ok', views'⟩
    refine wlp_pure.mpr ⟨ok', flagsAt s.map, ?_, ⟨by omega, by omega⟩, ?_, views'⟩
    · simp [views, hmap]
    · intro v hv hv'
      have free : entryAt s.map v = none := by
        rw [Intervals.find_eq_none]
        intro e he around
        have := clear e he
        omega
      rw [flagsAt, free]
      rfl

theorem roundUp_eq (h : roundUp size = some size') : size' = FlatMap.pagesSize size ∧
    size' % pageSize = 0 := by
  unfold roundUp at h
  dsimp only at h
  split at h
  · cases h
    exact ⟨rfl, Nat.mul_mod_left _ _⟩
  · cases h

theorem mapLocked_flat (ok : w.Ok) (hpos : 0 < size') (hstop : stop < usizeSize)
    (hsize : size' = FlatMap.pagesSize size) :
    wlp (mapLocked env i size' hint start stop mapFlags protFlags mapping)
      (fun addr w' => w'.Ok ∧ FlatMap.Step
        (.map i size hint start stop mapFlags protFlags mapping) addr w.views w'.views) Ok w := by
  unfold mapLocked
  split
  · rename_i fixed
    rw [wlp_bind]
    refine (mapFixed_flat ok hpos).imp fun _ w' ⟨ok', f, hf, views'⟩ => ?_
    rw [wlp_pure, views', hsize]
    exact ⟨ok', .mapFixed hf fixed⟩
  · rename_i dynamic
    refine (mapDynamic_flat ok hpos hstop).imp ?_
    intro addr w' ⟨ok', f, hf, inside, apart, views'⟩
    rw [hsize] at inside apart views'
    rw [views']
    exact ⟨ok', .mapDynamic hf dynamic inside apart⟩

theorem map_flat (ok : w.Ok) (hstop : stop < usizeSize) :
    wlp (map env i size hint start stop mapFlags protFlags mapping)
      (fun addr w' => w'.Ok ∧ FlatMap.Step
        (.map i size hint start stop mapFlags protFlags mapping) addr w.views w'.views) Ok w := by
  simp only [map, wlp_bind, wlp_assert, wlp_lift]
  intro hh size' hsize
  obtain ⟨hsize, haligned⟩ := roundUp_eq hsize
  split
  · exact wlp_fail.mpr ok
  · rename_i hne
    simp only [wlp_bind, wlp_get, wlp_lift]
    intro objectSize _
    split
    · exact wlp_fail.mpr ok
    · rw [wlp_bind]
      refine (mapLocked_flat ok (Nat.pos_of_ne_zero hne) hstop hsize).imp fun addr w' both => ?_
      obtain ⟨ok', step⟩ := both
      rw [wlp_bind]
      refine populate_shapes.mono ?_ fun w'' same => ok_of_shapes same ok'
      intro _ w'' same
      rw [wlp_pure, views_of_shapes same]
      exact ⟨ok_of_shapes same ok', step⟩

theorem protect_flat (ok : w.Ok) : wlp (protect env i start stop protFlags) (fun _ w' => w'.Ok ∧
        FlatMap.Step (.protect i start stop protFlags) 0 w.views w'.views) Ok w := by
  simp only [protect, wlp_bind, wlp_assert]
  intro hs hz
  refine (split_cut ok).imp fun _ w₁ cut₁ => ?_
  rw [wlp_bind]
  refine (cut₁.split ok).imp fun _ w₂ cut₂ => ?_
  simp only [wlp_bind, wlp_space, wlp_modify]
  intro s hspace
  obtain ⟨map, map₂, up₂, wf₂, flags₂, beside⟩ := cut₂
  obtain rfl : s.map = map₂ := some.inj ((maps_get hspace).symm.trans up₂.get)
  have up₃ : w₂.Updates i
    { (w₂.setPmap i (protectPmap env start stop w₂.tick protFlags s.map)).setMap i
          (protectEntries start stop protFlags s.map) with tick := w₂.tick + 1 }
      s.map (protectEntries start stop protFlags s.map) := by
    refine ⟨up₂.get, (maps_setMap _ i _).trans ?_⟩
    rw [maps_setPmap]
  obtain ⟨-, up⟩ := up₂.trans up₃
  have wf₃ : WellFormed (protectEntries start stop protFlags s.map) := by
    rw [protectEntries_eq wf₂]
    exact (wellFormed_map (reprotect_range start stop protFlags)).mpr wf₂
  refine ⟨up.ok ok wf₃, ?_⟩
  rw [up.views_eq (flagsAt_protectEntries wf₂ (beside start (by simp)) (beside stop (by simp))),
    flags₂]
  exact .protect up.view

theorem pageCeil_eq {ceil : Nat} (h : pageCeil stop = some ceil) :
    ceil = FlatMap.pagesSize stop := by
  unfold pageCeil at h
  simp only [FlatMap.pagesSize, pageSize] at *
  split at h
  · rw [usizeAdd_eq_some] at h
    omega
  · cases h
    omega

theorem unmap_flat (ok : w.Ok) : wlp (unmap env i start stop)
      (fun _ w' => w'.Ok ∧ FlatMap.Step (.unmap i start stop) 0 w.views w'.views) Ok w := by
  simp only [unmap, wlp_bind, wlp_lift]
  intro ceil hceil
  refine (split_cut ok).imp fun _ w₁ cut₁ => ?_
  rw [wlp_bind]
  refine (cut₁.split ok).imp fun _ w₂ cut₂ => ?_
  obtain ⟨map, map₂, up₂, wf₂, flags₂, beside⟩ := cut₂
  refine (removeMappings_flat up₂.get wf₂ (beside (pageFloor start) (by simp))
    (beside ceil (by simp))).imp ?_
  intro _ w' ⟨map₃, up₃, _, wf₃, room, flags₃⟩
  obtain ⟨-, up⟩ := up₂.trans up₃
  refine ⟨up.ok ok wf₃, ?_⟩
  rw [up.views_eq flags₃, flags₂]
  exact .unmap up.view (pageCeil_eq hceil)

/-- A step is seen in the lists of entries alone. -/
theorem flat_of_maps {maps : List (List MapEntry)} (h : w'.maps = maps)
    (wf : ∀ map ∈ maps, WellFormed map) (step : FlatMap.Step call 0 w.views (maps.map flagsAt)) :
    w'.Ok ∧ FlatMap.Step call 0 w.views w'.views := by
  subst h
  exact ⟨wf, step⟩

theorem fork_flat (ok : w.Ok) :
    wlp (fork env i) (fun _ w' => w'.Ok ∧ FlatMap.Step (.fork i) 0 w.views w'.views) Ok w := by
  have kept : ∀ pmap : PhysMap, (w.setPmap i fun _ => pmap).maps = w.maps :=
    fun pmap => maps_setPmap w i _
  refine wlp_fork ?_ ?_
  · intro s e new pmap t t' _ _ _ map hmap
    exact ok map (kept pmap ▸ hmap)
  · intro s new pmap t hs forked
    have unboxed := forkEntries_unboxed forked
    have hmap := maps_get hs
    have hview : w.views[i]? = some (flagsAt s.map) := by
      simp [views, hmap]
    refine flat_of_maps (map_append.trans (congrArg (· ++ [new]) (kept pmap))) ?_ ?_
    · intro map hmem
      obtain hmem | hnew := mem_append.mp hmem
      · exact ok map hmem
      · rw [mem_singleton.mp hnew]
        exact keepsView_unboxed.wellFormed unboxed (ok.wellFormed hmap)
    · rw [map_append, map_singleton, keepsView_unboxed.flagsAt_eq unboxed]
      exact .fork hview

theorem clear_flat (ok : w.Ok) :
    wlp (clear i) (fun _ w' => w'.Ok ∧ FlatMap.Step (.clear i) 0 w.views w'.views) Ok w := by
  rw [clear, wlp_modify]
  refine flat_of_maps (map_modify_set fun _ _ => rfl) ?_ ?_
  · intro map hmem
    obtain hmem | rfl := mem_or_eq_of_mem_set hmem
    · exact ok map hmem
    · exact wellFormed_nil
  · rw [map_set]
    exact .clear

theorem dropSpace_flat (ok : w.Ok) : wlp (dropSpace i) (fun _ w' => w'.Ok ∧
    FlatMap.Step (.drop i) 0 w.views w'.views)
      Ok w := by
  rw [dropSpace, wlp_modify]
  refine flat_of_maps (eraseIdx_map _ _ _).symm ?_ ?_
  · exact fun map hmem => ok map (mem_of_mem_eraseIdx hmem)
  · rw [← eraseIdx_map]
    exact .drop

theorem exec_flat (legal : call.Legal) (ok : w.Ok) :
    wlp (exec env call) (fun addr w' => w'.Ok ∧
      FlatMap.Step call addr w.views w'.views) Ok w := by
  cases call with
  | map => exact map_flat ok legal
  | unmap => exact (unmap_flat ok).andPure
  | protect => exact (protect_flat ok).andPure
  | fault =>
    rw [exec, wlp_bind]
    refine fault_shapes.mono (fun _ w' same => wlp_pure.mpr ⟨ok_of_shapes same ok, ?_⟩)
      fun w' same => ok_of_shapes same ok
    rw [views_of_shapes same]
    exact .fault
  | fork => exact (fork_flat ok).andPure
  | clear => exact (clear_flat ok).andPure
  | drop => exact (dropSpace_flat ok).andPure

/-- In every state that calls reach from empty spaces, each list of entries is
sorted by address, with page-aligned, non-empty and disjoint ranges, and each
successful call acts on the flat maps as `FlatMap.Step` says. -/
theorem reach_refines {w₀ : World} (empty : ∀ map ∈ w₀.maps, map = [])
    (h : Reach env w₀ w) : (∀ map ∈ w.maps, WellFormed map) ∧
    ∀ (call : Call) (addr : Nat) (w' : World), call.Legal →
      exec env call w = some (.ok addr, w') → FlatMap.Step call addr w.views w'.views := by
  have ok : w.Ok := h.invariant (fun map hmap => empty map hmap ▸ wellFormed_nil)
    fun legal ok => (exec_flat legal ok).imp fun _ _ key => key.1
  exact ⟨ok, fun call addr w' legal run => (exec_flat legal ok _ w' run).2⟩

end Refinement

/-- A kernel in which every request succeeds and every object is a file. -/
def calmEnv : Env where
  allocOk _ := true
  reserveOk _ := true
  pageAlloc t := some ((t + 16) * pageSize)
  objectGet _ _ _ := none
  objectAlloc _ _ _ := .error .enomem
  objectLen _ _ := 4 * pageSize
  tables _ len := len
  spill _ _ := false
  isVNode _ := true
  zeroesPaddr := pageSize
  canonHalfSize := 2 ^ 47

/-- One empty address space. -/
def emptyWorld : World where
  spaces := [⟨0, [], fun _ => none⟩]
  leaked := []
  vnodes _ := ⟨[], 0⟩
  mem _ _ := 0
  tick := 1

/-- Four pages are mapped, the middle ones are protected and the last is unmapped. -/
def threeCalls : List Call :=
  [.map 0 16384 65536 0 0 (PRIVATE ||| FIXED) (Prot.READ ||| Prot.WRITE) none,
    .protect 0 69632 77824 Prot.READ, .unmap 0 77824 81920]

theorem reach_refines_three_calls : ∃ w w' : World, Reach calmEnv emptyWorld w ∧
    (∀ map ∈ w.maps, WellFormed map) ∧
      w.maps.map List.length = [2] ∧
      FlatMap.Step (.map 0 1 65536 32768 131072 PRIVATE Prot.READ none) 81920 w.views w'.views := by
  obtain ⟨w, reached, hlengths, result⟩ : ∃ w, Reach calmEnv emptyWorld w ∧
    w.maps.map List.length = [2] ∧
      (exec calmEnv (.map 0 1 65536 32768 131072 PRIVATE Prot.READ none) w).map (·.1.toOption) =
        some (some 81920) := exists_of_runAll threeCalls (by decide +kernel)
  obtain ⟨⟨_ | addr, w'⟩, run, haddr⟩ := map_eq_some_iff.mp result
  · cases haddr
  · cases haddr
    have refines := reach_refines (by decide) reached
    exact ⟨w, w', reached, refines.1, hlengths, refines.2 _ _ _ (by decide) run⟩

end BadgerOS.Vmm
