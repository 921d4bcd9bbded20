import BadgerOS.Vmm.FlatMap
import BadgerOS.Vmm.Overlay

/-!
# Invariants of the operations

An invariant of the state is kept by `map`, `unmap` and `protect` if the steps
that they are made of keep it.
-/

namespace BadgerOS.Vmm

open Fallible List Nat World MapEntry

/-- Room for an entry in a list. -/
structure Room (map : List MapEntry) (new : MapEntry) : Prop where
  nonempty : new.start < new.stop
  aligned : new.start % pageSize = 0 ∧ new.stop % pageSize = 0
  clear : ∀ e ∈ map, e.stop ≤ new.start ∨ new.stop ≤ e.start

/-- The steps on the space `i`, with splits at some thresholds, keep `I`. -/
structure Kept (env : Env) (i : Nat) (thresholds : Nat → Prop) (I : World → Prop) : Prop where
  ok : ∀ {w}, I w → w.Ok
  /-- The addresses of boxes are given out once. -/
  fresh : ∀ {w}, I w → ∀ e ∈ w.entries, e.ptr < w.tick
  tick : ∀ {w}, I w → I { w with tick := w.tick + 1 }
  split : ∀ {w threshold}, thresholds threshold → I w →
    wlp (split env i threshold) (fun _ => I) I w
  remove : ∀ {w map start stop}, I w → w.maps[i]? = some map → (∀ e ∈ map, Beside start
    e) → (∀ e ∈ map, Beside stop e) → wlp (removeMappings env i start stop) (fun _ => I) I w

/-- The insertion of an entry takes `I` to `J`, or to `E` if it fails. -/
def InsertKept (env : Env) (i : Nat) (I J E : World → Prop) (inner : MapEntryInner) : Prop :=
  ∀ {w map new}, new.inner = inner → I w → w.maps[i]? = some map → Room map new →
    (∀ e ∈ w.entries, e.ptr < new.ptr) → new.ptr < w.tick →
    wlp (insertAndRegister env i new) (fun _ => J) E w

variable {i hint vaddr t t' j : Nat} {w w' : World} {map' : List MapEntry} {access : ProtFlags}
  {e new : MapEntry} {f : PhysMap → PhysMap} {guard inner : MapEntryInner} {s : Space}

namespace World

theorem entries_eq (w : World) : w.entries = w.maps.flatten ++ w.leaked := rfl

theorem entries_setPmap (w : World) (i : Nat) (f : PhysMap → PhysMap) :
    (w.setPmap i f).entries = w.entries := by
  rw [entries_eq, maps_setPmap]
  rfl

theorem handles_setPmap (w : World) (i : Nat) (f : PhysMap → PhysMap) :
    (w.setPmap i f).handles = w.handles := by
  unfold handles amaps
  rw [entries_setPmap]

/-- Nothing is added to the entries when a list is replaced by a part of it. -/
theorem Updates.entries_subset {map : List MapEntry}
    (h : w.Updates i w' map map') (sub : map' ⊆ map) (leaked : w'.leaked = w.leaked) :
    w'.entries ⊆ w.entries := by
  intro e he
  rw [entries_eq, mem_append, mem_flatten] at *
  obtain ⟨m, hm, he⟩ | he := he
  · rw [h.after] at hm
    obtain hm | rfl := mem_or_eq_of_mem_set hm
    · exact .inl ⟨m, hm, he⟩
    · exact .inl ⟨map, mem_of_getElem? h.before, sub he⟩
  · exact .inr (leaked ▸ he)

end World

section Keeps

variable {env : Env} {start stop : Nat} {I J E : World → Prop} {thresholds : Nat → Prop}

theorem World.unmapAll_frame (removed : List MapEntry) : ∀ w : World,
    (w.unmapAll i removed).leaked = w.leaked ∧ (w.unmapAll i removed).tick = w.tick := by
  induction removed with
  | nil => exact fun w => ⟨rfl, rfl⟩
  | cons e rest ih => exact fun w => ih (w.setPmap i _)

theorem removeMappings_frame :
    wlp (removeMappings env i start stop) (fun _ w' => w'.leaked = w.leaked ∧
      w'.tick = w.tick) E w := by
  rw [wlp_removeMappings]
  intro _ _ s _
  refine unregister_frame.imp fun _ w' ⟨vnodes, h⟩ => ?_
  rw [h]
  exact unmapAll_frame _ _

variable {size : Nat} {mapFlags : MapFlags} {protFlags : ProtFlags} {mapping : Option Mapping}

section

variable (kept : Kept env i thresholds I) (hE : ∀ w, I w → E w)
  (insert : InsertKept env i I J E ⟨protFlags, mapFlags, none, mapping⟩) (hI : I w)
    (hsize : 0 < size)
include kept hE insert hI hsize

theorem mapFixed_keeps {addr : Nat} (ends : thresholds addr ∧ thresholds (addr + size)) :
    wlp (mapFixed env i size addr mapFlags protFlags mapping) (fun _ => J) E w := by
  simp only [mapFixed, wlp_bind, wlp_assert]
  intro haddr hsz
  refine ((kept.split ends.1 hI).and (split_cut (kept.ok hI))).mono (fun _ w₁ both => ?_) hE
  obtain ⟨hI₁, cut₁⟩ := both
  simp only [wlp_bind, wlp_lift, usizeAdd_eq_some]
  rintro _ ⟨_, rfl⟩
  refine ((kept.split ends.2 hI₁).and (cut₁.split (kept.ok hI))).mono ?_ hE
  rintro _ w₂ ⟨hI₂, map, map₂, up₂, wf₂, _, beside⟩
  simp only [wlp_bind, wlp_allocate]
  refine ⟨fun _ => ?_, fun _ => hE _ (kept.tick hI₂)⟩
  have hmap₂ := (up₂.at_tick (w₂.tick + 1)).get
  have hs := beside addr (by simp)
  have hz := beside (addr + size) (by simp)
  refine (((kept.remove (kept.tick hI₂) hmap₂ hs hz).and
    (removeMappings_flat (E := I) hmap₂ wf₂ hs hz)).and
      (removeMappings_frame (E := I))).mono ?_ hE
  rintro _ w₃ ⟨⟨hI₃, map₃, up₃, sub, wf₃, room, _⟩, hleaked, htick⟩
  refine insert rfl hI₃ up₃.get ⟨Nat.lt_add_of_pos_right hsize,
    ⟨haddr, add_aligned haddr hsz⟩, room⟩ ?_ ?_
  · exact fun e he => kept.fresh hI₂ e (up₃.entries_subset sub.subset hleaked he)
  · rw [htick]
    exact lt_succ_self _

theorem mapDynamic_keeps (hstop : stop < usizeSize) :
    wlp (mapDynamic env i size hint start stop mapFlags protFlags mapping) (fun _ => J) E w := by
  simp only [mapDynamic, wlp_bind, wlp_assert, wlp_space, wlp_liftExcept]
  intro hh hsz hs hz s hspace
  have hmap := maps_get hspace
  refine ⟨?_, fun _ _ => hE w hI⟩
  rintro ⟨start', stop'⟩ constrained
  obtain ⟨hs', hz', hsa, hza, clear⟩ :=
    constrain_spec ((kept.ok hI).wellFormed hmap) hs hz hsize constrained
  refine ⟨?_, fun _ _ => hE w hI⟩
  intro addr placed
  obtain ⟨low, high, aligned⟩ := placeWithin_spec hsa hza hh hsz (by omega) placed
  rw [wlp_allocate]
  refine ⟨fun _ => ?_, fun _ => hE _ (kept.tick hI)⟩
  simp only [wlp_bind, wlp_lift, usizeAdd_eq_some]
  rintro _ ⟨_, rfl⟩
  have room :
      Room s.map ⟨w.tick, addr, addr + size, ⟨protFlags, mapFlags, none, mapping⟩⟩ := by
    refine ⟨Nat.lt_add_of_pos_right hsize, ⟨aligned, add_aligned aligned hsz⟩,
      fun e he => ?_⟩
    have := clear e he
    simp only
    omega
  exact (insert rfl (kept.tick hI) hmap room (kept.fresh hI) (lt_succ_self _)).imp
    fun _ w' h => wlp_pure.mpr h

end

/-- An invariant that page faults keep as well. -/
structure FaultKept (env : Env) (i : Nat) (I : World → Prop) : Prop where
  step : ∀ {access j vaddr w w' s entry}, I w → w.spaces[i]? = some s →
    s.map[j]? = some entry → FaultStep env i j vaddr access w s entry w' → I w'

theorem FaultKept.fault (kept : FaultKept env i I) (hI : I w) :
    wlp (fault env i vaddr access size) (fun _ => I) I w :=
  fault_keeps (fun h hs he step => kept.step h hs he step) hI

theorem map_keeps (kept : Kept env i thresholds I) (faults : FaultKept env i J)
    (hE : ∀ w, I w ∨ J w → E w) (hstop : stop < usizeSize) (hI : I w)
    (ends : Has mapFlags FIXED → thresholds hint ∧ thresholds (hint + FlatMap.pagesSize size))
    (insert : InsertKept env i I J E ⟨protFlags, mapFlags, none, mapping⟩) :
    wlp (map env i size hint start stop mapFlags protFlags mapping) (fun _ => J) E w := by
  simp only [map, wlp_bind, wlp_assert, wlp_lift]
  intro hh size' hsize
  obtain ⟨hsize, haligned⟩ := roundUp_eq hsize
  split
  · exact wlp_fail.mpr (hE w (.inl hI))
  · rename_i hne
    simp only [wlp_bind, wlp_get, wlp_lift]
    intro objectSize _
    split
    · exact wlp_fail.mpr (hE w (.inl hI))
    · have locked : wlp (mapLocked env i size' hint start stop mapFlags protFlags mapping)
          (fun _ => J) E w := by
        unfold mapLocked
        split
        · rename_i fixed
          rw [wlp_bind]
          exact (mapFixed_keeps kept (fun w h => hE w (.inl h)) insert hI (Nat.pos_of_ne_zero hne)
            (hsize ▸ ends fixed)).imp fun _ w' h => wlp_pure.mpr h
        · exact mapDynamic_keeps kept (fun w h => hE w (.inl h)) insert hI
            (Nat.pos_of_ne_zero hne) hstop
      rw [wlp_bind]
      refine locked.imp fun addr w₁ hJ₁ => ?_
      rw [wlp_bind]
      unfold populate
      split
      · exact (faults.fault hJ₁).mono (fun _ w₂ h => wlp_pure.mpr h) fun w₂ h =>
          hE w₂ (.inr h)
      · exact wlp_pure.mpr (wlp_pure.mpr hJ₁)

theorem unmap_keeps (kept : Kept env i thresholds I) (hI : I w)
    (ends : thresholds (pageFloor start) ∧ thresholds (FlatMap.pagesSize stop)) :
    wlp (unmap env i start stop) (fun _ => I) I w := by
  simp only [unmap, wlp_bind, wlp_lift]
  intro ceil hceil
  obtain rfl := pageCeil_eq hceil
  refine ((kept.split ends.1 hI).and (split_cut (kept.ok hI))).imp fun _ w₁ both => ?_
  obtain ⟨hI₁, cut₁⟩ := both
  rw [wlp_bind]
  refine ((kept.split ends.2 hI₁).and (cut₁.split (kept.ok hI))).imp ?_
  rintro _ w₂ ⟨hI₂, map, map₂, up₂, wf₂, _, beside⟩
  exact kept.remove hI₂ up₂.get (beside _ (by simp)) (beside _ (by simp))

theorem protect_keeps (kept : Kept env i thresholds I) (hI : I w) (ends : thresholds start ∧
    thresholds stop) (step : ∀ {w s}, I w → w.spaces[i]? = some s →
      J { (w.setPmap i (protectPmap env start stop w.tick protFlags s.map)).setMap i
      (protectEntries start stop protFlags s.map) with tick := w.tick + 1 }) :
    wlp (protect env i start stop protFlags) (fun _ => J) I w := by
  simp only [protect, wlp_bind, wlp_assert]
  intro _ _
  refine (kept.split ends.1 hI).imp fun _ w₁ hI₁ => ?_
  rw [wlp_bind]
  refine (kept.split ends.2 hI₁).imp fun _ w₂ hI₂ => ?_
  simp only [wlp_bind, wlp_space, wlp_modify]
  exact fun s hs => step hI₂ hs

end Keeps

/-- One of several lists is replaced. -/
theorem flatten_set_perm {α : Type} {xs : List (List α)} {x : List α} (h : xs[i]? = some x) :
    ∃ rest, xs.flatten.Perm (x ++ rest) ∧ ∀ y, (xs.set i y).flatten.Perm (y ++ rest) := by
  obtain ⟨hi, hget⟩ := List.getElem?_eq_some_iff.mp h
  have key : ∀ y, (xs.set i y).flatten.Perm
      (y ++ ((xs.take i).flatten ++ (xs.drop (i + 1)).flatten)) := by
    intro y
    rw [set_eq_take_append_cons_drop, if_pos hi, flatten_append, flatten_cons, ← append_assoc,
      ← append_assoc]
    exact Perm.append_right _ perm_append_comm
  refine ⟨_, ?_, key⟩
  have same : xs.set i x = xs := by
    rw [← hget, set_getElem_self]
  have perm := key x
  rw [same] at perm
  exact perm

theorem World.Updates.entries_perm {map : List MapEntry}
    (h : w.Updates i w' map map') (leaked : w'.leaked = w.leaked) :
    ∃ rest, w.entries.Perm (map ++ rest) ∧ w'.entries.Perm (map' ++ rest) := by
  obtain ⟨rest, perm, perm'⟩ := flatten_set_perm h.before
  refine ⟨rest ++ w.leaked, ?_, ?_⟩
  · rw [entries_eq, ← append_assoc]
    exact perm.append_right _
  · rw [entries_eq, h.after, leaked, ← append_assoc]
    exact (perm' map').append_right _

/-- The entries that `fork` makes are in new boxes. -/
theorem forkEntries_boxes {env : Env} {map : List MapEntry} :
    ∀ {pmap pmap' : PhysMap} {t t' : Nat} {r : Except Errno Unit} {new : List MapEntry},
    forkEntries env map pmap t = (r, new, pmap', t') →
    t ≤ t' ∧ (new.map ptr).Nodup ∧ ∀ e ∈ new, t ≤ e.ptr ∧ e.ptr < t' ∧
      ∃ f ∈ map, f.inner = e.inner := by
  induction map with
  | nil =>
    intro pmap pmap' t t' r new h
    cases h
    exact ⟨le_refl _, .nil, nofun⟩
  | cons f rest ih =>
    intro pmap pmap' t t' r new h
    simp only [forkEntries] at h
    split at h
    · rename_i failed
      cases h
      exact ⟨le_of_lt (lt_of_lt_of_eq (lt_succ_self _) (tryAlloc_tick failed).symm),
        .nil, nofun⟩
    · rename_i ptr t₁ boxed
      cases hrest : forkEntries env rest (cowProtect env f t pmap) t₁ with
      | mk r₁ out =>
        rw [hrest] at h
        dsimp only at h
        cases h
        obtain ⟨ht, nodup, boxes⟩ := ih hrest
        have ht₁ := tryAlloc_tick boxed
        have hptr : ptr = t := by
          unfold tryAlloc at boxed
          split at boxed
          · cases boxed
            rfl
          · cases boxed
        refine ⟨by omega, ?_, ?_⟩
        · rw [map_cons, nodup_cons]
          refine ⟨fun hmem => ?_, nodup⟩
          obtain ⟨e, he, heq⟩ := mem_map.mp hmem
          have := (boxes e he).1
          simp only at heq
          omega
        · intro e he
          obtain rfl | he := mem_cons.mp he
          · simp only
            exact ⟨by omega, by omega, f, mem_cons_self, rfl⟩
          · obtain ⟨low, high, g, hg, same⟩ := boxes e he
            exact ⟨by omega, high, g, mem_cons_of_mem _ hg, same⟩

/-- What holds in every state: well-formed lists of entries, each in a box of its
own, with overlays at whole pages. -/
structure Base (w : World) : Prop where
  ok : w.Ok
  boxes : (w.entries.map MapEntry.ptr).Nodup
  fresh : ∀ e ∈ w.entries, e.ptr < w.tick
  aligned : ∀ e ∈ w.entries, e.inner.Aligned

namespace Base

variable {env : Env} {map : List MapEntry}

theorem mem_entries (hmap : w.maps[i]? = some map) (he : e ∈ map) : e ∈ w.entries := by
  rw [entries_eq, mem_append, mem_flatten]
  exact .inl ⟨map, mem_of_getElem? hmap, he⟩

/-- Entries are replaced by entries in old or in new boxes. -/
theorem update (base : Base w) (up : w.Updates i w' map map') (leaked : w'.leaked = w.leaked)
    (tick : w.tick ≤ w'.tick) (wf : WellFormed map')
    (boxes : ∃ fresh : List Nat, (map'.map ptr).Subperm (map.map ptr ++ fresh) ∧
      fresh.Nodup ∧ ∀ ptr ∈ fresh, (∀ e ∈ w.entries, e.ptr < ptr) ∧ ptr < w'.tick)
    (aligned : ∀ e ∈ map', e.inner.Aligned) : Base w' := by
  obtain ⟨rest, perm, perm'⟩ := up.entries_perm leaked
  obtain ⟨new, sub, nodup, bounds⟩ := boxes
  have old : ∀ ptr ∈ map.map MapEntry.ptr ++ rest.map MapEntry.ptr, ∃ e ∈ w.entries,
      e.ptr = ptr := by
    intro ptr hptr
    rw [← map_append, mem_map] at hptr
    obtain ⟨e, he, rfl⟩ := hptr
    exact ⟨e, perm.mem_iff.mpr he, rfl⟩
  refine ⟨up.ok base.ok wf, ?_, ?_, ?_⟩
  · have hold : (map.map ptr ++ rest.map ptr).Nodup := by
      rw [← map_append]
      exact (perm.map ptr).nodup_iff.mp base.boxes
    have hall : (map.map ptr ++ new ++ rest.map ptr).Nodup := by
      have shuffle : (map.map ptr ++ new ++ rest.map ptr).Perm
          ((map.map ptr ++ rest.map ptr) ++ new) := by
        rw [append_assoc, append_assoc]
        exact Perm.append_left _ perm_append_comm
      rw [shuffle.nodup_iff]
      refine nodup_append.mpr ⟨hold, nodup, fun ptr hptr ptr' hnew => ?_⟩
      obtain ⟨e, he, rfl⟩ := old ptr hptr
      exact ((bounds ptr' hnew).1 e he).ne
    rw [(perm'.map ptr).nodup_iff, map_append]
    obtain ⟨l, hperm, hsub⟩ := (subperm_append_right (rest.map ptr)).mpr sub
    exact (hall.sublist hsub).perm hperm
  · intro e he
    obtain he | he := mem_append.mp (perm'.mem_iff.mp he)
    · obtain hptr | hptr := mem_append.mp (sub.subset (mem_map_of_mem he))
      · obtain ⟨f, hf, heq⟩ := old e.ptr (mem_append_left _ hptr)
        have := base.fresh f hf
        omega
      · exact (bounds e.ptr hptr).2
    · have := base.fresh e (perm.mem_iff.mpr (mem_append_right _ he))
      omega
  · intro e he
    obtain he | he := mem_append.mp (perm'.mem_iff.mp he)
    · exact aligned e he
    · exact base.aligned e (perm.mem_iff.mpr (mem_append_right _ he))

theorem files (base : Base w) (vnodes : Nat → VNode) (ht : w.tick ≤ t) :
    Base { w with vnodes := vnodes, tick := t } :=
  ⟨base.ok, base.boxes, fun e he => lt_of_lt_of_le (base.fresh e he) ht, base.aligned⟩

section

variable (base : Base w)
include base

theorem split {threshold : Nat} {r : Except Errno Unit} (hs : w.spaces[i]? = some s) (ht : threshold
    % pageSize = 0) (run : splitEntries env threshold s.map w.tick = (r, map', t')) :
    Base { w.setMap i map' with tick := t' } := by
  have hmap := maps_get hs
  have wf := base.ok.wellFormed hmap
  have aligned : ∀ e ∈ s.map, e.inner.Aligned :=
    fun e he => base.aligned e (mem_entries hmap he)
  obtain ⟨htick, parts, fresh, perm, nodup, bounds⟩ := splitEntries_parts run wf ht aligned
  refine base.update ⟨hmap, maps_setMap w i map'⟩ rfl htick
    ((splitEntries_splits run).1.wellFormed ht wf) ⟨fresh, perm.subperm, nodup,
      fun ptr hptr => ?_⟩ ?_
  · have := bounds ptr hptr
    exact ⟨fun e he => lt_of_lt_of_le (base.fresh e he) this.1, this.2⟩
  · intro e' he'
    obtain ⟨e, he, part⟩ := parts e' he'
    exact part.aligned (aligned e he)

theorem sublist {map : List MapEntry} (up : w.Updates i w' map map') (leaked : w'.leaked = w.leaked)
    (tick : w.tick ≤ w'.tick) (sub : map'.Sublist map) : Base w' := by
  refine base.update up leaked tick ((base.ok.wellFormed up.before).sublist sub)
    ⟨[], ?_, .nil, nofun⟩ fun e he => base.aligned e (mem_entries up.before (sub.subset he))
  rw [append_nil]
  exact (sub.map _).subperm

theorem insert (hs : w.spaces[i]? = some s) (room : Room s.map new)
    (hptr : ∀ e ∈ w.entries, e.ptr < new.ptr) (htick : new.ptr < w.tick)
    (hnew : new.inner.amap = none) (inserted : insertMapping s.map new = some map') :
    Base (w.setMap i map') := by
  have hmap := maps_get hs
  obtain ⟨map₁, inserted₁, wf', mem, _⟩ := insertMapping_spec (base.ok.wellFormed hmap)
    room.nonempty room.aligned.1 room.aligned.2 room.clear
  obtain rfl : map' = map₁ := Option.some.inj (inserted.symm.trans inserted₁)
  refine base.update ⟨hmap, maps_setMap w i map'⟩ rfl (le_refl _) wf'
    ⟨[new.ptr], ?_, by simp, ?_⟩ ?_
  · obtain ⟨before, after, hold, rfl⟩ := insertMapping_eq inserted
    rw [hold, map_append, map_append, map_cons]
    refine Perm.subperm (perm_middle.trans ?_)
    exact (perm_append_singleton _ _).symm
  · intro ptr hmem
    obtain rfl := mem_singleton.mp hmem
    exact ⟨hptr, htick⟩
  · intro e he
    obtain rfl | he := (mem e).mp he
    · intro amap hamap
      rw [hnew] at hamap
      cases hamap
    · exact base.aligned e (mem_entries hmap he)

theorem protect {start stop : Nat} {protFlags : ProtFlags} (hs : w.spaces[i]? = some s)
    (ht : w.tick ≤ t) :
    Base
      { (w.setPmap i f).setMap i (protectEntries start stop protFlags s.map) with tick := t } := by
  have hmap := maps_get hs
  have wf := base.ok.wellFormed hmap
  have same : ∀ e, (reprotect start stop protFlags e).ptr = e.ptr ∧
      (reprotect start stop protFlags e).inner.amap = e.inner.amap := by
    intro e
    unfold reprotect
    split <;> exact ⟨rfl, rfl⟩
  rw [protectEntries_eq wf]
  refine base.update ⟨hmap, ?_⟩ rfl ht
    ((wellFormed_map (reprotect_range start stop protFlags)).mpr wf) ⟨[], ?_, .nil, nofun⟩ ?_
  · refine (maps_setMap _ i _).trans ?_
    rw [maps_setPmap]
  · rw [map_map, append_nil]
    exact (Perm.of_eq (map_congr_left fun e _ => (same e).1)).subperm
  · intro e' he'
    obtain ⟨e, he, rfl⟩ := mem_map.mp he'
    unfold MapEntryInner.Aligned
    rw [(same e).2]
    exact base.aligned e (mem_entries hmap he)

theorem setPmap (f : PhysMap → PhysMap) : Base (w.setPmap i f) := by
  have maps := maps_setPmap w i f
  refine ⟨fun map hmap => base.ok map (maps ▸ hmap), ?_, ?_, ?_⟩ <;> rw [entries_setPmap]
  · exact base.boxes
  · exact base.fresh
  · exact base.aligned

theorem setInner {mem : Memory} (hs : w.spaces[i]? = some s) (ht : w.tick ≤ t')
    (hguard : guard.Aligned) : Base { w.setInner i j guard with mem := mem, tick := t' } := by
  have hmap := maps_get hs
  rw [setInner_eq hs]
  refine base.update ⟨hmap, maps_setMap w i _⟩ rfl ht ?_ ⟨[], ?_, .nil, nofun⟩ ?_
  · have ranges : ∀ e : MapEntry, (e.setInner guard).start = e.start ∧
        (e.setInner guard).stop = e.stop := fun e => ⟨rfl, rfl⟩
    rw [← wellFormed_map ranges, map_modify_eq (f := MapEntry.setInner guard)
      fun _ _ => rfl, wellFormed_map ranges]
    exact base.ok.wellFormed hmap
  · rw [map_modify_eq (f := MapEntry.setInner guard) fun _ _ => rfl, append_nil]
  · intro e he
    obtain he | ⟨_, _, rfl⟩ := mem_modify he
    · exact base.aligned e (mem_entries hmap he)
    · exact hguard

/-- Entries are lost. -/
theorem subset (ok : w'.Ok) (tick : w.tick ≤ w'.tick) (sub : w'.entries.Subperm w.entries) :
    Base w' := by
  refine ⟨ok, ?_, ?_, ?_⟩
  · obtain ⟨l, hperm, hsub⟩ := sub
    exact (base.boxes.sublist (hsub.map _)).perm (hperm.map _)
  · exact fun e he => lt_of_lt_of_le (base.fresh e (sub.subset he)) tick
  · exact fun e he => base.aligned e (sub.subset he)

/-- Entries in new boxes are added. -/
theorem append {new : List MapEntry} (ok : w'.Ok) (tick : w.tick ≤ w'.tick)
    (perm : w'.entries.Perm (w.entries ++ new))
    (nodup : (new.map ptr).Nodup) (fresh : ∀ e ∈ new, w.tick ≤ e.ptr ∧ e.ptr < w'.tick)
    (aligned : ∀ e ∈ new, e.inner.Aligned) :
    Base w' := by
  refine ⟨ok, ?_, ?_, ?_⟩
  · rw [(perm.map _).nodup_iff, map_append]
    refine nodup_append.mpr ⟨base.boxes, nodup, fun ptr hptr ptr' hptr' => ?_⟩
    obtain ⟨e, he, rfl⟩ := mem_map.mp hptr
    obtain ⟨e', he', rfl⟩ := mem_map.mp hptr'
    exact (lt_of_lt_of_le (base.fresh e he) (fresh e' he').1).ne
  · intro e he
    obtain he | he := mem_append.mp (perm.mem_iff.mp he)
    · exact lt_of_lt_of_le (base.fresh e he) tick
    · exact (fresh e he).2
  · intro e he
    obtain he | he := mem_append.mp (perm.mem_iff.mp he)
    · exact base.aligned e he
    · exact aligned e he

theorem fork : wlp (fork env i) (fun _ => Base) Base w := by
  have maps : ∀ pmap : PhysMap, (w.setPmap i fun _ => pmap).maps = w.maps :=
    fun pmap => maps_setPmap w i _
  refine wlp_fork ?_ ?_
  · intro s e new pmap t t' hs forked ht'
    obtain ⟨ht, nodup, boxes⟩ := forkEntries_boxes forked
    refine base.append (fun map hmap => base.ok map (maps pmap ▸ hmap)) (le_trans ht ht')
      ?_ nodup ?_ ?_
    · rw [entries_eq, entries_eq, append_assoc]
      exact Perm.append_right _ (Perm.of_eq (congrArg flatten (maps pmap)))
    · exact fun e he => ⟨(boxes e he).1, lt_of_lt_of_le (boxes e he).2.1 ht'⟩
    · intro e he
      obtain ⟨f, hf, same⟩ := (boxes e he).2.2
      exact same ▸ base.aligned f (mem_entries (maps_get hs) hf)
  · intro s new pmap t hs forked
    obtain ⟨ht, nodup, boxes⟩ := forkEntries_boxes forked
    have hmap := maps_get hs
    have maps' :
      ((w.setPmap i fun _ => pmap).spaces ++ [(⟨t, new, fun _ => none⟩ : Space)]).map (·.map) =
        w.maps ++ [new] := by
      rw [map_append]
      exact congrArg (· ++ [new]) (maps pmap)
    refine base.append ?_ (le_succ_of_le ht) ?_ nodup ?_ ?_
    · intro map hmem
      rw [World.maps, maps'] at hmem
      obtain hmem | hnew := mem_append.mp hmem
      · exact base.ok map hmem
      · rw [mem_singleton.mp hnew]
        exact keepsView_unboxed.wellFormed (forkEntries_unboxed forked) (base.ok.wellFormed hmap)
    · rw [World.entries_eq, World.entries_eq, World.maps, maps', flatten_append, flatten_singleton,
        append_assoc, append_assoc]
      exact Perm.append_left _ perm_append_comm
    · exact fun e he => ⟨(boxes e he).1, lt_succ_of_lt (boxes e he).2.1⟩
    · intro e he
      obtain ⟨f, hf, same⟩ := (boxes e he).2.2
      exact same ▸ base.aligned f (mem_entries hmap hf)

theorem clear : wlp (clear i) (fun _ => Base) Base w := by
  rw [Vmm.clear, wlp_modify]
  have maps : ∀ f : Space →
    PhysMap, (w.spaces.modify i fun s => ⟨s.ptr, [], f s⟩).map (·.map) =
      w.maps.set i [] := fun f => map_modify_set fun _ _ => rfl
  refine base.subset ?_ (le_refl _) ?_
  · intro map hmem
    rw [World.maps, maps] at hmem
    obtain hmem | rfl := mem_or_eq_of_mem_set hmem
    · exact base.ok map hmem
    · exact wellFormed_nil
  · rw [World.entries_eq, World.entries_eq, World.maps, maps]
    refine (subperm_append_right _).mpr ?_
    cases hi : w.maps[i]? with
    | none =>
      rw [set_eq_of_length_le (getElem?_eq_none_iff.mp hi)]
    | some map =>
      obtain ⟨rest, perm, perm'⟩ := flatten_set_perm hi
      exact (perm' []).subperm.trans
        ((sublist_append_right map rest).subperm.trans perm.symm.subperm)

theorem drop : wlp (dropSpace i) (fun _ => Base) Base w := by
  rw [dropSpace, wlp_modify]
  have maps : (w.spaces.eraseIdx i).map (·.map) = w.maps.eraseIdx i := (eraseIdx_map _ _ _).symm
  refine base.subset ?_ (le_refl _) ?_
  · intro map hmem
    rw [World.maps, maps] at hmem
    exact base.ok map (mem_of_mem_eraseIdx hmem)
  · rw [World.entries_eq, World.entries_eq, World.maps, maps]
    exact (Sublist.append_right (eraseIdx_sublist _ _).flatten _).subperm

/-- Page faults change overlays and page tables only. -/
theorem faultStep {entry : MapEntry} (hs : w.spaces[i]? = some s)
    (hentry : s.map[j]? = some entry) (step : FaultStep env i j vaddr access w s entry w') :
    Base w' := by
  have hmem := mem_of_getElem? hentry
  have hmap := maps_get hs
  have haligned := base.aligned entry (mem_entries hmap hmem)
  have evicted := base.setPmap (i := i) (evict vaddr)
  have hs₁ := setPmap_get (evict vaddr) hs
  have hoffset := (base.ok.wellFormed hmap).page_offset hmem vaddr
  cases step with
  | stale => exact base
  | denied => exact evicted
  | failed w₁ hw₁ _ inside resolved =>
    subst hw₁
    obtain ⟨ht, hguard⟩ :=
      (MapEntryInner.resolve_resolved resolved haligned hoffset).keeps haligned
    exact evicted.setInner hs₁ ht hguard
  | mapped w₁ done hw₁ _ inside resolved _ =>
    subst hw₁
    obtain ⟨ht, hguard⟩ :=
      (MapEntryInner.resolve_resolved resolved haligned hoffset).keeps haligned
    exact ((evicted.setInner hs₁ ht hguard).setPmap _).files _ (le_succ _)

end

end Base

/-- No space has been used yet. -/
structure World.Fresh (w : World) : Prop where
  spaces : ∀ s ∈ w.spaces, s.map = [] ∧ s.pmap = fun _ => none
  leaked : w.leaked = []

theorem World.Fresh.base (h : w.Fresh) : Base w := by
  have maps : ∀ map ∈ w.maps, map = [] := by
    intro map hmap
    obtain ⟨s, hs, rfl⟩ := mem_map.mp hmap
    exact (h.spaces s hs).1
  have entries : w.entries = [] := by
    rw [entries_eq, h.leaked, append_nil, flatten_eq_nil_iff]
    exact maps
  refine ⟨fun map hmap => maps map hmap ▸ wellFormed_nil, ?_, ?_, ?_⟩ <;> rw [entries]
  · exact .nil
  · exact nofun
  · exact nofun

/-- An invariant that the files have no part in, and what it needs beside `Base`. -/
structure Plain (env : Env) (i : Nat) (I : World → Prop) : Prop where
  files : ∀ {w} vnodes t, w.tick ≤ t → I w → I { w with vnodes := vnodes, tick := t }
  split : ∀ {w s threshold r map' t'}, Base w → I w → w.spaces[i]? = some s →
    threshold % pageSize = 0 → splitEntries env threshold s.map w.tick = (r, map', t') →
    I { w.setMap i map' with tick := t' }
  remove : ∀ {w s start stop}, Base w → I w → w.spaces[i]? = some s →
    (∀ e ∈ s.map, Beside start e) → (∀ e ∈ s.map, Beside stop e) →
    I ((w.setMap i (removeEntries start stop s.map).1).unmapAll i
      (removeEntries start stop s.map).2)

section Plain

variable {env : Env} {I : World → Prop}

theorem World.setMap_self (hs : w.spaces[i]? = some s) : w.setMap i s.map = w := by
  have same : w.spaces.modify i (fun s' => { s' with map := s.map }) = w.spaces := by
    apply ext_getElem?
    intro k
    by_cases hk : i = k
    · subst hk
      simp [hs]
    · simp [hk]
  unfold setMap
  rw [same]

theorem Plain.kept (plain : Plain env i I) : Kept env i (fun _ => True) fun w =>
    Base w ∧ I w where
  ok h := h.1.ok
  fresh h := h.1.fresh
  tick h := ⟨h.1.files _ (le_succ _), plain.files _ _ (le_succ _) h.2⟩
  split := by
    rintro w threshold - ⟨base, hI⟩
    rw [wlp_split_iff]
    intro ht s hs
    split
    all_goals
      rename_i run
      exact ⟨base.split hs ht run, plain.split base hI hs ht run⟩
  remove := by
    rintro w map start stop ⟨base, hI⟩ hmap hs hz
    rw [wlp_removeMappings]
    intro _ _ s hspace
    obtain rfl : s.map = map := Option.some.inj ((maps_get hspace).symm.trans hmap)
    refine unregister_frame.imp fun _ w' ⟨vnodes, h⟩ => ?_
    set r := removeEntries start stop s.map
    have up : w.Updates i ((w.setMap i r.1).unmapAll i r.2) s.map r.1 :=
      ⟨hmap, maps_unmapAll.trans (maps_setMap w i _)⟩
    have frame := unmapAll_frame (i := i) r.2 (w.setMap i r.1)
    rw [h]
    exact ⟨(base.sublist up frame.1 (le_of_eq frame.2.symm)
      (removeEntries_sublist start stop s.map)).files vnodes (le_refl _),
      plain.files vnodes _ (le_refl _) (plain.remove base hI hspace hs hz)⟩

/-- A new entry is the only one in its box, so it can be taken out again. -/
theorem filter_inserted {map : List MapEntry} (hmap : w.maps[i]? = some map)
    (hptr : ∀ e ∈ w.entries, e.ptr < new.ptr) (inserted : insertMapping map new = some map') :
    map'.filter (fun e => e.ptr ≠ new.ptr) = map := by
  obtain ⟨before, after, hold, rfl⟩ := insertMapping_eq inserted
  have others : ∀ e ∈ map, e.ptr ≠ new.ptr :=
    fun e he => (hptr e (Base.mem_entries hmap he)).ne
  rw [hold] at others ⊢
  rw [filter_append, filter_cons_of_neg (by simp), ← filter_append]
  exact filter_eq_self.mpr fun e he => by simpa using others e he

theorem Plain.insertKept (plain : Plain env i I) (hamap : inner.amap = none)
    (insert : ∀ {w s new map'}, new.inner = inner → Base w → I w → w.spaces[i]? = some s →
      Room s.map new → insertMapping s.map new = some map' → I (w.setMap i map')) :
    InsertKept env i (fun w => Base w ∧ I w) (fun w => Base w ∧ I w) (fun w => Base w ∧
      I w) inner := by
  rintro w map new rfl ⟨base, hI⟩ hmap room hptr htick
  obtain ⟨s, hs, rfl⟩ := spaces_get hmap
  obtain ⟨map', inserted, _⟩ := insertMapping_spec (base.ok.wellFormed hmap) room.nonempty
    room.aligned.1 room.aligned.2 room.clear
  refine (wlp_insertAndRegister_frame hs inserted).mono ?_ ?_
  · rintro _ _ ⟨vnodes, t, ht, rfl⟩
    exact ⟨(base.insert hs room hptr htick hamap inserted).files vnodes ht,
      plain.files vnodes t ht (insert rfl base hI hs room inserted)⟩
  · rintro _ ⟨vnodes, t, ht, rfl⟩
    rw [filter_inserted hmap hptr inserted, setMap_self hs]
    exact ⟨base.files vnodes ht, plain.files vnodes t ht hI⟩

end Plain

/-- What holds of every entry, and of every page table. -/
def Each (P : MapEntryInner → Prop) (Q : PhysMap → Prop) (w : World) : Prop :=
  ∀ s ∈ w.spaces, (∀ e ∈ s.map, P e.inner) ∧ Q s.pmap

namespace Each

variable {env : Env} {P : MapEntryInner → Prop} {Q : PhysMap → Prop}

theorem setPmap (h : Each P Q w)
    (hf : ∀ s, w.spaces[i]? = some s → Q s.pmap → Q (f s.pmap)) : Each P Q (w.setPmap i f) :=
  forall_modify h fun s hs hok => ⟨hok.1, hf s hs hok.2⟩

theorem setMap (h : Each P Q w) (hmap : ∀ e ∈ map', P e.inner) : Each P Q (w.setMap i map') :=
  forall_modify h fun _ _ hok => ⟨hmap, hok.2⟩

theorem entry (h : Each P Q w) (hs : w.spaces[i]? = some s) (he : e ∈ s.map) : P e.inner :=
  (h s (mem_of_getElem? hs)).1 e he

theorem setInner (h : Each P Q w) (hs : w.spaces[i]? = some s)
    (hguard : P guard) : Each P Q (w.setInner i j guard) := by
  rw [setInner_eq hs]
  apply h.setMap
  intro e he
  obtain he | ⟨_, _, rfl⟩ := mem_modify he
  · exact h.entry hs he
  · exact hguard

section

variable (unmapped : ∀ {pmap} vaddr size, Q pmap → Q (pmap.unmapMultiple vaddr size))
include unmapped

/-- Page tables may lose pages. -/
theorem unmapAll {removed : List MapEntry} : ∀ {w : World}, Each P Q w →
    Each P Q (w.unmapAll i removed) := by
  induction removed with
  | nil => exact fun h => h
  | cons e rest ih => exact fun h => ih (h.setPmap fun s _ hok => unmapped e.start _ hok)

/-- Splitting keeps what an overlay with fewer pages has. -/
theorem plain (part : ∀ {e e'}, PartOf e e' → P e.inner → P e'.inner) :
    Plain env i (Each P Q) where
  files _ _ _ h := h
  split := by
    intro w s threshold r map' t' base h hs ht run
    have hmap := maps_get hs
    obtain ⟨_, parts, _⟩ := splitEntries_parts run (base.ok.wellFormed hmap) ht
      fun e he => base.aligned e (Base.mem_entries hmap he)
    apply setMap h
    intro e' he'
    obtain ⟨e, he, of⟩ := parts e' he'
    exact part of (h.entry hs he)
  remove := by
    intro w s start stop _ h hs _ _
    apply unmapAll unmapped
    apply setMap h
    intro e he
    exact h.entry hs ((removeEntries_sublist start stop s.map).subset he)

end

theorem insertKept (plain : Plain env i (Each P Q)) (hamap : inner.amap = none)
    (new : P inner) : InsertKept env i (fun w => Base w ∧ Each P Q w)
    (fun w => Base w ∧ Each P Q w)
      (fun w => Base w ∧ Each P Q w) inner := by
  apply plain.insertKept hamap
  intro w s insert map' hinner _ h hs _ inserted
  obtain ⟨before, after, hold, rfl⟩ := insertMapping_eq inserted
  apply h.setMap
  intro e he
  obtain he | rfl | he : e ∈ before ∨ e = insert ∨ e ∈ after := by simpa using he
  · exact h.entry hs (hold ▸ mem_append_left _ he)
  · rw [hinner]
    exact new
  · exact h.entry hs (hold ▸ mem_append_right _ he)

end Each

end BadgerOS.Vmm
