import BadgerOS.Vmm.Invariants

/-!
# The mappings that a file knows of

`VNode` of `filesystem/vfs.rs` keeps the pairs of a space and an entry that map
the file, and a counter: entries that deny writing count up, handles that are
open for writing count down. The entries of the spaces and the records of the
files agree as long as no entry of a file is split, cloned or thrown away.
-/

namespace BadgerOS.Vmm

open Fallible Option List World

/-- A mapping of a file: the space and the entry, and whether it denies writing. -/
abbrev Registration := (Nat × Nat) × Bool

/-- The record of a file agrees with its mappings and its writable handles. -/
structure Matches (vnode : VNode) (writers : Nat) (live : List Registration) : Prop where
  pairs : vnode.mappings.Perm (live.map Prod.fst)
  count : vnode.denywrite = (live.countP Prod.snd : Int) - writers
  excluded : live.countP Prod.snd = 0 ∨ writers = 0

variable {ptr threshold start stop : Nat} {e : MapEntry} {r : Registration} {s : Space}
  {map' : List MapEntry} {E : World → Prop}

namespace Matches

variable {vnode : VNode} {writers : Nat} {live live' : List Registration}

theorem perm (h : Matches vnode writers live) (hp : live.Perm live') :
    Matches vnode writers live' := by
  have count := hp.countP_eq Prod.snd
  exact ⟨h.pairs.trans (hp.map _), count ▸ h.count, count ▸ h.excluded⟩

theorem countP_cons (p : Nat × Nat) (deny : Bool) (live : List Registration) :
    (((p, deny) :: live).countP Prod.snd : Int) = live.countP Prod.snd + denyCount deny := by
  cases deny <;> simp

/-- `on_mapped` adds a mapping, which may deny writing if there is no writer. -/
theorem mapped {p : Nat × Nat} {deny : Bool} (h : Matches vnode writers live)
    (allowed : ¬ (deny = true ∧ vnode.denywrite < 0)) :
    Matches ⟨vnode.mappings ++ [p], vnode.denywrite + denyCount deny⟩ writers
      ((p, deny) :: live) := by
  have hcount := h.count
  refine ⟨?_, ?_, ?_⟩
  · exact (h.pairs.append_right _).trans (perm_append_singleton _ _)
  · rw [countP_cons]
    dsimp only
    omega
  · cases deny with
    | false => simpa using h.excluded
    | true =>
      have := h.excluded
      simp only [true_and] at allowed
      omega

/-- `on_unmapped` removes all mappings of an entry, and there is just one. -/
theorem unmapped {range : Nat} {deny : Bool}
    (h : Matches vnode writers (((ptr, range), deny) :: live)) (apart : ∀ r ∈ live, r.1.2 ≠ range) :
    Matches ⟨vnode.mappings.filter (·.2 ≠ range), vnode.denywrite - denyCount deny⟩
      writers live := by
  have hcount := h.count
  rw [countP_cons] at hcount
  refine ⟨?_, ?_, ?_⟩
  · refine (h.pairs.filter _).trans ?_
    rw [map_cons, filter_cons_of_neg (by simp)]
    refine Perm.of_eq (filter_eq_self.mpr fun p hp => ?_)
    obtain ⟨r, hr, rfl⟩ := mem_map.mp hp
    simpa using apart r hr
  · dsimp only
    omega
  · refine h.excluded.imp_left fun none => ?_
    rw [countP_eq_zero] at none ⊢
    exact fun r hr => none r (mem_cons_of_mem _ hr)

/-- A handle can be opened for writing if and only if no mapping denies it. -/
theorem denywrite_le_zero (h : Matches vnode writers live) : vnode.denywrite ≤ 0 ↔
    live.countP Prod.snd = 0 := by
  have := h.count
  have := h.excluded
  omega

theorem opened (h : Matches vnode writers live) (allowed : vnode.denywrite ≤ 0) :
    Matches ⟨vnode.mappings, vnode.denywrite - 1⟩ (writers + 1) live := by
  refine ⟨h.pairs, ?_, .inl (h.denywrite_le_zero.mp allowed)⟩
  have := h.count
  dsimp only
  omega

theorem closed (h : Matches vnode (writers + 1) live) :
    Matches ⟨vnode.mappings, vnode.denywrite + 1⟩ writers live := by
  have := h.count
  refine ⟨h.pairs, ?_, ?_⟩
  · dsimp only
    omega
  · exact .inl (by have := h.excluded; omega)

end Matches

/-- The mapping of an object by an entry of the space at `ptr`. -/
def MapEntry.registration (object ptr : Nat) (e : MapEntry) : Option Registration :=
  if e.inner.mapping.map Mapping.object = some object then
    some ((ptr, e.ptr), decide (Has e.inner.mapFlags DENYWRITE))
  else none

/-- The mappings of an object by the entries of a space. -/
def mappingsIn (object ptr : Nat) (map : List MapEntry) : List Registration :=
  map.filterMap (·.registration object ptr)

/-- The entry maps a file. -/
abbrev MapEntry.MapsFile (env : Env) (e : MapEntry) : Prop :=
  ∃ m ∈ e.inner.mapping, env.isVNode m.object = true

section Entries

variable {env : Env} {object : Nat} {map : List MapEntry}

theorem registration_eq_some : e.registration object ptr = some r ↔
    (∃ m ∈ e.inner.mapping, m.object = object) ∧
      r = ((ptr, e.ptr), decide (Has e.inner.mapFlags DENYWRITE)) := by
  unfold MapEntry.registration
  split
  · rename_i maps
    constructor
    · intro h
      cases h
      exact ⟨map_eq_some_iff.mp maps, rfl⟩
    · rintro ⟨_, rfl⟩
      rfl
  · rename_i maps
    constructor
    · intro h
      cases h
    · rintro ⟨hm, _⟩
      exact absurd (map_eq_some_iff.mpr hm) maps

theorem registration_none (file : env.isVNode object = true) (h : ¬ e.MapsFile env) :
    e.registration object ptr = none := by
  rw [eq_none_iff_forall_ne_some]
  intro r hr
  obtain ⟨⟨m, hm, rfl⟩, _⟩ := registration_eq_some.mp hr
  exact h ⟨m, hm, file⟩

theorem registration_other {m : Mapping} (hm : e.inner.mapping = some m)
    (ne : object ≠ m.object) : e.registration object ptr = none := by
  simp [MapEntry.registration, hm, ne.symm]

theorem mappingsIn_map {g : MapEntry → MapEntry} (map : List MapEntry)
    (same : ∀ e, (g e).registration object ptr = e.registration object ptr) :
    mappingsIn object ptr (map.map g) = mappingsIn object ptr map := by
  unfold mappingsIn
  rw [filterMap_map]
  exact filterMap_congr fun e _ => same e

theorem mappingsIn_none (file : env.isVNode object = true) (h : ∀ e ∈ map, ¬ e.MapsFile env) :
    mappingsIn object ptr map = [] :=
  filterMap_eq_nil_iff.mpr fun e he => registration_none file (h e he)

theorem Splits.mappingsIn_eq (h : Splits threshold map map') (file : env.isVNode object = true)
    (uncut : ∀ e ∈ map, e.MapsFile env → Beside threshold e) :
    mappingsIn object ptr map' = mappingsIn object ptr map := by
  induction h with
  | same => rfl
  | @keep e _ _ _ ih =>
    unfold mappingsIn at ih ⊢
    rw [filterMap_cons, filterMap_cons, ih fun f hf => uncut f (mem_cons_of_mem _ hf)]
  | @cut e rest rest' box amap0 amap1 inside _ ih =>
    have none : ¬ e.MapsFile env := fun maps => by
      have := uncut e mem_cons_self maps
      omega
    unfold mappingsIn at ih ⊢
    rw [filterMap_cons_none (registration_none file none), filterMap_cons_none,
      filterMap_cons_none, ih fun f hf => uncut f (mem_cons_of_mem _ hf)]
    all_goals exact registration_none file none

/-- The mappings of the entries that are kept and of those that are taken out. -/
theorem removeEntries_perm (start stop : Nat) (map : List MapEntry) :
    map.Perm ((removeEntries start stop map).2 ++ (removeEntries start stop map).1) := by
  induction map with
  | nil => exact .nil
  | cons e rest ih =>
    unfold removeEntries
    split
    · exact .refl _
    · dsimp only
      split
      · exact ih.cons e
      · exact (ih.cons e).trans perm_middle.symm

end Entries

namespace World

/-- The mappings of an object by the live entries, by space. -/
def mappingsOf (object : Nat) (w : World) : List (List Registration) :=
  w.spaces.map fun s => mappingsIn object s.ptr s.map

/-- The record of each file agrees with the live entries. -/
def Registered (env : Env) (writers : Nat → Nat) (w : World) : Prop :=
  ∀ object, env.isVNode object = true →
    Matches (w.vnodes object) (writers object) (w.mappingsOf object).flatten

variable {w : World} {i object : Nat}

theorem setVNode_self (w : World) (object : Nat) (vnode : VNode) :
    (w.setVNode object vnode).vnodes object = vnode := by
  simp [setVNode]

theorem setVNode_other {other : Nat} {vnode : VNode} (h : object ≠ other) :
    (w.setVNode other vnode).vnodes object = w.vnodes object := by
  simp only [setVNode, Function.update_of_ne h]

theorem mappingsOf_get (object : Nat) (hs : w.spaces[i]? = some s) :
    (w.mappingsOf object)[i]? = some (mappingsIn object s.ptr s.map) := by
  rw [mappingsOf, getElem?_map, hs]
  rfl

theorem mappingsOf_setPmap (w : World) (i : Nat) (f : PhysMap → PhysMap) :
    (w.setPmap i f).mappingsOf object = w.mappingsOf object :=
  map_modify_eq fun _ _ => rfl

theorem mappingsOf_setMap (hs : w.spaces[i]? = some s) :
    (w.setMap i map').mappingsOf object = (w.mappingsOf object).set i
    (mappingsIn object s.ptr map') := by
  refine map_modify_set fun s' hs' => ?_
  obtain rfl : s = s' := some.inj (hs.symm.trans hs')
  rfl

/-- A list with the same mappings. -/
theorem mappingsOf_setMap_same (hs : w.spaces[i]? = some s)
    (same : mappingsIn object s.ptr map' = mappingsIn object s.ptr s.map) :
    (w.setMap i map').mappingsOf object = w.mappingsOf object := by
  obtain ⟨hi, hget⟩ := List.getElem?_eq_some_iff.mp (mappingsOf_get object hs)
  rw [mappingsOf_setMap hs, same, ← hget, set_getElem_self]

theorem mappingsOf_setInner {j : Nat} {entry : MapEntry} {guard : MapEntryInner}
    (hs : w.spaces[i]? = some s) (hentry : s.map[j]? = some entry)
    (hguard : { guard with amap := none } = { entry.inner with amap := none }) :
    (w.setInner i j guard).mappingsOf object = w.mappingsOf object := by
  rw [setInner_eq hs]
  refine mappingsOf_setMap_same hs ?_
  have same : (s.map.modify j (MapEntry.setInner guard)).map (·.registration object s.ptr) =
      s.map.map (·.registration object s.ptr) := by
    refine map_modify_eq fun e he => ?_
    obtain rfl : entry = e := some.inj (hentry.symm.trans he)
    have bare : ∀ inner : MapEntryInner, (entry.setInner inner).registration object s.ptr =
        (entry.setInner { inner with amap := none }).registration object s.ptr := fun _ => rfl
    rw [bare, hguard, ← bare]
    rfl
  have key := congrArg (filterMap id) same
  rwa [filterMap_map, filterMap_map] at key

end World

section Invariant

variable {env : Env} {i : Nat} {w : World} {writers : Nat → Nat} {thresholds : Nat →
  Prop} {T : Nat}

theorem World.Registered.of_same {w' : World} (h : w.Registered env writers)
    (vnodes : w'.vnodes = w.vnodes)
    (same : ∀ object, env.isVNode object = true → w'.mappingsOf object = w.mappingsOf object) :
    w'.Registered env writers := by
  intro object file
  rw [vnodes, same object file]
  exact h object file

/-- No file entry of the space crosses the threshold. -/
def Uncut (env : Env) (w : World) (i threshold : Nat) : Prop :=
  ∀ map ∈ w.maps[i]?, ∀ e ∈ map, e.MapsFile env → Beside threshold e

/-- What the steps of one call keep: no file entry crosses its thresholds. -/
structure Uncuts (env : Env) (i : Nat) (thresholds : Nat → Prop) (T : Nat)
    (w : World) : Prop where
  tick : T ≤ w.tick
  uncut : ∀ threshold, thresholds threshold → Uncut env w i threshold

theorem uncuts_plain : Plain env i (Uncuts env i thresholds T) where
  files _ _ ht h := ⟨Nat.le_trans h.tick ht, h.uncut⟩
  split := by
    intro w s threshold r map' t' base h hs ht run
    have hmap := maps_get hs
    obtain ⟨htick, parts, _⟩ := splitEntries_parts run (base.ok.wellFormed hmap) ht
      fun e he => base.aligned e (Base.mem_entries hmap he)
    refine ⟨Nat.le_trans h.tick htick, fun other hother map hget e' he' => ?_⟩
    have up : w.Updates i (w.setMap i map') s.map map' := ⟨hmap, maps_setMap w i map'⟩
    obtain rfl : map' = map := some.inj (up.get.symm.trans hget)
    obtain ⟨e, he, part⟩ := parts e' he'
    rintro ⟨m, hm, file⟩
    have mapping := (MapEntryInner.eq_of_bare part.inner).2.2
    have := h.uncut other hother s.map hmap e he ⟨m, mapping ▸ hm, file⟩
    have := part.range
    omega
  remove := by
    intro w s start stop _ h hs _ _
    have hmap := maps_get hs
    set r := removeEntries start stop s.map
    have frame := unmapAll_frame (i := i) r.2 (w.setMap i r.1)
    refine ⟨frame.2 ▸ h.tick, fun other hother map hget e he => ?_⟩
    rw [maps_unmapAll] at hget
    have up : w.Updates i (w.setMap i r.1) s.map r.1 := ⟨hmap, maps_setMap w i _⟩
    obtain rfl := some.inj (up.get.symm.trans hget)
    exact h.uncut other hother s.map hmap e ((removeEntries_sublist start stop s.map).subset he)

/-- An entry is withdrawn from the record of its file. -/
theorem withdraw_matches {L : Nat → List Registration}
    (agree : ∀ object, env.isVNode object = true → Matches (w.vnodes object) (writers object)
      (mappingsIn object ptr [e] ++ L object))
    (apart : ∀ object, ∀ r ∈ L object, r.1.2 ≠ e.ptr) :
    wlp (withdraw env e) (fun _ w' => (∃ vnodes, w' = { w with vnodes := vnodes }) ∧
      ∀ object, env.isVNode object = true →
        Matches (w'.vnodes object) (writers object) (L object)) E w := by
  -- Objects other than that of the entry have no mapping by it.
  have other : ∀ object, env.isVNode object = true → e.registration object ptr = none →
      Matches (w.vnodes object) (writers object) (L object) := by
    intro object file none
    have key := agree object file
    rwa [mappingsIn, filterMap_cons_none none] at key
  unfold withdraw
  split
  · rename_i m hm
    rw [wlp_onUnmapped]
    split
    · rename_i notFile
      refine ⟨⟨w.vnodes, rfl⟩,
        fun object file => other object file (registration_none file ?_)⟩
      simp [hm, notFile]
    · refine fun _ => ⟨⟨_, rfl⟩, fun object file => ?_⟩
      by_cases heq : object = m.object
      · subst heq
        have known : e.registration m.object ptr = some
            ((ptr, e.ptr), decide (Has e.inner.mapFlags DENYWRITE)) :=
          registration_eq_some.mpr ⟨⟨m, hm, rfl⟩, rfl⟩
        have key := agree m.object file
        rw [mappingsIn, filterMap_cons_some known] at key
        rw [setVNode_self]
        exact key.unmapped (apart m.object)
      · rw [setVNode_other heq]
        exact other object file (registration_other hm heq)
  · rename_i none
    rw [wlp_pure]
    refine ⟨⟨w.vnodes, rfl⟩,
      fun object file => other object file (registration_none file ?_)⟩
    simp [none]

/-- The files agree after each removed entry has been withdrawn. -/
theorem unregister_registered {removed : List MapEntry} (ptr : Nat) : ∀ {w : World},
    (∀ object, env.isVNode object = true → Matches (w.vnodes object) (writers object)
      (mappingsIn object ptr removed ++ (w.mappingsOf object).flatten)) →
    (removed.map MapEntry.ptr).Nodup →
    (∀ e ∈ removed, ∀ object, ∀ r ∈ (w.mappingsOf object).flatten, r.1.2 ≠ e.ptr) →
    wlp (unregister env i removed) (fun _ => Registered env writers) E w := by
  induction removed with
  | nil =>
    intro w agree _ _
    exact wlp_pure.mpr agree
  | cons e rest ih =>
    intro w agree nodup apart
    rw [map_cons, nodup_cons] at nodup
    simp only [unregister, wlp_bind, wlp_modify]
    have first : ∀ object, env.isVNode object = true →
      Matches (w.vnodes object) (writers object)
        (mappingsIn object ptr
            [e] ++ (mappingsIn object ptr rest ++ (w.mappingsOf object).flatten)) := by
      intro object file
      rw [← append_assoc, mappingsIn, mappingsIn, ← filterMap_append]
      exact agree object file
    refine (withdraw_matches (w := w.setPmap i _) first ?_).imp ?_
    · intro object r hr
      obtain hr | hr := mem_append.mp hr
      · obtain ⟨f, hf, known⟩ := mem_filterMap.mp hr
        rw [(registration_eq_some.mp known).2]
        exact fun heq => nodup.1 (heq ▸ mem_map_of_mem hf)
      · exact apart e mem_cons_self object r hr
    · rintro _ _ ⟨⟨vnodes, rfl⟩, agree'⟩
      have same : ∀ object, mappingsOf object { w.setPmap i
          (PhysMap.unmapMultiple e.start (e.stop - e.start)) with vnodes := vnodes } =
          w.mappingsOf object := fun object => mappingsOf_setPmap w i _
      refine ih (fun object file => ?_) nodup.2 fun f hf object => ?_
      · rw [same]
        exact agree' object file
      · rw [same]
        exact apart f (mem_cons_of_mem _ hf) object

theorem World.mem_mappingsOf {object : Nat} (h : r ∈ (w.mappingsOf object).flatten) :
    ∃ e ∈ w.entries, r.1.2 = e.ptr := by
  obtain ⟨_, hl, hr⟩ := mem_flatten.mp h
  obtain ⟨s, hs, rfl⟩ := mem_map.mp hl
  obtain ⟨e, he, known⟩ := mem_filterMap.mp hr
  refine ⟨e, ?_, congrArg (fun r => r.1.2) (registration_eq_some.mp known).2⟩
  rw [entries_eq, mem_append, mem_flatten]
  exact .inl ⟨s.map, mem_map_of_mem hs, he⟩

theorem split_registered (uncut : Uncut env w i threshold) (reg : w.Registered env writers) :
    wlp (split env i threshold) (fun _ => Registered env writers) (Registered env writers) w := by
  refine wlp_split fun s map' t' hs aligned splits => ?_
  have reg' : Registered env writers { w.setMap i map' with tick := t' } :=
    reg.of_same rfl fun object file => mappingsOf_setMap_same hs
      (splits.mappingsIn_eq file (uncut s.map (maps_get hs)))
  exact ⟨reg', fun _ => reg'⟩

theorem remove_registered (base : Base w) (reg : w.Registered env writers) :
    wlp (removeMappings env i start stop) (fun _ => Registered env writers) E w := by
  rw [wlp_removeMappings]
  intro _ _ s hs
  have hmap := maps_get hs
  have perm := removeEntries_perm start stop s.map
  generalize removeEntries start stop s.map = r at *
  have up : w.Updates i (w.setMap i r.1) s.map r.1 := ⟨hmap, maps_setMap w i _⟩
  obtain ⟨others, before, after⟩ := up.entries_perm rfl
  have boxes : (r.2.map MapEntry.ptr ++ (w.setMap i r.1).entries.map MapEntry.ptr).Nodup := by
    rw [← map_append]
    have all : w.entries.Perm (r.2 ++ (w.setMap i r.1).entries) := by
      refine before.trans ((perm.append_right others).trans ?_)
      rw [append_assoc]
      exact Perm.append_left _ after.symm
    exact (all.map _).nodup_iff.mp base.boxes
  obtain ⟨nodup, _, apart⟩ := nodup_append.mp boxes
  refine unregister_registered s.ptr (fun object file => ?_) nodup fun e he object r' hr => ?_
  · obtain ⟨rest, old, new⟩ := flatten_set_perm (mappingsOf_get object hs)
    rw [mappingsOf_setMap hs]
    refine (reg object file).perm (old.trans ?_)
    have split := (perm.filterMap (·.registration object s.ptr)).append_right rest
    rw [filterMap_append, append_assoc] at split
    exact split.trans (Perm.append_left _ (new _).symm)
  · obtain ⟨f, hf, heq⟩ := mem_mappingsOf hr
    rw [heq]
    exact (apart e.ptr (mem_map_of_mem he) f.ptr (mem_map_of_mem hf)).symm

theorem registered_kept (thresholds : Nat → Prop) (T : Nat) : Kept env i thresholds fun w =>
    (Base w ∧ Uncuts env i thresholds T w) ∧ w.Registered env writers where
  ok h := h.1.1.ok
  fresh h := h.1.1.fresh
  tick h := ⟨uncuts_plain.kept.tick h.1, h.2⟩
  split ht h := (uncuts_plain.kept.split trivial h.1).both (split_registered (h.1.2.uncut _ ht) h.2)
  remove h hmap hs hz :=
    (uncuts_plain.kept.remove h.1 hmap hs hz).both (remove_registered h.1.1 h.2)

theorem registered_fault : FaultKept env i fun w => Base w ∧ w.Registered env writers where
  step := by
    rintro access j vaddr w w' s entry ⟨base, reg⟩ hs hentry step
    refine ⟨base.faultStep hs hentry step, ?_⟩
    have hs₁ := setPmap_get (evict vaddr) hs
    have evicted : (w.setPmap i (evict vaddr)).Registered env
        writers := reg.of_same rfl fun object _ => mappingsOf_setPmap w i _
    cases step with
    | stale => exact reg
    | denied => exact evicted
    | failed w₁ hw₁ _ _ resolved =>
      subst hw₁
      exact evicted.of_same rfl fun object _ =>
        mappingsOf_setInner hs₁ hentry (MapEntryInner.resolve_guard resolved)
    | mapped w₁ done hw₁ _ _ resolved _ =>
      subst hw₁
      refine evicted.of_same rfl fun object _ => ?_
      refine Eq.trans ?_ (mappingsOf_setInner hs₁ hentry (MapEntryInner.resolve_guard resolved))
      exact mappingsOf_setPmap _ i _

/-- The entry denies writing to a file, which could not note it. -/
def ReserveFailed (env : Env) (inner : MapEntryInner) (T : Nat) (w : World) : Prop :=
  (Has inner.mapFlags DENYWRITE ∧ ∃ m ∈ inner.mapping, env.isVNode m.object = true) ∧
    ∃ t, T ≤ t ∧ t < w.tick ∧ env.reserveOk t = false

section Insert

variable {new : MapEntry} {object : Nat}

theorem mappingsOf_insert_none (hs : w.spaces[i]? = some s)
    (inserted : insertMapping s.map new = some map')
    (none : new.registration object s.ptr = none) :
    (w.setMap i map').mappingsOf object = w.mappingsOf object := by
  obtain ⟨before, after, hold, rfl⟩ := insertMapping_eq inserted
  refine mappingsOf_setMap_same hs ?_
  rw [hold, mappingsIn, mappingsIn, filterMap_append, filterMap_cons_none none,
    ← filterMap_append]

section

variable (hs : w.spaces[i]? = some s) (inserted : insertMapping s.map new = some map')
include hs inserted

theorem mappingsOf_insert_some (known : new.registration object s.ptr = some r) :
    (r :: (w.mappingsOf object).flatten).Perm ((w.setMap i map').mappingsOf object).flatten := by
  obtain ⟨before, after, hold, rfl⟩ := insertMapping_eq inserted
  obtain ⟨rest, old, new⟩ := flatten_set_perm (mappingsOf_get object hs)
  rw [mappingsOf_setMap hs]
  refine (old.cons r).trans (Perm.trans ?_ (new _).symm)
  rw [← cons_append]
  refine Perm.append_right rest ?_
  rw [hold, mappingsIn, mappingsIn, filterMap_append, filterMap_append, filterMap_cons_some known]
  exact perm_middle.symm

/-- An entry whose file does not accept it is taken out again. -/
theorem mappingsOf_removeEntry {w₁ : World} (hptr : ∀ e ∈ w.entries, e.ptr < new.ptr)
    (spaces : w₁.spaces = (w.setMap i map').spaces) :
    (removeEntry i new.ptr w₁).mappingsOf object = w.mappingsOf object := by
  unfold mappingsOf removeEntry
  rw [spaces, setMap, modify_modify_eq]
  refine map_modify_eq fun s' hs' => ?_
  obtain rfl : s = s' := some.inj (hs.symm.trans hs')
  simp only [Function.comp_apply, filter_inserted (maps_get hs) hptr inserted]

theorem insert_registered (reg : w.Registered env writers)
    (hptr : ∀ e ∈ w.entries, e.ptr < new.ptr) (htick : T ≤ w.tick) :
    wlp (insertAndRegister env i new) (fun _ => Registered env writers)
      (fun w' => w'.Registered env writers ∨ ReserveFailed env new.inner T w') w := by
  have noFile : ¬ new.MapsFile env → (w.setMap i map').Registered env writers :=
    fun none => reg.of_same rfl fun object file =>
      mappingsOf_insert_none hs inserted (registration_none file none)
  simp only [insertAndRegister, wlp_bind, wlp_space, wlp_lift, wlp_modify]
  intro s₁ hs₁ map₁ inserted₁
  obtain rfl : s = s₁ := some.inj (hs.symm.trans hs₁)
  obtain rfl : map' = map₁ := some.inj (inserted.symm.trans inserted₁)
  split
  · rename_i none
    exact wlp_pure.mpr (noFile (by simp [none]))
  · rename_i m hm
    rw [wlp_onError, wlp_onMapped]
    split
    · rename_i notFile
      exact noFile (by simp [hm, notFile])
    · rename_i isFile
      dsimp only
      split
      · exact .inl (reg.of_same rfl fun object _ => mappingsOf_removeEntry hs inserted hptr rfl)
      · rename_i allowed
        refine ⟨fun _ object file => ?_, fun failed => ?_⟩
        · by_cases heq : object = m.object
          · subst heq
            have known : new.registration m.object s.ptr =
                some ((s.ptr, new.ptr), decide (Has new.inner.mapFlags DENYWRITE)) :=
              registration_eq_some.mpr ⟨⟨m, hm, rfl⟩, rfl⟩
            rw [setVNode_self]
            exact ((reg m.object file).mapped allowed).perm
              (mappingsOf_insert_some hs inserted known)
          · rw [setVNode_other heq]
            have key := reg object file
            rw [← mappingsOf_insert_none hs inserted (registration_other hm heq)] at key
            exact key
        · by_cases deny : Has new.inner.mapFlags DENYWRITE
          · rw [Bool.not_eq_false] at isFile
            exact .inr ⟨⟨deny, m, hm, isFile⟩, w.tick, htick, Nat.lt_succ_self _, failed⟩
          · -- Only the counter is left behind, and this entry does not count.
            refine .inl (reg.of_same ?_ fun object _ => mappingsOf_removeEntry hs inserted hptr rfl)
            simp only [deny, decide_false, denyCount_false, Int.add_zero]
            exact Function.update_eq_self m.object w.vnodes

end

end Insert

theorem registered_insert {inner : MapEntryInner} (hamap : inner.amap = none) :
    InsertKept env i (fun w => (Base w ∧ Uncuts env i thresholds T w) ∧
      w.Registered env writers) (fun w => Base w ∧ w.Registered env writers)
      (fun w => (Base w ∧ w.Registered env writers) ∨ ReserveFailed env inner T w) inner := by
  rintro w map new rfl ⟨⟨base, uncuts⟩, reg⟩ hmap room hptr htick
  obtain ⟨s, hs, rfl⟩ := spaces_get hmap
  obtain ⟨map', inserted, _⟩ := insertMapping_spec (base.ok.wellFormed hmap) room.nonempty
    room.aligned.1 room.aligned.2 room.clear
  have plain : Plain env i fun _ => True := ⟨fun _ _ _ _ => trivial, fun _ _ _ _ _ => trivial,
    fun _ _ _ _ _ => trivial⟩
  have kept :=
    plain.insertKept hamap (fun _ _ _ _ _ _ => trivial) rfl ⟨base, trivial⟩ hmap room hptr htick
  refine (kept.both (insert_registered hs inserted reg hptr uncuts.tick)).mono ?_ ?_
  · exact fun _ w' ⟨⟨base', _⟩, reg'⟩ => ⟨base', reg'⟩
  · exact fun w' ⟨⟨base', _⟩, reg'⟩ => reg'.imp_left fun reg' => ⟨base', reg'⟩

/-- No entry of the space maps a file. -/
def NoFiles (env : Env) (w : World) (i : Nat) : Prop :=
  ∀ map ∈ w.maps[i]?, ∀ e ∈ map, ¬ e.MapsFile env

/-- All reservations made in the course of the call succeed. -/
def Reserves (env : Env) (w : World) (call : Call) : Prop :=
  ∀ p ∈ exec env call w, ∀ t < p.2.tick, w.tick ≤ t → env.reserveOk t = true

/-- The call cuts, clones or throws away no entry of a file, and a file can note
a mapping that denies writing. -/
def Call.Careful (env : Env) (w : World) : Call → Prop
  | .map i size hint start stop mapFlags protFlags mapping =>
    stop < usizeSize ∧
    (Has mapFlags FIXED → Uncut env w i hint ∧ Uncut env w i (hint + FlatMap.pagesSize
    size)) ∧ ((Has mapFlags DENYWRITE ∧ ∃ m ∈ mapping, env.isVNode m.object = true) →
      Reserves env w (.map i size hint start stop mapFlags protFlags mapping))
  | .unmap i start stop => Uncut env w i (pageFloor start) ∧
    Uncut env w i (FlatMap.pagesSize stop)
  | .protect i start stop _ => Uncut env w i start ∧ Uncut env w i stop
  | .fault .. => True
  | .fork i => NoFiles env w i
  | .clear i => NoFiles env w i
  | .drop i => NoFiles env w i

theorem protect_registered {protFlags : ProtFlags} (base : Base w)
    (reg : w.Registered env writers) (hs : w.spaces[i]? = some s) :
    Registered env writers
      { (w.setPmap i (protectPmap env start stop w.tick protFlags s.map)).setMap i
          (protectEntries start stop protFlags s.map) with tick := w.tick + 1 } := by
  have hs₁ := setPmap_get (protectPmap env start stop w.tick protFlags s.map) hs
  refine reg.of_same rfl fun object _ => ?_
  refine (mappingsOf_setMap_same hs₁ ?_).trans (mappingsOf_setPmap w i _)
  rw [protectEntries_eq (base.ok.wellFormed (maps_get hs))]
  refine mappingsIn_map s.map fun e => ?_
  unfold reprotect
  split <;> rfl

section

variable (reg : w.Registered env writers) (none : NoFiles env w i)
include reg none

theorem fork_registered : wlp (fork env i) (fun _ => Registered env writers)
    (Registered env writers) w := by
  refine wlp_fork ?_ ?_
  · intro s e new pmap t t' _ _ _
    exact reg.of_same rfl fun object _ => mappingsOf_setPmap w i fun _ => pmap
  · intro s new pmap t hs forked object file
    have clones : mappingsIn object t new = [] := by
      refine mappingsIn_none file fun e he => ?_
      obtain ⟨f, hf, same⟩ := ((forkEntries_boxes forked).2.2 e he).2.2
      rintro ⟨m, hm, hfile⟩
      exact none s.map (maps_get hs) f hf ⟨m, same ▸ hm, hfile⟩
    have same : mappingsOf object { w.setPmap i (fun _ => pmap) with
        tick := t + 1, spaces :=
          (w.setPmap i fun _ => pmap).spaces ++ [⟨t, new, fun _ => .none⟩] } =
        w.mappingsOf object ++ [[]] := by
      unfold mappingsOf
      rw [map_append, map_singleton, clones]
      exact congrArg (· ++ [[]]) (mappingsOf_setPmap w i _)
    rw [same, flatten_append, flatten_singleton, append_nil]
    exact reg object file

theorem clear_registered : wlp (clear i) (fun _ => Registered env writers)
    (Registered env writers) w := by
  rw [clear, wlp_modify]
  refine reg.of_same rfl fun object file => ?_
  refine map_modify_eq fun s hs => ?_
  exact (mappingsIn_none file (none s.map (maps_get hs))).symm

theorem drop_registered : wlp (dropSpace i) (fun _ => Registered env writers)
    (Registered env writers) w := by
  rw [dropSpace, wlp_modify]
  intro object file
  have erased : mappingsOf object { w with spaces := w.spaces.eraseIdx i } =
      (w.mappingsOf object).eraseIdx i := (eraseIdx_map _ _ _).symm
  have same : ((w.mappingsOf object).eraseIdx i).flatten = (w.mappingsOf object).flatten := by
    cases hs : w.spaces[i]? with
    | none =>
      rw [eraseIdx_of_length_le]
      simpa [mappingsOf] using hs
    | some s =>
      obtain ⟨hi, hget⟩ := List.getElem?_eq_some_iff.mp (mappingsOf_get object hs)
      rw [mappingsIn_none file (none s.map (maps_get hs))] at hget
      conv_rhs => rw [← take_append_drop i (w.mappingsOf object), drop_eq_getElem_cons hi, hget]
      rw [eraseIdx_eq_take_drop_succ, flatten_append, flatten_append, flatten_cons, nil_append]
  rw [erased, same]
  exact reg object file

end

theorem exec_registered {call : Call} (careful : call.Careful env w) (base : Base w)
    (reg : w.Registered env writers) :
    wlp (exec env call) (fun _ w => Base w ∧ w.Registered env writers)
      (fun w => Base w ∧ w.Registered env writers) w := by
  cases call with
  | map i size hint start stop mapFlags protFlags mapping =>
    obtain ⟨hstop, ends, reserves⟩ := careful
    intro r w' run
    have key : wlp (map env i size hint start stop mapFlags protFlags mapping)
        (fun _ w => Base w ∧ w.Registered env writers)
        (fun w₁ => (Base w₁ ∧ w₁.Registered env writers) ∨
          ReserveFailed env ⟨protFlags, mapFlags, none, mapping⟩ w.tick w₁) w := by
      refine map_keeps (registered_kept (fun t => Has mapFlags FIXED ∧
        (t = hint ∨ t = hint + FlatMap.pagesSize size)) w.tick) registered_fault ?_ hstop ?_ ?_
        (registered_insert rfl)
      · exact fun w₁ h => .inl (h.elim (fun h => ⟨h.1.1, h.2⟩) id)
      · refine ⟨⟨base, le_rfl, ?_⟩, reg⟩
        rintro _ ⟨fixed, rfl | rfl⟩
        · exact (ends fixed).1
        · exact (ends fixed).2
      · exact fun fixed => ⟨⟨fixed, .inl rfl⟩, ⟨fixed, .inr rfl⟩⟩
    have key := key r w' run
    cases r with
    | ok _ => exact key
    | error _ =>
      refine key.resolve_right ?_
      rintro ⟨file, t, low, high, failed⟩
      rw [reserves file _ run t high low] at failed
      cases failed
  | unmap i start stop =>
    rw [exec, wlp_bind]
    refine (unmap_keeps (registered_kept (fun t => t = pageFloor start ∨ t = FlatMap.pagesSize
      stop) w.tick) ⟨⟨base, le_rfl, ?_⟩, reg⟩ ⟨.inl rfl, .inr rfl⟩).mono
      (fun _ _ h => wlp_pure.mpr ⟨h.1.1, h.2⟩) fun _ h => ⟨h.1.1, h.2⟩
    rintro _ (rfl | rfl)
    · exact careful.1
    · exact careful.2
  | protect i start stop protFlags =>
    rw [exec, wlp_bind]
    refine (protect_keeps (registered_kept (fun t => t = start ∨ t = stop) w.tick)
      ⟨⟨base, le_rfl, ?_⟩, reg⟩ ⟨.inl rfl, .inr rfl⟩ ?_).mono
        (fun _ _ h => wlp_pure.mpr h) fun _ h => ⟨h.1.1, h.2⟩
    · rintro _ (rfl | rfl)
      · exact careful.1
      · exact careful.2
    · exact fun h hs => ⟨h.1.1.protect hs (Nat.le_succ _), protect_registered h.1.1 h.2 hs⟩
  | fault => exact (registered_fault.fault ⟨base, reg⟩).andPure
  | fork => exact (base.fork.both (fork_registered reg careful)).andPure
  | clear => exact (base.clear.both (clear_registered reg careful)).andPure
  | drop => exact (base.drop.both (drop_registered reg careful)).andPure

end Invariant

end BadgerOS.Vmm
