import BadgerOS.Vmm.Invariants

/-!
# Requests for a mapping

What `map` leaves behind when it fails.
-/

namespace BadgerOS.Vmm

open Fallible Option

/-- What the entries say of an address: its flags and its object. -/
def objectsAt (map : List MapEntry) (v : Nat) : Option ((ProtFlags × MapFlags) × Option Nat) :=
  (entryAt map v).map fun e => (e.flags, e.inner.mapping.map (·.object))

def World.objects (w : World) : List (Nat → Option ((ProtFlags × MapFlags) × Option Nat)) :=
  w.maps.map objectsAt

section Failure

variable {env : Env} {i size hint start stop : Nat} {mapFlags : MapFlags} {protFlags : ProtFlags}
  {mapping : Option Mapping} {w w' : World}

theorem World.views_of_objects (same : w'.objects = w.objects) : w'.views = w.views := by
  have flags (w : World) : w.views = w.objects.map fun f v => (f v).map (·.1) := by
    simp only [World.views, World.objects, List.map_map, Function.comp_def]
    congr
    funext map v
    simp [flagsAt, objectsAt, Function.comp_def]
  rw [flags, flags, same]

/-- An empty address space has room for the request, and there may be an object that has the
last page of the range. -/
def Placeable (size hint start stop : Nat) (mapping : Option Mapping) : Prop :=
  (hint % pageSize = 0 ∧ start % pageSize = 0 ∧ stop % pageSize = 0) ∧
  ∃ size', roundUp size = some size' ∧ size' ≠ 0 ∧ size' + 2 * mapMargin ≤
    stop - start ∧ ∀ m ∈ mapping, m.offset + size' < usizeSize + pageSize - 1

theorem insertAndRegister_error {insert : MapEntry}
    (fresh : ∀ e ∈ w.entries, e.ptr < insert.ptr) :
    wlp (insertAndRegister env i insert) (fun _ _ => True) (fun w' => w'.maps = w.maps) w := by
  by_cases inserts : ∃ s map', w.spaces[i]? = some s ∧ insertMapping s.map insert = some map'
  · obtain ⟨s, map', hs, inserted⟩ := inserts
    have hmap := World.maps_get hs
    refine (wlp_insertAndRegister_maps hmap inserted).mono (fun _ _ _ => trivial) fun w' up => ?_
    rw [up.after, filter_inserted hmap fresh inserted]
    obtain ⟨lt, eq⟩ := List.getElem?_eq_some_iff.mp hmap
    rw [← eq, List.set_getElem_self]
  · simp only [insertAndRegister, wlp_bind, wlp_space, wlp_lift]
    intro s hs map' inserted
    exact absurd ⟨s, map', hs, inserted⟩ inserts

theorem mapDynamic_error (fresh : ∀ e ∈ w.entries, e.ptr < w.tick) :
    wlp (mapDynamic env i size hint start stop mapFlags protFlags mapping) (fun _ _ => True)
      (fun w' => w'.maps = w.maps) w := by
  simp only [mapDynamic, wlp_bind, wlp_assert, wlp_space, wlp_liftExcept, wlp_allocate, wlp_lift]
  intro _ _ _ _ s _
  refine ⟨fun _ _ => ⟨fun addr _ => ⟨fun _ stop _ => ?_, fun _ => rfl⟩,
    fun _ _ => trivial⟩, fun _ _ => trivial⟩
  refine wlp.imp (insertAndRegister_error ?_) fun _ _ _ => wlp_pure.mpr trivial
  exact fresh

theorem mapDynamic_aligned : wlp (mapDynamic env i size hint start stop mapFlags protFlags mapping)
    (fun _ _ => start % pageSize = 0 ∧ stop % pageSize = 0) (fun _ => True) w := by
  simp only [mapDynamic, wlp_bind, wlp_assert, wlp_space, wlp_liftExcept, wlp_allocate, wlp_lift]
  intro _ _ hs hz s _
  refine ⟨fun _ _ => ⟨fun _ _ => ⟨fun _ _ _ r _ _ => ?_, fun _ => trivial⟩,
    fun _ _ => trivial⟩, fun _ _ => trivial⟩
  cases r with
  | ok _ => exact wlp_pure.mpr ⟨hs, hz⟩
  | error _ => trivial

/-- A request without `FIXED` that could be placed. -/
theorem mapDynamic_placeable {addr size' : Nat} (ok : w.Ok) (hstop : stop < usizeSize)
    (aligned : hint % pageSize = 0) (rounded : roundUp size = some size') (nonzero : size' ≠ 0)
    (sized : ∀ m ∈ mapping, m.offset + size' < usizeSize + pageSize - 1)
    (mapped : mapDynamic env i size' hint start stop mapFlags protFlags mapping w = some
    (.ok addr, w')) : Placeable size hint start stop mapping := by
  obtain ⟨-, f, -, inside, -, -⟩ :=
    mapDynamic_flat ok (Nat.pos_of_ne_zero nonzero) hstop _ _ mapped
  obtain ⟨hs, hz⟩ := mapDynamic_aligned _ _ mapped
  refine ⟨⟨aligned, hs, hz⟩, size', rounded, nonzero, ?_, sized⟩
  omega

/-- The object has the last page of the range. -/
theorem mappingSize_sized {m : Mapping} {t objectSize size' : Nat}
    (sized : env.objectLen m.object t < usizeSize)
    (measured : mappingSize env m t = some objectSize) (le : size' ≤ objectSize)
    (page : size' % pageSize = 0) : m.offset + size' < usizeSize + pageSize - 1 := by
  obtain ⟨len, sub, rounded⟩ := bind_eq_some_iff.mp measured
  rw [usizeSub_eq_some] at sub
  obtain ⟨lt, eq⟩ := ite_none_right_eq_some.mp rounded
  cases eq
  simp only [pageSize, usizeSize] at *
  omega

/-! ### Requests that cannot be populated -/

/-- No page can be had, neither for an overlay nor from an object of `len` bytes. -/
def shortEnv (len : Nat) : Env :=
  { calmEnv with
    pageAlloc := fun _ => none
    objectLen := fun _ _ => len
    isVNode := fun _ => false }

theorem mappingSize_short {m : Mapping} {t size' : Nat} (page : size' % pageSize = 0)
    (nonzero : size' ≠ 0) (small : size' < usizeSize) :
    mappingSize (shortEnv (m.offset + size' - pageSize + 1)) m t = some size' := by
  have sub : usizeSub (m.offset + size' - pageSize + 1) m.offset = some (size' - pageSize + 1) := by
    rw [usizeSub_eq_some]
    simp only [pageSize] at *
    omega
  have pages : (size' - pageSize + 1 + (pageSize - 1)) / pageSize * pageSize = size' := by
    simp only [pageSize] at *
    omega
  show (usizeSub (m.offset + size' - pageSize + 1) m.offset).bind roundUp = _
  rw [sub, bind_some, roundUp, pages, if_pos small]

variable (protFlags mapFlags mapping) in
theorem resolve_short (len : Nat) (handles : Handles) (mem : Memory) (t : Nat) :
    ∃ e r, MapEntryInner.resolve (shortEnv len) ⟨protFlags, mapFlags, none, mapping⟩ handles 0
      (if mapping.isSome then Prot.READ else Prot.WRITE) mem t = (.error e, r) := by
  cases mapping with
  | none => simp [MapEntryInner.resolve, MapEntryInner.getPage, MapEntryInner.getAnon, zeroesPage,
      MapEntryInner.allocPage, MapEntryInner.findPage, MapEntryInner.ownAmap, AnonMap.allocPage,
        AnonMap.grow,
      tryAlloc, shortEnv, calmEnv]
  | some m => exact ⟨_, _, rfl⟩

variable (hint) in
theorem placeWithin_ok (fits : size + 2 * mapMargin ≤ stop - start) (hstop : stop < usizeSize) :
    ∃ addr, placeWithin size hint start stop = some (.ok addr) := by
  have page : mapMargin = pageSize := rfl
  have pos : 0 < pageSize := by decide
  have some_add {a b : Nat} (h : a + b < usizeSize) : usizeAdd a b = some (a + b) := if_pos h
  have some_sub {a b : Nat} (h : b ≤ a) : usizeSub a b = some (a - b) := if_pos h
  unfold placeWithin
  rw [some_add (by omega), bind_eq_bind, bind_some, if_neg (by omega), some_add (by omega)]
  simp only [bind_some]
  split
  · exact ⟨_, rfl⟩
  · rw [some_sub (by omega), bind_some]
    split
    · rw [some_sub (by omega), bind_some, some_sub (by omega)]
      exact ⟨_, rfl⟩
    · exact ⟨_, rfl⟩

/-- A fault in an address space of one entry that has no pages yet. -/
theorem fault_short {addr : Nat} (size' len : Nat) (entry : MapEntry)
    (found : space 0 w = some (.ok ⟨0, [entry], fun _ => none⟩, w))
    (inner : entry.inner = ⟨protFlags, mapFlags, none, mapping⟩) (at_start : entry.start = addr)
    (inside : addr < entry.stop) (aligned : addr % pageSize = 0) :
    ∃ e w', fault (shortEnv len) 0 addr (if mapping.isSome then Prot.READ else Prot.WRITE)
      size' w = some (.error e, w') := by
  generalize haccess : (if mapping.isSome then Prot.READ else Prot.WRITE) = access
  obtain ⟨e, w', failed⟩ : ∃ e w', faultImpl (shortEnv len) 0 0 addr access w = some
      (.error e, w') := by
    have unmapped : ¬ mappedProt (fun _ => none) (pageFloor addr) &&& access = access := by
      rw [← haccess, mappedProt]
      cases mapping with
      | none => exact (by decide : ¬ (0 : ProtFlags) &&& Prot.WRITE = Prot.WRITE)
      | some _ => exact (by decide : ¬ (0 : ProtFlags) &&& Prot.READ = Prot.READ)
    rw [faultImpl, bind_of_ok found]
    simp only [List.getElem?_cons_zero, lift_some_bind, if_neg unmapped, modify_bind]
    split
    · exact ⟨_, _, rfl⟩
    · have first : usizeSub (pageFloor addr) entry.start = some 0 := by
        rw [pageFloor, aligned, at_start]
        simp [usizeSub]
      rw [first, lift_some_bind]
      obtain ⟨e, ⟨guard, mem, t⟩, short⟩ :=
        resolve_short mapFlags protFlags mapping len
          (w.setPmap 0 (PhysMap.unmapMultiple (pageFloor addr) pageSize)).handles w.mem w.tick
      rw [haccess, ← inner] at short
      obtain ⟨w', resolved⟩ : ∃ w', resolvePage (shortEnv len) 0 0 0 access entry
          (w.setPmap 0 (PhysMap.unmapMultiple (pageFloor addr) pageSize)) = some
              (.error e, w') := by
        unfold resolvePage
        dsimp only [World.setPmap] at short ⊢
        rw [short]
        exact ⟨_, rfl⟩
      exact ⟨e, w', bind_of_error resolved⟩
  have first : [entry].findIdx? (fun e => e.start ≤ addr ∧ addr < e.stop) = some 0 := by
    simp [at_start, inside]
  rw [fault, bind_of_ok found]
  dsimp only
  rw [first]
  dsimp only
  rw [faultLoop, if_neg (by omega), bind_of_error failed]
  exact ⟨e, w', rfl⟩

variable (mapFlags protFlags mapping) in
/-- In the empty address space the request is placed, and its first fault fails. -/
theorem map_short {size' : Nat} (len : Nat) (hstop : stop < usizeSize)
    (aligned : hint % pageSize = 0) (hs : start % pageSize = 0) (hz : stop % pageSize = 0)
    (page : size' % pageSize = 0) (nonzero : size' ≠ 0)
    (fits : size' + 2 * mapMargin ≤ stop - start) :
    ∃ addr w₁ e w₂,
      mapDynamic (shortEnv len) 0 size' hint start stop mapFlags protFlags mapping emptyWorld = some
        (.ok addr, w₁) ∧
      fault (shortEnv len) 0 addr (if mapping.isSome then Prot.READ else Prot.WRITE) size' w₁ =
        some (.error e, w₂) := by
  obtain ⟨addr, placed⟩ := placeWithin_ok hint fits hstop
  obtain ⟨low, high, start'⟩ := placeWithin_spec hs hz aligned page hstop placed
  have stop' : (addr + size') % pageSize = 0 := add_aligned start' page
  let entry : MapEntry := ⟨1, addr, addr + size', ⟨protFlags, mapFlags, none, mapping⟩⟩
  let w₁ : World := { emptyWorld.setMap 0 [entry] with tick := 2 }
  have inserted : insertMapping [] entry = some [entry] := by
    simp [insertMapping, entry, debugAssert, start', stop', insertEntry]
  have added : usizeAdd addr size' = some (addr + size') := if_pos (by omega)
  have mapped : mapDynamic (shortEnv len) 0 size' hint start stop mapFlags protFlags mapping
    emptyWorld =
      some (.ok addr, w₁) := by
    simp only [mapDynamic, assert, debugAssert_of aligned, debugAssert_of hs, debugAssert_of hz,
      debugAssert_of page, lift_some_bind]
    have constrained : constrain size' hint start stop [] = some (.ok (start, stop)) := rfl
    have allocated : allocate (shortEnv len) emptyWorld = some
      (.ok 1, { emptyWorld with tick := 2 }) := rfl
    have registered : insertAndRegister (shortEnv len) 0 entry { emptyWorld with tick := 2 } = some
        (.ok (), w₁) := by
      have found : space 0 { emptyWorld with tick := 2 } =
        some (.ok ⟨0, [], fun _ => none⟩, { emptyWorld with tick := 2 }) := rfl
      rw [insertAndRegister, bind_of_ok found]
      dsimp only
      rw [inserted, lift_some_bind]
      cases mapping <;> rfl
    have found : space 0 emptyWorld = some (.ok ⟨0, [], fun _ => none⟩, emptyWorld) := rfl
    rw [bind_of_ok found]
    dsimp only
    rw [constrained, liftExcept_ok_bind]
    dsimp only
    rw [placed, liftExcept_ok_bind, bind_of_ok allocated, added, lift_some_bind,
      bind_of_ok registered]
    rfl
  refine ⟨addr, w₁, ?_⟩
  obtain ⟨e, w₂, failed⟩ := fault_short (w := w₁) size' len entry rfl rfl rfl
    (Nat.lt_add_of_pos_right (Nat.pos_of_ne_zero nonzero)) start'
  exact ⟨e, w₂, mapped, failed⟩

/-- An address space with an entry; file 7 is open for writing. -/
def writtenWorld : World :=
  { emptyWorld with
    spaces := [⟨0, [⟨1, pageSize, 2 * pageSize, ⟨Prot.WRITE, PRIVATE, none, none⟩⟩],
      fun _ => none⟩]
    vnodes := fun object => ⟨[], if object = 7 then -1 else 0⟩
    tick := 2 }

end Failure

end BadgerOS.Vmm
