import BadgerOS.Vmm.Faults
import BadgerOS.Vmm.Mapping

/-!
# Objects that become smaller

`shrink` of `mem/vmm/map.rs` takes the pages behind the new end of the object out of an
entry and out of the page tables. The overlay of the entry may end before them.
-/

namespace BadgerOS.Vmm

open Fallible Option PageTable

/-- Empty the slots from `cutoff` on; the slice panics if it starts behind the last slot. -/
def AnonMap.detach (self : AnonMap) (cutoff : Nat) : Option AnonMap := do
  let startPage := (cutoff - self.offset) / pageSize
  debugAssert (startPage ≤ self.pages.length)
  return { self with
    pages := self.pages.take startPage ++ List.replicate (self.pages.length - startPage) none }

/-- The part of `shrink` for the overlay. `Arc::make_mut` clones it, to `ptr`, if it is shared. -/
def detachAnons (unique : Bool) (ptr cutoff : Nat) (inner : MapEntryInner) : Option MapEntryInner :=
  match inner.amap with
  | none => some inner
  | some amap =>
    if cutoff ≤ amap.val.offset then some { inner with amap := none }
    else do
      let val ← amap.val.detach cutoff
      return { inner with amap := some ⟨if unique then amap.ptr else ptr, val⟩ }

/-- Evict entries from the pmaps and anons that are beyond the new length. -/
def shrink (k : Machine) (root : Nat) (unique : Bool) (ptr maxLen : Nat) (entry : MapEntry) :
    Fallible Mem Errno MapEntry := do
  let entryLen ← lift (usizeSub entry.stop entry.start)
  match entry.inner.mapping with
  | none => pure entry
  | some m => do
    let cutoff ← lift (roundUp (min (maxLen - m.offset) entryLen))
    if cutoff < entryLen then do
      let vaddr ← lift (usizeAdd entry.start cutoff)
      PageTable.unmapMultiple k root vaddr (entryLen - cutoff)
      let inner ← lift (detachAnons unique ptr cutoff entry.inner)
      pure (entry.setInner inner)
    else pure entry

/-- The page-rounded end of the object within the entry. -/
def MapEntry.objectEnd (entry : MapEntry) (m : Mapping) (maxLen : Nat) : Nat :=
  (min (maxLen - m.offset) (entry.stop - entry.start) + (pageSize - 1)) / pageSize * pageSize

/-- The address and the flags that `virt2phys` finds. -/
def lookup (k : Machine) (m : Mem) (root v : Nat) : Option (Nat × Nat) :=
  (virt2phys k m root v).bind fun r => if r.valid then some (r.paddr, r.flags) else none

/-- From `cutoff` on, the entry has no pages in the page tables and no anons; nothing else has
changed. -/
structure Evicted (k : Machine) (root : Nat) (m m' : Mem) (entry entry' : MapEntry)
    (cutoff : Nat) : Prop where
  pages : ∀ v < usizeSize, isCanonAddr k v = true → lookup k m' root v =
    if entry.start + cutoff ≤ v ∧ v < entry.stop then none else lookup k m root v
  anons : ∀ o < entry.stop - entry.start, entry'.inner.anonAt o = if cutoff ≤ o then none
    else entry.inner.anonAt o
  rest : entry' = entry.setInner { entry.inner with amap := entry'.inner.amap }

/-- `shrink` returns, and has evicted the tail. -/
def Shrinks (k : Machine) (root : Nat) (unique : Bool) (ptr maxLen cutoff : Nat) (entry : MapEntry)
    (m : Mem) : Prop :=
  ∃ m' entry', shrink k root unique ptr maxLen entry m = some (.ok entry', m') ∧
    Evicted k root m m' entry entry' cutoff

namespace AnonMap

variable {self val : AnonMap} {cutoff : Nat}

theorem detach_eq_none : self.detach cutoff = none ↔
    self.pages.length < (cutoff - self.offset) / pageSize := by
  simp [detach]

theorem anonAt_detach (aligned : self.offset % pageSize = 0) (page : cutoff % pageSize = 0)
    (above : self.offset < cutoff)
    (run : self.detach cutoff = some val) (o : Nat) : val.anonAt o = if cutoff ≤ o then none
    else self.anonAt o := by
  obtain ⟨_, inside, eq⟩ := Option.bind_eq_some_iff.mp run
  rw [debugAssert_eq_some] at inside
  cases eq
  have slot : self.offset ≤ o →
      ((o - self.offset) / pageSize < (cutoff - self.offset) / pageSize ↔ ¬ cutoff ≤ o) := by
    simp only [pageSize] at *
    omega
  unfold anonAt
  by_cases low : o < self.offset
  · rw [if_pos low, if_pos low, if_neg (by omega)]
  · rw [if_neg low, if_neg low]
    have slot := slot (Nat.not_lt.mp low)
    by_cases cut : cutoff ≤ o
    · rw [if_pos cut, List.getElem?_append_right (by simp; omega)]
      rw [List.getElem?_replicate]
      split <;> rfl
    · rw [if_neg cut, List.getElem?_append_left (by simp; omega), List.getElem?_take_of_lt
        (slot.mpr cut)]

end AnonMap

section

variable {k : Machine} {root ptr maxLen cutoff : Nat} {unique : Bool} {entry : MapEntry}
  {inner inner' : MapEntryInner} {map : Mapping} {m : Mem} {places : Tables.Places}

/-- What an entry without pages behind `cutoff` has for an overlay. -/
theorem detachAnons_eq (page : cutoff % pageSize = 0)
    (overlay : ∀ amap ∈ inner.amap, amap.val.offset % pageSize = 0)
    (run : detachAnons unique ptr cutoff inner = some inner') :
    inner' = { inner with amap := inner'.amap } ∧
      ∀ o, inner'.anonAt o = if cutoff ≤ o then none else inner.anonAt o := by
  unfold detachAnons at run
  cases some_amap : inner.amap with
  | none =>
    rw [some_amap] at run
    cases run
    exact ⟨rfl, fun o => by simp [MapEntryInner.anonAt, some_amap]⟩
  | some amap =>
    have aligned := overlay amap some_amap
    rw [some_amap] at run
    dsimp only at run
    by_cases all : cutoff ≤ amap.val.offset
    · rw [if_pos all] at run
      cases run
      refine ⟨rfl, fun o => ?_⟩
      simp only [MapEntryInner.anonAt, some_amap, bind_none, bind_some, AnonMap.anonAt]
      split
      · rfl
      · exact (if_pos (by omega)).symm
    · rw [if_neg all] at run
      obtain ⟨val, detached, run⟩ := bind_eq_some_iff.mp run
      cases run
      refine ⟨rfl, fun o => ?_⟩
      simp only [MapEntryInner.anonAt, some_amap, bind_some]
      exact AnonMap.anonAt_detach aligned page (Nat.not_le.mp all) detached o

variable (unique ptr) in
theorem detachAnons_isSome_iff (page : cutoff % pageSize = 0)
    (overlay : ∀ amap ∈ inner.amap, amap.val.offset % pageSize = 0) :
    (detachAnons unique ptr cutoff inner).isSome ↔ ∀ amap ∈ inner.amap,
    cutoff ≤ amap.val.stop := by
  unfold detachAnons
  cases some_amap : inner.amap with
  | none => simp
  | some amap =>
    have aligned := overlay amap some_amap
    have inside : amap.val.detach cutoff = none ↔
        amap.val.pages.length < (cutoff - amap.val.offset) / pageSize :=
      AnonMap.detach_eq_none
    have ends : amap.val.stop = amap.val.offset + amap.val.pages.length * pageSize := rfl
    simp only [mem_def, some.injEq, forall_eq']
    split
    · simp only [isSome_some, true_iff]
      omega
    · cases detached : amap.val.detach cutoff with
      | none =>
        have behind := inside.mp detached
        simp only [bind_eq_bind, bind_none, isSome_none, Bool.false_eq_true, false_iff]
        simp only [pageSize] at *
        omega
      | some val =>
        have within : ¬ amap.val.detach cutoff = none := by simp [detached]
        rw [inside] at within
        simp only [bind_eq_bind, bind_some, pure_def, isSome_some, true_iff]
        simp only [pageSize] at *
        omega

/-- The tables translate as `virt2phys` finds. -/
theorem agrees_lookup (law : Lawful k) (good : Good k root m places) :
    Agrees k root m (lookup k m root) := by
  intro v small canon
  obtain ⟨r, found, same⟩ := virt2phys_ok law good (fun _ _ _ => rfl) small canon
  rw [lookup, found, bind_some, ← same]

theorem lookup_eq {f : Nat → Option (Nat × Nat)} (law : Lawful k) (good : Good k root m places)
    (agrees : Agrees k root m f) {v : Nat} (small : v < usizeSize)
    (canon : isCanonAddr k v = true) : lookup k m root v = f v := by
  obtain ⟨r, found, same⟩ := virt2phys_ok law good agrees small canon
  rw [lookup, found, bind_some, ← same]

end

/-- An entry of three pages for a file; a write has made an overlay for its first page. -/
def fileEntry : MapEntry := ⟨1, pageSize, 4 * pageSize,
    ⟨0, PRIVATE, some ⟨2, ⟨0, [some 9]⟩⟩, some ⟨0, 7⟩⟩⟩

/-- A new page table that maps the pages of the entry. -/
def fileTables : Fallible Mem Errno Nat := do
  let root ← new sv39
  mapMutiple sv39 root pageSize 0x8000_5000 0b110 (3 * pageSize)
  pure root

/-- The tables are good and map the pages, and there are some pages left. -/
theorem fileTables_good : ∃ root m places, fileTables blank = some (.ok root, m) ∧
    Good sv39 root m places ∧
    m.used.length ≤ 10 ∧ lookup sv39 m root (2 * pageSize) = some (0x8000_6000, 0b110) := by
  have made : ∃ m₀, new sv39 blank = some (.ok 0x8000_0000, m₀) ∧ m₀.used.length = 1 :=
    ⟨_, rfl, rfl⟩
  obtain ⟨m₀, made, one⟩ := made
  obtain ⟨⟨places₀, good₀⟩, agrees₀⟩ := new_good sv39_lawful made
  have proper : Op.Proper sv39 (.mapMutiple pageSize 0x8000_5000 0b110 (3 * pageSize)) :=
    ⟨rfl, rfl, rfl, sv39_canon (by decide), sv39_packs (by decide +kernel)⟩
  obtain ⟨m, places, mapped, good, agrees, short⟩ :=
    exec_acts sv39_lawful sv39_enough (by rw [one]; decide) good₀ agrees₀ proper
      ⟨by decide, by decide, fun _ _ counted => absurd rfl counted⟩
  have mapped : mapMutiple sv39 0x8000_0000 pageSize 0x8000_5000 0b110 (3 * pageSize) m₀ = some
    (.ok (), m) := mapped
  refine ⟨0x8000_0000, m, places, ?_, good, ?_, ?_⟩
  · rw [fileTables, bind_of_ok made, bind_of_ok mapped]
    rfl
  · rw [one] at short
    exact short
  · rw [lookup_eq sv39_lawful good agrees (by decide) (by decide)]
    rfl

end BadgerOS.Vmm
