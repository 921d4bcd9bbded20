import BadgerOS.Pmm.Free
import BadgerOS.Vmm.PageTable

/-!
# Dirty pages

`cleanup_pte` with the structs of the pages. A memory object and the offset in it are
recorded at the first page of a block only.
-/

namespace BadgerOS.PageTable

open Option

/-- The page structs afterwards, and the object and the offset that `mark_dirty` is called with. -/
def cleanupPage (old : PTE) (s : Pmm) : Option (Pmm × Option (Nat × Nat)) :=
  if old.valid = false ∨ old.flags &&& refcountFlag = 0 then some (s, none)
  else do
    let paddr ← usizeMul old.ppn pageSize
    let (page, _) ← s.pageStructBase paddr
    -- `fetch_sub` wraps
    let s :=
      s.writePages page 1 fun p => { p with refcount := (p.refcount + (2 ^ 32 - 1)) % 2 ^ 32 }
    if old.flags &&& dirtyFlag ≠ 0 then
      match (s.pages page).memobject with
      | some object => do
        let distance ← usizeSub (page * pageSize) paddr
        let offset ← usizeAdd (s.pages page).offset distance
        pure (s, some (object, offset))
      | none => pure (s, none)
    else pure (s, none)

/-- The page of the entry is in the block of some order at page `base`. -/
structure InBlock (s : Pmm) (base order : Nat) (old : PTE) : Prop where
  aligned : 2 ^ order ∣ base
  inside : base ≤ old.ppn ∧ old.ppn < base + 2 ^ order
  ordered : (s.pages old.ppn).order = order
  range : s.InRange old.ppn
  fits : (base + 2 ^ order) * pageSize < usizeSize
  offset : (s.pages base).offset < usizeSize

variable {s : Pmm} {base order : Nat} {old : PTE}

theorem InBlock.paddr_lt (block : InBlock s base order old) : old.ppn * pageSize < usizeSize :=
  (Nat.mul_le_mul_right _ (block.inside.2.le)).trans_lt block.fits

theorem InBlock.base_eq (block : InBlock s base order old) :
    s.pageStructBase (old.ppn * pageSize) = some (base, order) := by
  have small : order ≤ 51 := by
    by_contra large
    have : 2 ^ 52 ≤ 2 ^ order := Nat.pow_le_pow_right (by decide) (by omega)
    have := block.fits
    simp only [pageSize, usizeSize] at this
    omega
  have aligned : 2 ^ (order + 12) ∣ base * pageSize := by
    rw [Pmm.two_pow_add]
    exact Nat.mul_dvd_mul_right block.aligned pageSize
  have page : base * pageSize / pageSize = base := Nat.mul_div_cancel base (by decide)
  have covers : Pmm.Covers order (base * pageSize) old.ppn := by
    rw [Pmm.covers_iff aligned, page]
    exact block.inside
  have found := Pmm.pageStructBase_eq aligned covers block.ordered block.range small
  rwa [page] at found

/-- The object is told of the page if the page is the first of its block; else the difference
underflows. -/
theorem cleanup_marks_page_iff {object : Nat} (block : InBlock s base order old)
    (valid : old.valid = true) (counted : old.flags &&& refcountFlag ≠ 0)
    (dirty : old.flags &&& dirtyFlag ≠ 0) (owner : (s.pages base).memobject = some object) :
    (∃ s', cleanupPage old s = some
    (s', some (object, (s.pages base).offset + (old.ppn - base) * pageSize))) ↔
      old.ppn = base := by
  have paddr : usizeMul old.ppn pageSize = some (old.ppn * pageSize) := if_pos block.paddr_lt
  have offset := block.offset
  unfold cleanupPage
  rw [if_neg (by simp [valid, counted])]
  simp only [paddr, block.base_eq, bind_eq_bind, bind_some, if_pos dirty, Pmm.writePages,
    Nat.le_refl, Nat.lt_succ_self, and_self, if_true, owner]
  constructor
  · rintro ⟨s', run⟩
    obtain ⟨distance, less, -⟩ := bind_eq_some_iff.mp run
    have below := Nat.le_of_mul_le_mul_right (usizeSub_eq_some.mp less).1 (by decide)
    exact Nat.le_antisymm below block.inside.1
  · rintro rfl
    simp [usizeSub, usizeAdd, offset]

/-- The second page of a block of two. -/
theorem cleanup_underflows : ∃ (s : Pmm) (old : PTE), InBlock s 2 1 old ∧ old.valid = true ∧
    old.flags &&& refcountFlag ≠ 0 ∧ old.flags &&& dirtyFlag ≠ 0 ∧
      (s.pages 2).memobject = some 7 ∧
    cleanupPage old s = none := by
  refine ⟨{ Pmm.empty 0 8 with pages := fun _ => ⟨1, 1, .cache, some 7, 0⟩ },
    ⟨3, 0b1_1000_0000, 0, true, true⟩, ?_, rfl, by decide, by decide, rfl, by decide⟩
  constructor <;> decide

theorem cleanup_marks_page_first : ∃ (s : Pmm) (old : PTE) (s' : Pmm), old.ppn = 2 ∧
    cleanupPage old s = some (s', some (7, 64)) := by
  have block : InBlock { Pmm.empty 0 8 with pages := fun _ => ⟨1, 1, .cache, some 7, 64⟩ } 2 1
      ⟨2, 0b1_1000_0000, 0, true, true⟩ := by
    constructor <;> decide
  obtain ⟨s', run⟩ := (cleanup_marks_page_iff block rfl (by decide) (by decide) rfl).mpr rfl
  exact ⟨_, _, s', rfl, run⟩

end BadgerOS.PageTable
