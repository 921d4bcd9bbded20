import BadgerOS.Vmm.FlatMap
import BadgerOS.Vmm.Overlay

/-!
# Pages that faults bring in

How far `alloc_page` extends an overlay.
-/

namespace BadgerOS.Vmm

open List

namespace AnonMap

variable {env : Env} {self self' : AnonMap} {offset t t' : Nat} {mem mem' : Memory}
  {orig : Option Nat} {page : MappablePage}

/-- The end of the offsets that the overlay covers. -/
def stop (self : AnonMap) : Nat := self.offset + self.pages.length * pageSize

/-- The overlay shows the new page at `offset` and the old ones elsewhere. A new anon has one
handle. -/
def Updated (self self' : AnonMap) (offset : Nat) (page : MappablePage) : Prop :=
  ∀ unique : Nat → Bool, (unique page.paddr → self'.getPage unique offset = some page) ∧
    ∀ o, o % pageSize = 0 → o ≠ offset → self'.getPage unique o = self.getPage unique o

/-- The overlay covers the new page and no more than it has to. -/
def Tight (self self' : AnonMap) (offset : Nat) : Prop :=
  if self.pages = [] then self'.offset = offset ∧ self'.stop = offset + pageSize
  else self'.offset = min self.offset offset ∧ self'.stop = max self.stop (offset + pageSize)

section

variable (h : self.allocPage env offset orig mem t = (.ok page, self', mem', t'))
include h

theorem updated_of_allocPage (hself : self.offset % pageSize = 0)
    (hoffset : offset % pageSize = 0) : Updated self self' offset page := by
  obtain ⟨-, -, eq, ⟨-, shown, -, -⟩⟩ := allocPage_ok h hself hoffset
  intro unique
  constructor
  · intro one
    rw [getPage, shown offset hoffset, if_pos rfl, Option.map_some, one, ← eq]
  · intro o aligned other
    rw [getPage, getPage, shown o aligned, if_neg other]

/-- The page is put into a slot of the overlay that was grown. -/
theorem allocPage_window :
    ∃ grown t₁, self.grow env offset t = (.ok (), grown, t₁) ∧
      self'.offset = grown.offset ∧ self'.stop = grown.stop := by
  unfold allocPage at h
  split at h
  · cases h
  · rename_i grown t₁ grew
    split at h
    · cases h
    · split at h
      · cases h
      · cases h
        exact ⟨grown, t₁, grew, rfl, by simp [stop]⟩

end

/-- The slots behind the last one are counted in bytes: there is one too many per byte of the gap.
-/
theorem grow_tight_iff (h : self.grow env offset t = (.ok (), self', t'))
    (hself : self.offset % pageSize = 0)
    (hoffset : offset % pageSize = 0) : Tight self self' offset ↔ self.pages = [] ∨
    offset ≤ self.stop := by
  unfold Tight
  unfold grow at h
  split at h
  · rename_i empty
    have empty := List.length_eq_zero_iff.mp empty
    split at h <;> cases h
    simp [empty, stop]
  · rename_i some_page
    have some_page : self.pages ≠ [] := fun empty => some_page (by rw [empty, length_nil])
    rw [if_neg some_page]
    simp only [some_page, false_or]
    split at h
    · have shift : (self.offset - offset) / pageSize * pageSize = self.offset - offset :=
        Nat.div_mul_cancel (Nat.dvd_of_mod_eq_zero (by simp only [pageSize] at *; omega))
      split at h <;> cases h
      simp only [stop, length_append, length_replicate, Nat.add_mul, shift, pageSize] at *
      omega
    · split at h
      · split at h <;> cases h
        simp only [stop, length_append, length_replicate, pageSize] at *
        omega
      · cases h
        simp only [stop, pageSize] at *
        omega

/-- A page is added to the overlay exactly and tightly, unless it leaves a gap behind the old ones.
-/
theorem alloc_page_tight_iff
    (h : self.allocPage env offset orig mem t = (.ok page, self', mem', t'))
    (hself : self.offset % pageSize = 0) (hoffset : offset % pageSize = 0) :
    (Updated self self' offset page ∧ Tight self self' offset) ↔ self.pages = [] ∨
    offset ≤ self.stop := by
  obtain ⟨grown, t₁, grew, start, stop⟩ := allocPage_window h
  rw [← grow_tight_iff grew hself hoffset]
  simp [Tight, start, stop, updated_of_allocPage h hself hoffset]

/-- For a page behind a gap of one page there are 4097 new slots instead of two. -/
theorem alloc_page_not_tight : ∃ page self' mem' t',
    AnonMap.allocPage calmEnv ⟨0, [some 0]⟩ (2 * pageSize) none (fun _ _ => 0) 0 =
      (.ok page, self', mem', t') ∧ ¬ Tight ⟨0, [some 0]⟩ self' (2 * pageSize) := by
  refine ⟨_, _, _, _, rfl, ?_⟩
  rw [Tight, stop, length_set, length_append, length_replicate]
  decide

theorem alloc_page_tight_next : ∃ page self' mem' t',
    AnonMap.allocPage calmEnv ⟨0, [some 0]⟩ pageSize none (fun _ _ => 0) 0 =
      (.ok page, self', mem', t') ∧
      Updated ⟨0, [some 0]⟩ self' pageSize page ∧ Tight ⟨0, [some 0]⟩ self' pageSize := by
  have ran : AnonMap.allocPage calmEnv ⟨0, [some 0]⟩ pageSize none (fun _ _ => 0) 0 = _ := rfl
  exact ⟨_, _, _, _, ran, (alloc_page_tight_iff ran rfl rfl).mpr (.inr (by decide))⟩

end AnonMap

end BadgerOS.Vmm
