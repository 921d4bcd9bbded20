import Mathlib

/-!
# Lists of intervals in order

Lists of things that each occupy a half-open interval of numbers, in increasing
order and without overlap. A list is read as the partial function that maps a
number to the member around it; two lists are compared by that function.
-/

namespace Intervals

open List

variable {α β : Type}

/-- The number `v` lies in the interval of `x`. -/
abbrev Around (lo hi : α → Nat) (v : Nat) (x : α) : Prop := lo x ≤ v ∧ v < hi x

/-- No interval is empty, and each ends before the next ones start. -/
structure Ordered (lo hi : α → Nat) (xs : List α) : Prop where
  nonempty : ∀ x ∈ xs, lo x < hi x
  sorted : xs.Pairwise fun x y => hi x ≤ lo y

/-- The member around `v`. -/
def find (lo hi : α → Nat) (xs : List α) (v : Nat) : Option α :=
  xs.find? fun x => lo x ≤ v ∧ v < hi x

variable {lo hi : α → Nat} {xs ys : List α} {x : α} {v : Nat}

theorem ordered_nil : Ordered lo hi ([] : List α) := ⟨by simp, .nil⟩

theorem ordered_cons : Ordered lo hi (x :: xs) ↔ lo x < hi x ∧ (∀ y ∈ xs, hi x ≤ lo y) ∧
    Ordered lo hi xs := by
  constructor
  · intro h
    obtain ⟨before, sorted⟩ := pairwise_cons.mp h.sorted
    exact ⟨h.nonempty x mem_cons_self, before,
      fun y hy => h.nonempty y (mem_cons_of_mem _ hy), sorted⟩
  · intro ⟨hx, before, h⟩
    refine ⟨fun y hy => ?_, pairwise_cons.mpr ⟨before, h.sorted⟩⟩
    obtain rfl | hy := mem_cons.mp hy
    · exact hx
    · exact h.nonempty y hy

theorem Ordered.sublist (h : Ordered lo hi ys) (sub : xs.Sublist ys) : Ordered lo hi xs :=
  ⟨fun x hx => h.nonempty x (sub.subset hx), h.sorted.sublist sub⟩

/-- Two members around the same number are one. -/
theorem Ordered.eq_of_around (h : Ordered lo hi xs) {x y : α} (hx : x ∈ xs) (hy : y ∈ xs)
    (ax : Around lo hi v x) (ay : Around lo hi v y) : x = y := by
  induction xs with
  | nil => cases hx
  | cons z xs ih =>
    obtain ⟨_, before, rest⟩ := ordered_cons.mp h
    obtain rfl | hx' := mem_cons.mp hx <;> obtain rfl | hy' := mem_cons.mp hy
    · rfl
    · have := before y hy'
      omega
    · have := before x hx'
      omega
    · exact ih rest hx' hy'

theorem Ordered.find_eq_some (h : Ordered lo hi xs) : find lo hi xs v = some x ↔ x ∈ xs ∧
    Around lo hi v x := by
  constructor
  · intro hf
    have ha : Around lo hi v x := by simpa using find?_some hf
    exact ⟨mem_of_find?_eq_some hf, ha⟩
  · intro ⟨hx, ha⟩
    cases hf : find lo hi xs v with
    | none =>
      have := find?_eq_none.mp hf x hx
      simp only [decide_eq_true_eq] at this
      exact absurd ha this
    | some y =>
      have ay : Around lo hi v y := by simpa using find?_some hf
      rw [h.eq_of_around (mem_of_find?_eq_some hf) hx ay ha]

theorem find_eq_none : find lo hi xs v = none ↔ ∀ x ∈ xs, ¬ Around lo hi v x := by
  unfold find
  rw [find?_eq_none]
  simp

/-- Two lists agree at `v` when each member around it in one has a like member
around it in the other. -/
theorem map_find_eq {f : α → β} (hx : Ordered lo hi xs) (hy : Ordered lo hi ys)
    (there : ∀ x ∈ xs, Around lo hi v x → ∃ y ∈ ys, Around lo hi v y ∧ f y = f x)
    (back : ∀ y ∈ ys, Around lo hi v y → ∃ x ∈ xs, Around lo hi v x) :
    (find lo hi ys v).map f = (find lo hi xs v).map f := by
  cases hf : find lo hi xs v with
  | none =>
    have none : find lo hi ys v = none := by
      rw [find_eq_none]
      intro y hy' ay
      obtain ⟨x, hx', ax⟩ := back y hy' ay
      exact find_eq_none.mp hf x hx' ax
    rw [none]
  | some x =>
    obtain ⟨hx', ax⟩ := hx.find_eq_some.mp hf
    obtain ⟨y, hy', ay, same⟩ := there x hx' ax
    rw [hy.find_eq_some.mpr ⟨hy', ay⟩]
    exact congrArg some same

end Intervals
