import Mathlib

/-!
# Tables that point to tables

Tables of `w` slots lie in numbered pages. A slot of a table is empty, is a leaf or
has the page of a table one level below. A key is looked up by its digits, from the
top level on, until there is a leaf. Each page has one place, its level and the digits
that lead to it, so that a changed slot matters for the keys that lead to it only.
-/

namespace Tables

inductive Entry (α : Type) where
  | empty
  | leaf (a : α)
  | table (page : Nat)
  deriving DecidableEq

/-- By level, page and number of the slot. -/
abbrev Slots (α : Type) := Nat → Nat → Nat → Entry α

/-- The level of a page, and the digits that lead to it as a number. -/
abbrev Places := Nat → Option (Nat × Nat)

variable {α : Type} {w : Nat} {slots slots' : Slots α} {places places' : Places}
  {key key' level top page root i : Nat}

def index (w key level : Nat) : Nat := key / w ^ level % w

/-- The leaf that a key leads to, and its level. -/
def look (w : Nat) (slots : Slots α) (key : Nat) : Nat → Nat → Option (Nat × α)
  | 0, page => match slots 0 page (index w key 0) with
    | .leaf a => some (0, a)
    | _ => none
  | level + 1, page => match slots (level + 1) page (index w key (level + 1)) with
    | .empty => none
    | .leaf a => some (level + 1, a)
    | .table q => look w slots key level q

theorem div_eq (w key level : Nat) :
    key / w ^ level = key / w ^ (level + 1) * w + index w key level := by
  rw [index, Nat.pow_succ, ← Nat.div_div_eq_div_mul, Nat.mul_comm]
  exact (Nat.div_add_mod ..).symm

theorem index_lt (pos : 0 < w) : index w key level < w := Nat.mod_lt _ pos

theorem div_succ_eq (same : key' / w ^ level = key / w ^ level) :
    key' / w ^ (level + 1) = key / w ^ (level + 1) := by
  rw [Nat.pow_succ, ← Nat.div_div_eq_div_mul, ← Nat.div_div_eq_div_mul, same]

theorem index_eq (same : key' / w ^ level = key / w ^ level) :
    index w key' level = index w key level := by
  rw [index, same, index]

/-- Tables are where their places say. -/
def Placed (w : Nat) (slots : Slots α) (places : Places) : Prop :=
  ∀ {page level base i q : Nat}, places page = some (level, base) → i < w →
    slots level page i = .table q → ∃ l, level = l + 1 ∧ places q = some (l, base * w + i)

/-- The tables that a key leads to. -/
inductive Reach (w : Nat) (slots : Slots α) (key top root : Nat) : Nat → Nat → Prop
  | top : Reach w slots key top root top root
  | down {level page q : Nat} (above : Reach w slots key top root (level + 1) page)
      (here : slots (level + 1) page (index w key (level + 1)) = .table q) :
        Reach w slots key top root level q

theorem Reach.place (pos : 0 < w) (h : Reach w slots key top root level page)
    (placed : Placed w slots places) (start : places root = some (top, key / w ^ (top + 1))) :
    places page = some (level, key / w ^ (level + 1)) := by
  induction h with
  | top => exact start
  | @down level page q _ here ih =>
    obtain ⟨l, same, place⟩ := placed ih (index_lt pos) here
    cases same
    rw [place, ← div_eq]

theorem Reach.look (h : Reach w slots key top root level page)
    (same : key' / w ^ (level + 1) = key / w ^ (level + 1)) :
    look w slots key' top root = look w slots key' level page := by
  induction h with
  | top => rfl
  | @down level page q _ here ih =>
    rw [ih (div_succ_eq same)]
    unfold Tables.look
    rw [index_eq same, here]
    cases level <;> rfl

/-- Of the slots of tables that have a place one may differ. -/
def Agree (places : Places) (page i : Nat) (slots slots' : Slots α) : Prop :=
  ∀ {p level base j : Nat}, places p = some (level, base) → (p ≠ page ∨ j ≠ i) →
    slots' level p j = slots level p j

theorem Agree.other {base l p : Nat} (agree : Agree places page i slots slots')
    (place : places page = some (level, base)) (other : key / w ^ level ≠ base * w + i)
    (here : places p = some (l, key / w ^ (l + 1))) : slots' l p (index w key l) = slots l p
    (index w key l) := by
  apply agree here
  by_contra both
  simp only [not_or, not_not] at both
  obtain ⟨rfl, rfl⟩ := both
  rw [here] at place
  cases place
  exact other (div_eq ..)

/-- Keys that do not lead to the slot. -/
theorem look_other {base l p : Nat} (pos : 0 < w) (placed : Placed w slots places)
    (agree : Agree places page i slots slots') (place : places page = some (level, base))
    (other : key / w ^ level ≠ base * w + i) (here : places p = some (l, key / w ^ (l + 1))) :
    look w slots' key l p = look w slots key l p := by
  induction l generalizing p with
  | zero =>
    unfold look
    rw [agree.other place other here]
  | succ l ih =>
    unfold look
    rw [agree.other place other here]
    cases slot : slots (l + 1) p _ with
    | empty | leaf a => rfl
    | table q =>
      obtain ⟨l', eq, place'⟩ := placed here (index_lt pos) slot
      cases eq
      rw [← div_eq] at place'
      exact ih place'

/-- The way to a slot stays when the slot changes. -/
theorem Reach.keep {base l p : Nat} (pos : 0 < w) (h : Reach w slots key top root l p)
    (placed : Placed w slots places) (start : places root = some (top, key / w ^ (top + 1)))
    (agree : Agree places page i slots slots') (place : places page = some (level, base))
    (below : level ≤ l) : Reach w slots' key top root l p := by
  induction h with
  | top => exact .top
  | @down l p q above here ih =>
    refine .down (ih (by omega)) ?_
    have there := above.place pos placed start
    rw [← here]
    apply agree there
    left
    rintro rfl
    rw [there] at place
    cases place
    omega

/-- What a changed slot means for all keys. -/
theorem look_replace (pos : 0 < w) (placed : Placed w slots places)
    (start : places root = some (top, key / w ^ (top + 1)))
    (reach : Reach w slots key top root level page)
    (agree : Agree places page (index w key level) slots slots')
    (under : key' / w ^ (top + 1) = key / w ^ (top + 1)) : look w slots' key' top root =
      if key' / w ^ level = key / w ^ level then look w slots' key' level page
        else look w slots key' top root := by
  have place := reach.place pos placed start
  split
  · rename_i same
    exact (reach.keep pos placed start agree place (Nat.le_refl _)).look (div_succ_eq same)
  · rename_i other
    apply look_other pos placed agree place
    · rw [← div_eq]
      exact other
    · rw [under]
      exact start

/-- Places for the tables that a changed slot leads to. -/
theorem Placed.replace {base : Nat} (placed : Placed w slots places)
    (agree : Agree places page i slots slots')
    (place : places page = some (level, base)) (more : ∀ {p x}, places p = some x →
    places' p = some x)
    (new : ∀ {p l b j q : Nat}, places p = none → places' p = some (l, b) → j < w →
    slots' l p j ≠ .table q)
    (slot : ∀ {q}, slots' level page i = .table q → ∃ l, level = l + 1 ∧
    places' q = some (l, base * w + i)) : Placed w slots' places' := by
  intro p l b j q here lt entry
  cases old : places p with
  | none => exact absurd entry (new old here lt)
  | some x =>
    have same := more old
    rw [here] at same
    cases same
    by_cases this : p = page ∧ j = i
    · obtain ⟨rfl, rfl⟩ := this
      rw [place] at old
      cases old
      exact slot entry
    · rw [agree old (Decidable.not_and_iff_or_not.mp this)] at entry
      obtain ⟨l', eq, place'⟩ := placed old lt entry
      exact ⟨l', eq, more place'⟩

end Tables
