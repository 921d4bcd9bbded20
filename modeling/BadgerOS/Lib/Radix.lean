import Mathlib

/-!
# Digits and tables of slots

A key is read as digits of `L` bits. `low L h key` is the key with the digits up
to height `h` only: two keys take the same way down from height `h` if they
agree there. `filled` counts the slots of a table that hold something.
-/

namespace Radix

open Function Finset Nat

variable {L h k key : Nat}

def digit (L key h : Nat) : Nat := (key >>> (h * L)) % 2 ^ L

def low (L h key : Nat) : Nat := key % 2 ^ ((h + 1) * L)

theorem digit_lt : digit L key h < 2 ^ L := mod_lt _ (Nat.two_pow_pos L)

theorem digit_eq : digit L key h = key / 2 ^ (h * L) % 2 ^ L := by
  rw [digit, shiftRight_eq_div_pow]

theorem low_zero : low L 0 key = digit L key 0 := by
  rw [low, digit, Nat.zero_add, Nat.one_mul, Nat.zero_mul, shiftRight_zero]

theorem low_succ : low L (h + 1) key = low L h key + 2 ^ ((h + 1) * L) * digit L key (h + 1) := by
  rw [low, low, digit_eq, succ_mul (h + 1) L, Nat.pow_add, mod_mul]

theorem low_lt : low L h key < 2 ^ ((h + 1) * L) := mod_lt _ (Nat.two_pow_pos _)

theorem low_of_lt (hk : key < 2 ^ ((h + 1) * L)) : low L h key = key := mod_eq_of_lt hk

theorem low_succ_inj : low L (h + 1) k = low L (h + 1) key ↔
    digit L k (h + 1) = digit L key (h + 1) ∧ low L h k = low L h key := by
  rw [low_succ, low_succ]
  constructor
  · intro eq
    have hmod := congrArg (· % 2 ^ ((h + 1) * L)) eq
    simp only [add_mul_mod_self_left, mod_eq_of_lt low_lt] at hmod
    rw [hmod] at eq
    exact ⟨Nat.eq_of_mul_eq_mul_left (Nat.two_pow_pos _) (Nat.add_left_cancel eq), hmod⟩
  · rintro ⟨hd, hl⟩
    rw [hd, hl]

/-- The digit above is zero exactly if the digits below are the whole key. -/
theorem digit_succ_eq_zero (hk : k < 2 ^ ((h + 2) * L)) : digit L k (h + 1) = 0 ↔
    k < 2 ^ ((h + 1) * L) := by
  have whole := low_of_lt hk
  rw [low_succ] at whole
  constructor
  · intro zero
    rw [zero, Nat.mul_zero, Nat.add_zero] at whole
    rw [← whole]
    exact low_lt
  · intro small
    rw [low_of_lt small] at whole
    have : 2 ^ ((h + 1) * L) * digit L k (h + 1) = 0 := by omega
    exact (Nat.mul_eq_zero.mp this).resolve_left (Nat.two_pow_pos _).ne'

section Slots

variable {α : Type} {array : Nat → Option α} {i : Nat} {x : α}

def filled (L : Nat) (array : Nat → Option α) : Nat :=
  ((Finset.range (2 ^ L)).filter fun i => (array i).isSome).card

theorem filled_lt (hi : i < 2 ^ L) (free : array i = none) : filled L array < 2 ^ L := by
  have sub : (Finset.range (2 ^ L)).filter (fun i => (array i).isSome) ⊂ Finset.range
      (2 ^ L) := by
    rw [filter_ssubset]
    exact ⟨i, mem_range.mpr hi, by simp [free]⟩
  exact (card_lt_card sub).trans_eq (card_range _)

theorem filled_pos (hi : i < 2 ^ L) (used : array i = some x) : 0 < filled L array := by
  apply card_pos.mpr
  exact ⟨i, mem_filter.mpr ⟨mem_range.mpr hi, by simp [used]⟩⟩

theorem exists_of_filled_pos (pos : 0 < filled L array) : ∃ i x, i < 2 ^ L ∧
    array i = some x := by
  obtain ⟨i, hi⟩ := card_pos.mp pos
  obtain ⟨hi, used⟩ := mem_filter.mp hi
  obtain ⟨x, hx⟩ := Option.isSome_iff_exists.mp used
  exact ⟨i, x, mem_range.mp hi, hx⟩

theorem filled_set_new (hi : i < 2 ^ L) (free : array i = none) :
    filled L (update array i (some x)) = filled L array + 1 := by
  have same : (Finset.range (2 ^ L)).filter (fun j => (update array i (some x) j).isSome) =
      insert i ((Finset.range (2 ^ L)).filter fun j => (array j).isSome) := by
    ext j
    by_cases hj : j = i
    · simp [hj, hi]
    · simp [hj]
  rw [filled, same, card_insert_of_notMem (by simp [free]), filled]

theorem filled_set_old {y : α} (used : array i = some y) :
    filled L (update array i (some x)) = filled L array := by
  unfold filled
  congr 1
  ext j
  by_cases hj : j = i
  · simp [hj, used]
  · simp [update_of_ne hj]

theorem filled_clear (hi : i < 2 ^ L) (used : array i = some x) :
    filled L (update array i none) + 1 = filled L array := by
  have back : update (update array i none) i (some x) = array := by
    rw [update_idem, ← used, update_eq_self]
  rw [← filled_set_new hi (update_self ..), back]

theorem filled_none : filled L (fun _ => (none : Option α)) = 0 := by
  simp [filled]

end Slots

end Radix
