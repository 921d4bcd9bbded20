import Mathlib

/-!
# Positions on a ring

Bytes that pass through a ring of `cap` cells have positions 0, 1, 2 and so on; the
cell of a position is its remainder. What is known of remainders holds within a
window of at most `cap` positions.
-/

namespace Ring

open Nat

variable {cap a b : Nat}

/-- The cells behind a position, up to the end of the ring. -/
theorem mod_add_of_lt (h : a % cap + b < cap) : (a + b) % cap = a % cap + b := by
  rw [add_mod, mod_eq_of_lt (by omega : b < cap), mod_eq_of_lt h]

/-- The cells behind a position, from the start of the ring on. -/
theorem mod_add_of_ge (h : cap ≤ a % cap + b) (hb : b < cap) :
    (a + b) % cap = a % cap + b - cap := by
  have hr : a % cap < cap := mod_lt _ (by omega)
  rw [add_mod, mod_eq_of_lt hb, mod_eq_sub_mod h, mod_eq_of_lt (by omega)]

/-- The distance of two positions from their cells. -/
theorem dist_mod (h : b ≤ a) (window : a - b < cap) :
    (a % cap + cap - b % cap) % cap = a - b := by
  obtain ⟨d, rfl⟩ := Nat.exists_eq_add_of_le h
  rw [Nat.add_sub_cancel_left] at window ⊢
  by_cases wrap : b % cap + d < cap
  · rw [mod_add_of_lt wrap,
      show b % cap + d + cap - b % cap = d + cap by omega, add_mod_right, mod_eq_of_lt window]
  · rw [mod_add_of_ge (by omega) window,
      show b % cap + d - cap + cap - b % cap = d by omega, mod_eq_of_lt window]

/-- Positions in a window have different cells. -/
theorem eq_of_mod_eq (h : b ≤ a) (window : a - b < cap) (cells : a % cap = b % cap) : a = b := by
  have dist := dist_mod h window
  rw [cells, Nat.add_sub_cancel_left, Nat.mod_self] at dist
  omega

end Ring
