import Mathlib

/-!
# Machine words and panics

Sizes and addresses are `usize` values, kept as natural numbers below
`usizeSize`. A kernel panic (a failed assertion, an arithmetic overflow caught
by the debug profile, an index out of bounds) is the value `none`.
-/

namespace BadgerOS

open Nat

/-- One more than `usize::MAX`. -/
abbrev usizeSize : Nat := 18446744073709551616

abbrev pageSize : Nat := 4096

/-- `PAGE_SIZE.ilog2()`. -/
abbrev pageBits : Nat := 12

/-- `debug_assert!` and `assert!`. -/
def debugAssert (p : Prop) [Decidable p] : Option Unit := if p then some () else none

/-- `x << n` on `usize`: the shift amount is checked, the bits shifted out are lost. -/
def usizeShl (x n : Nat) : Option Nat := if n < 64 then some ((x <<< n) % usizeSize) else none

/-- `!x` on `usize`. -/
def usizeNot (x : Nat) : Nat := usizeSize - 1 - x

/-- `a + b` on `usize`, with the overflow check. -/
def usizeAdd (a b : Nat) : Option Nat := if a + b < usizeSize then some (a + b) else none

/-- `a - b` on `usize`, with the overflow check. -/
def usizeSub (a b : Nat) : Option Nat := if b ≤ a then some (a - b) else none

/-- `a * b` on `usize`, with the overflow check. -/
def usizeMul (a b : Nat) : Option Nat := if a * b < usizeSize then some (a * b) else none

def wrappingAdd (a b : Nat) : Nat := (a + b) % usizeSize

def wrappingSub (a b : Nat) : Nat := (a + (usizeSize - b % usizeSize)) % usizeSize

/-- `usize::trailing_zeros`. -/
def trailingZeros (x : Nat) : Nat := ((List.range 64).find? fun i => x.testBit i).getD 64

variable {p : Prop} {a b c k x : Nat}

@[simp] theorem debugAssert_eq_some [Decidable p] {u : Unit} : debugAssert p = some u ↔ p := by
  unfold debugAssert
  split <;> simp_all

@[simp] theorem debugAssert_true : debugAssert True = some () := rfl

theorem debugAssert_of [Decidable p] (h : p) : debugAssert p = some () := by simp [h]

@[simp] theorem usizeAdd_eq_some : usizeAdd a b = some c ↔ a + b < usizeSize ∧ a + b = c := by
  unfold usizeAdd
  split <;> simp_all

@[simp] theorem usizeSub_eq_some : usizeSub a b = some c ↔ b ≤ a ∧ a - b = c := by
  unfold usizeSub
  split <;> simp_all

theorem add_aligned (ha : a % pageSize = 0) (hb : b % pageSize = 0) : (a + b) % pageSize = 0 := by
  simp only [pageSize] at *
  omega

theorem usizeShl_page (h : k ≤ 51) : usizeShl pageSize k = some (2 ^ (k + 12)) := by
  have hp : pageSize <<< k = 2 ^ (k + 12) := by
    rw [shiftLeft_eq, pow_add, Nat.mul_comm]
    rfl
  have hl : 2 ^ (k + 12) < usizeSize := by
    calc 2 ^ (k + 12) ≤ 2 ^ 63 := Nat.pow_le_pow_right (by decide) (by omega)
      _ < usizeSize := by decide
  unfold usizeShl
  rw [if_pos (by omega), hp, mod_eq_of_lt hl]

theorem wrappingAdd_of_lt (h : a + b < usizeSize) : wrappingAdd a b = a + b := mod_eq_of_lt h

theorem wrappingSub_of_le (ha : a < usizeSize) (h : b ≤ a) : wrappingSub a b = a - b := by
  simp only [wrappingSub, usizeSize] at *
  omega

/-- All bits below the trailing zeroes are clear. -/
theorem trailingZeros_dvd (x : Nat) : 2 ^ trailingZeros x ∣ x := by
  have low : ∀ j < trailingZeros x, x.testBit j = false := by
    intro j hj
    unfold trailingZeros at hj
    cases hf : (List.range 64).find? fun i => x.testBit i with
    | none =>
      rw [hf, Option.getD_none] at hj
      simpa using List.find?_range_eq_none.mp hf j hj
    | some i =>
      rw [hf, Option.getD_some] at hj
      simpa using (List.find?_range_eq_some.mp hf).2.2 j hj
  rw [dvd_iff_mod_eq_zero]
  apply eq_of_testBit_eq
  intro j
  by_cases hj : j < trailingZeros x
  · simp [low j hj]
  · simp [hj]

theorem le_trailingZeros (hk : k ≤ 64) (h : 2 ^ k ∣ x) : k ≤ trailingZeros x := by
  unfold trailingZeros
  cases hf : (List.range 64).find? fun i => x.testBit i with
  | none => exact hk
  | some i =>
    rw [Option.getD_some]
    by_contra hi
    have set := (List.find?_range_eq_some.mp hf).1
    obtain ⟨y, rfl⟩ := h
    rw [testBit_two_pow_mul] at set
    simp [show ¬ i ≥ k by omega] at set

/-- A mask clears the bits below a power of two. -/
theorem and_usizeNot (hx : x < usizeSize) (hk : k < 64) :
    x &&& usizeNot (2 ^ k - 1) = x / 2 ^ k * 2 ^ k := by
  have small : 2 ^ k < 2 ^ 64 := Nat.pow_lt_pow_right (by decide) hk
  have mask : usizeNot (2 ^ k - 1) = 2 ^ 64 - (2 ^ k - 1 + 1) := by
    simp only [usizeNot, usizeSize]
    omega
  rw [mask, ← shiftRight_eq_div_pow, ← shiftLeft_eq]
  apply eq_of_testBit_eq
  intro n
  rw [testBit_and, testBit_two_pow_sub_succ (by omega), testBit_two_pow_sub_one,
    testBit_shiftLeft, testBit_shiftRight]
  by_cases low : n < k
  · simp [low]
  · by_cases high : n < 64
    · simp [high, low, show k ≤ n by omega]
    · have clear : x.testBit n = false := by
        apply testBit_lt_two_pow
        calc x < 2 ^ 64 := hx
          _ ≤ 2 ^ n := Nat.pow_le_pow_right (by decide) (by omega)
      simp [clear, show k + (n - k) = n by omega]

end BadgerOS
