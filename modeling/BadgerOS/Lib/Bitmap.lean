import Mathlib

/-!
# Bitmaps

Bits in a list of machine words, as allocators keep them: the first bit of a word
that is set or clear, setting and clearing one bit, and how many bits there are.
-/

namespace Bitmap

open List BitVec Nat

variable {w : Nat} {v : BitVec w} {ws : List (BitVec w)} {b i k n : Nat}

/-! ### Words -/

/-- The first bit that is set, or the number of bits. -/
def trailingZeros (v : BitVec w) : Nat := ((List.range w).find? v.getLsbD).getD w

/-- The first bit that is clear, or the number of bits. -/
def trailingOnes (v : BitVec w) : Nat := ((List.range w).find? (!v.getLsbD ·)).getD w

theorem getLsbD_mask (less : k < w) : (1#w <<< k).getLsbD i = decide (i = k) := by
  rw [getLsbD_shiftLeft, getLsbD_one]
  by_cases same : i = k
  · subst same
    simp
    omega
  · have : i < k ∨ i - k ≠ 0 := by omega
    rcases this with below | above <;> simp [*]

theorem getLsbD_or_mask (less : k < w) :
    (v ||| 1#w <<< k).getLsbD i = (v.getLsbD i || decide (i = k)) := by
  rw [getLsbD_or, getLsbD_mask less]

theorem getLsbD_and_not_mask (less : k < w) :
    (v &&& ~~~(1#w <<< k)).getLsbD i = (v.getLsbD i && !decide (i = k)) := by
  rw [getLsbD_and, getLsbD_not, getLsbD_mask less]
  by_cases inside : i < w
  · simp [inside]
  · simp [getLsbD_of_ge v i (by omega)]

theorem trailingOnes_spec (less : trailingOnes v < w) : v.getLsbD (trailingOnes v) = false := by
  unfold trailingOnes at less ⊢
  cases found : (range w).find? (!v.getLsbD ·) with
  | none =>
    rw [found] at less
    exact less.false.elim
  | some k =>
    have here := find?_some found
    simpa using here

theorem trailingOnes_lt (some : v ≠ allOnes w) : trailingOnes v < w := by
  unfold trailingOnes
  cases found : (range w).find? (!v.getLsbD ·) with
  | none =>
    exfalso
    apply some
    apply eq_of_getLsbD_eq
    intro i inside
    have full := find?_eq_none.mp found i (mem_range.mpr inside)
    simpa [inside] using full
  | some k => exact mem_range.mp (mem_of_find?_eq_some found)

theorem trailingZeros_spec (some : v ≠ 0#w) :
    trailingZeros v < w ∧ v.getLsbD (trailingZeros v) = true ∧ ∀ j < trailingZeros v,
      v.getLsbD j = false := by
  unfold trailingZeros
  cases found : (range w).find? v.getLsbD with
  | none =>
    exfalso
    apply some
    apply eq_of_getLsbD_eq
    intro i inside
    have clear := find?_eq_none.mp found i (mem_range.mpr inside)
    simpa using clear
  | some k =>
    obtain ⟨here, inside, before⟩ := find?_range_eq_some.mp found
    exact ⟨mem_range.mp inside, here, fun j less => by simpa using before j less⟩

/-- A number without the lowest bit that is set, from the number before it. -/
theorem testBit_and_pred {x k : Nat} (set : x.testBit k = true)
    (clear : ∀ j < k, x.testBit j = false) (i : Nat) :
    (x &&& (x - 1)).testBit i = (x.testBit i && !decide (i = k)) := by
  -- the number is odd above the bit and zero below it
  have low : x % 2 ^ k = 0 := by
    apply eq_of_testBit_eq
    intro j
    by_cases below : j < k
    · simp [clear j below]
    · simp [below]
  have split := (Nat.mul_div_cancel' (dvd_of_mod_eq_zero low)).symm
  have odd : (x / 2 ^ k) % 2 = 1 := by
    have high := testBit_div_two_pow (n := k) x 0
    rw [Nat.zero_add, set, testBit_zero] at high
    exact of_decide_eq_true high
  obtain ⟨m, hm⟩ : ∃ m, x / 2 ^ k = 2 * m + 1 := ⟨x / 2 ^ k / 2, by omega⟩
  rw [hm] at split
  have positive := Nat.two_pow_pos k
  have before : x - 1 = 2 ^ k * (2 * m) + (2 ^ k - 1) := by
    rw [split, Nat.mul_add]
    omega
  have same : x = 2 ^ k * (2 * m + 1) + 0 := by omega
  rw [testBit_and, before, testBit_two_pow_mul_add _ (by omega)]
  conv_lhs => rw [same, testBit_two_pow_mul_add _ positive]
  conv_rhs => rw [same, testBit_two_pow_mul_add _ positive]
  by_cases below : i < k
  · simp [below]
  · rw [if_neg below, if_neg below]
    by_cases here : i = k
    · subst here
      simp
    · obtain ⟨j, hj⟩ : ∃ j, i - k = j + 1 := ⟨i - k - 1, by omega⟩
      rw [hj, testBit_succ, testBit_succ]
      have halves : (2 * m + 1) / 2 = m ∧ 2 * m / 2 = m := by omega
      rw [halves.1, halves.2]
      simp [here]

/-- The lowest bit that is set, as a mask. -/
theorem lowest_eq_mask (some : v ≠ 0#w) : v ^^^ (v &&& (v - 1#w)) = 1#w <<< trailingZeros v := by
  obtain ⟨inside, set, clear⟩ := trailingZeros_spec some
  have positive : 0 < v.toNat := by
    rw [Nat.pos_iff_ne_zero]
    intro zero
    exact some (eq_of_toNat_eq (by simpa using zero))
  have pred : (v - 1#w).toNat = v.toNat - 1 := by
    have one : (1#w).toNat = 1 := by
      exact mod_eq_of_lt (Nat.one_lt_two_pow (by omega))
    rw [toNat_sub, one]
    have swap : 2 ^ w - 1 + v.toNat = v.toNat - 1 + 2 ^ w := by omega
    rw [swap, add_mod_right, mod_eq_of_lt (by omega)]
  apply eq_of_getLsbD_eq
  intro i _
  have rest := testBit_and_pred set clear i
  rw [getLsbD_xor, getLsbD_mask inside, getLsbD_and, getLsbD, getLsbD, pred, ← testBit_and, rest]
  by_cases here : i = trailingZeros v
  · have set : v.toNat.testBit i = true := here ▸ set
    simp [here ▸ set, here]
  · simp [here]

theorem lowest_zero : (0#w) ^^^ (0#w &&& (0#w - 1#w)) = 0#w := by simp

theorem trailingZeros_mask (less : k < w) : trailingZeros (1#w <<< k) = k := by
  unfold trailingZeros
  have found : (range w).find? (1#w <<< k).getLsbD = some k := by
    apply find?_range_eq_some.mpr
    refine ⟨?_, mem_range.mpr less, fun j below => ?_⟩
    · rw [getLsbD_mask less]
      exact decide_eq_true rfl
    · rw [getLsbD_mask less, decide_eq_false below.ne]
      rfl
  rw [found]
  rfl

/-! ### Bitmaps -/

/-- A bit of a bitmap. -/
def bit (ws : List (BitVec w)) (b : Nat) : Bool := (ws[b / w]?.getD 0#w).getLsbD (b % w)

theorem eq_place_iff (less : k < w) : b = k + i * w ↔ b / w = i ∧ b % w = k := by
  rw [Nat.div_mod_unique (by omega), Nat.mul_comm w, and_iff_left less, eq_comm]

theorem bit_eq (here : ws[i]? = some v) (less : k < w) : bit ws (k + i * w) = v.getLsbD k := by
  obtain ⟨div, mod⟩ := (eq_place_iff less).mp rfl
  rw [bit, div, mod, here]
  rfl

theorem bit_set (inside : i < ws.length) :
    bit (ws.set i v) b = if b / w = i then v.getLsbD (b % w) else bit ws b := by
  unfold bit
  rw [getElem?_set]
  by_cases here : i = b / w
  · rw [if_pos here, if_pos inside, if_pos here.symm]
    rfl
  · rw [if_neg here, if_neg (Ne.symm here)]

/-- One bit of one word is set. -/
theorem bit_set_or (here : ws[i]? = some v) (less : k < w) :
    bit (ws.set i (v ||| 1#w <<< k)) b = (bit ws b || decide (b = k + i * w)) := by
  rw [bit_set (List.getElem?_eq_some_iff.mp here).1, getLsbD_or_mask less]
  by_cases word : b / w = i
  · rw [if_pos word, bit, word, here]
    simp [eq_place_iff less, word]
  · simp [eq_place_iff less, word]

/-- One bit of one word is cleared. -/
theorem bit_set_and_not (here : ws[i]? = some v) (less : k < w) :
    bit (ws.set i (v &&& ~~~(1#w <<< k))) b = (bit ws b && !decide (b = k + i * w)) := by
  rw [bit_set (List.getElem?_eq_some_iff.mp here).1, getLsbD_and_not_mask less]
  by_cases word : b / w = i
  · rw [if_pos word, bit, word, here]
    simp [eq_place_iff less, word]
  · simp [eq_place_iff less, word]

/-! ### Counts -/

theorem count_eq_of_same {p q : Nat → Bool} (same : ∀ b < n, q b = p b) :
    Nat.count (q · = true) n = Nat.count (p · = true) n := by
  induction n with
  | zero => rfl
  | succ n ih => rw [count_succ, count_succ, ih fun b less => same b (by omega), same n (by omega)]

/-- One more bit is set. -/
theorem count_succ_of_flip {p q : Nat → Bool} (less : k < n) (off : p k = false) (on : q k = true)
    (same : ∀ b, b ≠ k → q b = p b) : Nat.count (q · = true) n = Nat.count
    (p · = true) n + 1 := by
  induction n with
  | zero => omega
  | succ n ih =>
    rw [count_succ, count_succ]
    by_cases last : k = n
    · subst last
      rw [count_eq_of_same fun b below => same b below.ne]
      simp [off, on]
    · rw [ih (by omega), same n (Ne.symm last)]
      omega

end Bitmap
