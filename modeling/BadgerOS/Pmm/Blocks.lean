import BadgerOS.Pmm.FreeLists
import BadgerOS.Lib.Dyadic

/-!
# Blocks of physical memory

Address arithmetic of buddy blocks: which pages a block covers, its buddy and
the block around both, and how often a page is covered by the free lists.
-/

namespace BadgerOS.Pmm

open Dyadic Function Nat Finset

/-- Page `p` lies in the block of order `k` at address `b`. -/
abbrev Covers (k b p : Nat) : Prop := Holds k (b / 2 ^ (k + 12)) p

/-- How many blocks of the free lists cover page `p`. -/
def cover (L : Nat → List Nat) (p : Nat) : Nat :=
  tally maxOrder (fun k b => if Covers k b p then 1 else 0) L

/-- The number of pages in all blocks of the free lists. -/
def total (L : Nat → List Nat) : Nat := tally maxOrder (fun k _ => 2 ^ k) L

variable {b k p : Nat}

section

variable (h : 2 ^ (k + 12) ∣ b)
include h

theorem page_of_aligned : b / pageSize = b / 2 ^ (k + 12) * 2 ^ k := by
  obtain ⟨i, rfl⟩ := h
  have h1 : 2 ^ (k + 12) * i = pageSize * (i * 2 ^ k) := by
    ring
  rw [Nat.mul_div_cancel_left i (Nat.two_pow_pos _), h1, Nat.mul_div_cancel_left _ (by decide)]

theorem page_aligned : b % pageSize = 0 :=
  mod_eq_zero_of_dvd (dvd_trans ⟨2 ^ k, by rw [pow_add]; simp only [pageSize]; ring⟩ h)

theorem covers_iff : Covers k b p ↔ b / pageSize ≤ p ∧ p < b / pageSize + 2 ^ k := by
  rw [page_of_aligned h]
  exact holds_iff

theorem covers_base : Covers k b (b / pageSize) := by
  rw [page_of_aligned h]
  exact holds_base k _

theorem covers_last : Covers k b (b / pageSize + 2 ^ k - 1) := by
  have hk := Nat.two_pow_pos k
  rw [covers_iff h]
  generalize b / pageSize = q
  omega

end

theorem two_pow_add (k : Nat) : 2 ^ (k + 12) = 2 ^ k * pageSize := by
  rw [pow_add]
  rfl

section

variable (h : 2 ^ (k + 12) ∣ b)
include h

/-- A page aligned to the order of the block it lies in is the block's first page. -/
theorem base_of_covers (hc : Covers k b p) (hp : 2 ^ k ∣ p) : p * pageSize = b := by
  obtain ⟨i, rfl⟩ := h
  obtain ⟨j, rfl⟩ := hp
  have hi : j = i := by
    unfold Covers Holds at hc
    rwa [Nat.mul_div_cancel_left _ (Nat.two_pow_pos _), Nat.mul_div_cancel_left _
      (Nat.two_pow_pos _)] at hc
  rw [hi, two_pow_add]
  ring

theorem buddy_eq : b ^^^ 2 ^ (k + 12) = (b / 2 ^ (k + 12) ^^^ 1) * 2 ^ (k + 12) := by
  obtain ⟨i, rfl⟩ := h
  rw [Nat.mul_div_cancel_left _ (Nat.two_pow_pos _), Nat.mul_comm, ← Nat.shiftLeft_eq,
    ← one_shiftLeft, ← shiftLeft_xor_distrib, shiftLeft_eq, one_shiftLeft]

theorem buddy_aligned : 2 ^ (k + 12) ∣ b ^^^ 2 ^ (k + 12) :=
  ⟨_, (buddy_eq h).trans (mul_comm _ _)⟩

theorem buddy_index : (b ^^^ 2 ^ (k + 12)) / 2 ^ (k + 12) = b / 2 ^ (k + 12) ^^^ 1 := by
  rw [buddy_eq h, Nat.mul_div_cancel _ (Nat.two_pow_pos _)]

theorem buddy_ne : b ^^^ 2 ^ (k + 12) ≠ b := by
  intro he
  have hi := buddy_index h
  rw [he, xor_one] at hi
  split at hi <;> omega

end

theorem buddy_buddy (k b : Nat) : (b ^^^ 2 ^ (k + 12)) ^^^ 2 ^ (k + 12) = b := by
  rw [Nat.xor_assoc, Nat.xor_self, Nat.xor_zero]

/-- The block around a block of order `k` and its buddy. -/
def parent (k b : Nat) : Nat := b / 2 ^ (k + 13) * 2 ^ (k + 13)

theorem parent_aligned (k b : Nat) : 2 ^ (k + 1 + 12) ∣ parent k b := ⟨_, Nat.mul_comm _ _⟩

theorem parent_index (k b : Nat) : parent k b / 2 ^ (k + 1 + 12) = b / 2 ^ (k + 12) / 2 := by
  unfold parent
  rw [show k + 1 + 12 = k + 13 by omega, Nat.mul_div_cancel _ (Nat.two_pow_pos
    _), Nat.div_div_eq_div_mul, ← pow_succ]

/-- Clearing the bit of the order gives the block around both buddies. -/
theorem clear_bit (h : 2 ^ (k + 12) ∣ b) (hb : b < usizeSize) (hk : k ≤ 51) :
    b &&& usizeNot (2 ^ (k + 12)) = parent k b := by
  have hlt : 2 ^ (k + 12) < 2 ^ 64 := Nat.pow_lt_pow_right (by decide) (by omega)
  have hnot : usizeNot (2 ^ (k + 12)) = 2 ^ 64 - (2 ^ (k + 12) + 1) := by
    simp only [usizeNot, usizeSize]
    omega
  apply eq_of_testBit_eq
  intro n
  have hlow : n < k + 12 → b.testBit n = false := by
    intro hn
    obtain ⟨i, rfl⟩ := h
    rw [testBit_two_pow_mul]
    simp [hn]
  have hhigh : 64 ≤ n → b.testBit n = false := fun hn =>
    Nat.testBit_lt_two_pow (lt_of_lt_of_le hb (Nat.pow_le_pow_right (by decide : 0 < 2) hn))
  rw [testBit_and, hnot, testBit_two_pow_sub_succ hlt, testBit_two_pow]
  unfold parent
  rw [← shiftRight_eq_div_pow, ← shiftLeft_eq, testBit_shiftLeft, testBit_shiftRight]
  by_cases h1 : n < k + 12
  · simp [hlow h1, show ¬ n ≥ k + 13 by omega]
  · by_cases h2 : n = k + 12
    · subst h2
      simp
    · by_cases h3 : n < 64
      · simp [h3, Ne.symm h2, show k + 13 ≤ n by omega]
      · simp [hhigh (by omega), show k + 13 ≤ n by omega]

/-- A block and its buddy cover the pages of the block around them. -/
theorem merge_weight (h : 2 ^ (k + 12) ∣ b) (p : Nat) :
    (if Covers (k + 1) (parent k b) p then 1 else 0) =
      (if Covers k b p then 1 else 0) + (if Covers k (b ^^^ 2 ^ (k + 12)) p then 1 else 0) := by
  unfold Covers
  rw [buddy_index h, parent_index]
  exact pair_weight k _ p

section

variable (h : 2 ^ (k + 1 + 12) ∣ b)
include h

/-- The two halves of a block. -/
theorem halves_weight (p : Nat) : (if Covers (k + 1) b p then 1 else 0) =
      (if Covers k b p then 1 else 0) + (if Covers k (b + 2 ^ (k + 12)) p then 1 else 0) := by
  obtain ⟨i, rfl⟩ := h
  have h0 : 2 ^ (k + 1 + 12) * i = 2 ^ (k + 12) * (2 * i) := by
    ring
  have h1 : 2 ^ (k + 12) * (2 * i) + 2 ^ (k + 12) = 2 ^ (k + 12) * (2 * i + 1) := by ring
  unfold Covers
  rw [Nat.mul_div_cancel_left _ (Nat.two_pow_pos _), h0, h1,
    Nat.mul_div_cancel_left _ (Nat.two_pow_pos _), Nat.mul_div_cancel_left _ (Nat.two_pow_pos _)]
  exact holds_weight k i p

theorem upper_aligned : 2 ^ (k + 12) ∣ b ∧ 2 ^ (k + 12) ∣ b + 2 ^ (k + 12) := by
  have hb : 2 ^ (k + 12) ∣ b := dvd_trans (pow_dvd_pow 2 (by omega)) h
  exact ⟨hb, Nat.dvd_add hb (Nat.dvd_refl _)⟩

theorem upper_eq_buddy : b + 2 ^ (k + 12) = b ^^^ 2 ^ (k + 12) := by
  rw [buddy_eq (upper_aligned h).1, xor_one]
  obtain ⟨i, rfl⟩ := h
  have h0 : 2 ^ (k + 1 + 12) * i = 2 ^ (k + 12) * (2 * i) := by
    ring
  rw [h0, Nat.mul_div_cancel_left _ (Nat.two_pow_pos _), if_pos (by omega)]
  ring

end

variable {L : Nat → List Nat}

theorem cover_push (b p : Nat) (hk : k < maxOrder) :
    cover (update L k (b :: L k)) p = cover L p + if Covers k b p then 1 else 0 :=
  tally_push _ L b hk

theorem cover_erase (p : Nat) (hk : k < maxOrder) (hb : b ∈ L k) :
    cover (update L k ((L k).erase b)) p + (if Covers k b p then 1 else 0) = cover L p :=
  tally_erase _ L hk hb

theorem total_push (b : Nat) (hk : k < maxOrder) :
    total (update L k (b :: L k)) = total L + 2 ^ k :=
  tally_push _ L b hk

theorem total_erase (hk : k < maxOrder) (hb : b ∈ L k) :
    total (update L k ((L k).erase b)) + 2 ^ k = total L :=
  tally_erase _ L hk hb

theorem cover_pos (hk : k < maxOrder) (hb : b ∈ L k) (hp : Covers k b p) : 0 < cover L p := by
  have h := le_tally (fun k b => if Covers k b p then 1 else 0) L hk hb
  rw [if_pos hp] at h
  exact h

theorem exists_of_cover (h : 0 < cover L p) : ∃ k < maxOrder, ∃ b ∈ L k, Covers k b p := by
  obtain ⟨k, hk, b, hb, hw⟩ := tally_pos h
  refine ⟨k, hk, b, hb, ?_⟩
  by_contra hn
  rw [if_neg hn] at hw
  exact absurd hw (by decide)

/-- When no page is covered twice, two listed blocks that share a page are one. -/
theorem eq_of_covers {j a : Nat} (once : cover L p ≤ 1) (hj : j < maxOrder) (hk : k < maxOrder)
    (ha : a ∈ L j)
    (hb : b ∈ L k) (pa : Covers j a p) (pb : Covers k b p) : j = k ∧ a = b := by
  by_contra hne
  have hmem : b ∈ update L j ((L j).erase a) k := by
    by_cases hjk : k = j
    · subst hjk
      have hab : b ≠ a := fun he => hne ⟨rfl, he.symm⟩
      rw [update_self]
      exact (List.mem_erase_of_ne hab).mpr hb
    · rwa [update_of_ne hjk]
  have h := two_le_tally (fun k b => if Covers k b p then 1 else 0) L hj hk ha hmem
  rw [if_pos pa, if_pos pb] at h
  unfold cover at once
  omega

/-- Blocks that stay inside the first `n` pages and never overlap have at most
`n` pages between them. -/
theorem total_le {n : Nat} (once : ∀ p, cover L p ≤ 1)
    (aligned : ∀ k < maxOrder, ∀ b ∈ L k, 2 ^ (k + 12) ∣ b) (inside : ∀ p, 0 < cover L p → p < n) :
    total L ≤ n := by
  have hsum : ∑ p ∈ Finset.range n, cover L p = total L := by
    unfold cover total
    rw [sum_tally]
    apply tally_congr
    intro k hk b hb
    apply holds_count
    rw [← page_of_aligned (aligned k hk b hb)]
    have hlast := inside _ (cover_pos hk hb (covers_last (aligned k hk b hb)))
    omega
  rw [← hsum]
  calc ∑ p ∈ Finset.range n, cover L p ≤ ∑ _p ∈ Finset.range n, 1 :=
        sum_le_sum fun p _ => once p
    _ = n := by simp

end BadgerOS.Pmm
