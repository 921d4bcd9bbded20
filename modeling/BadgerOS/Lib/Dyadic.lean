import Mathlib

/-!
# Aligned blocks and lists of blocks by order

Block `i` of order `k` holds the `2 ^ k` cells whose number divided by `2 ^ k`
is `i`, so every block is aligned by construction. `tally` adds a weight over
all entries of a family of lists, one list for each order; with the weight "one
if the block holds this cell" it counts how often a cell is covered.
-/

namespace Dyadic

open Function List

/-- Cell `p` lies in block `i` of order `k`. -/
abbrev Holds (k i p : Nat) : Prop := p / 2 ^ k = i

variable {k i p j n : Nat}

theorem holds_iff : Holds k i p ↔ i * 2 ^ k ≤ p ∧ p < i * 2 ^ k + 2 ^ k := by
  have positive := Nat.two_pow_pos k
  rw [Holds, Nat.div_eq_iff positive]
  omega

theorem holds_base (k i : Nat) : Holds k i (i * 2 ^ k) := Nat.mul_div_cancel i (Nat.two_pow_pos k)

theorem div_succ (k p : Nat) : p / 2 ^ (k + 1) = p / 2 ^ k / 2 := by
  rw [Nat.div_div_eq_div_mul, pow_succ]

/-- A block of order `k + 1` is made of its two halves. -/
theorem holds_succ {k i p : Nat} : Holds (k + 1) i p ↔ Holds k (2 * i) p ∨
    Holds k (2 * i + 1) p := by
  unfold Holds
  rw [div_succ]
  omega

theorem holds_weight (k i p : Nat) : (if Holds (k + 1) i p then 1 else 0) =
      (if Holds k (2 * i) p then 1 else 0) + (if Holds k (2 * i + 1) p then 1 else 0) := by
  have h := @holds_succ k i p
  by_cases h0 : Holds k (2 * i) p
  · have h1 : ¬ Holds k (2 * i + 1) p := by omega
    rw [if_pos (h.mpr (Or.inl h0)), if_pos h0, if_neg h1]
  · by_cases h1 : Holds k (2 * i + 1) p
    · rw [if_pos (h.mpr (Or.inr h1)), if_neg h0, if_pos h1]
    · rw [if_neg (fun hh => (h.mp hh).elim h0 h1), if_neg h0, if_neg h1]

/-- Two blocks that share a cell are nested. -/
theorem Holds.nested {a b : Nat} (hj : Holds j a p) (hk : Holds k b p) (le : j ≤ k)
    {q : Nat} (hq : Holds j a q) : Holds k b q := by
  obtain ⟨d, rfl⟩ := Nat.exists_eq_add_of_le le
  unfold Holds at *
  rw [pow_add, ← Nat.div_div_eq_div_mul] at hk ⊢
  rw [hq, ← hj, hk]

theorem xor_one (i : Nat) : i ^^^ 1 = if i % 2 = 0 then i + 1 else i - 1 := by
  rcases Nat.even_or_odd' i with ⟨j, rfl | rfl⟩
  · simp
  · have even : (2 * j) ^^^ 1 = 2 * j + 1 := by simp
    have odd : (2 * j + 1) ^^^ 1 = 2 * j := by
      rw [← even, Nat.xor_assoc, Nat.xor_self, Nat.xor_zero]
    rw [odd, if_neg (by omega)]
    rfl

/-- A block and its buddy are the two halves of the block around them. -/
theorem pair_weight (k i p : Nat) : (if Holds (k + 1) (i / 2) p then 1 else 0) =
      (if Holds k i p then 1 else 0) + (if Holds k (i ^^^ 1) p then 1 else 0) := by
  rw [holds_weight, xor_one]
  rcases Nat.even_or_odd' i with ⟨j, rfl | rfl⟩
  · simp
  · have h1 : (2 * j + 1) / 2 = j := by omega
    rw [h1, if_neg (by omega : ¬ (2 * j + 1) % 2 = 0), Nat.add_sub_cancel, Nat.add_comm]

theorem holds_count (h : i * 2 ^ k + 2 ^ k ≤ n) :
    (∑ p ∈ Finset.range n, if Holds k i p then 1 else 0) = 2 ^ k := by
  rw [← Finset.card_filter]
  have : (Finset.range n).filter (fun p => Holds k i p) = Finset.Ico (i * 2 ^ k)
      (i * 2 ^ k + 2 ^ k) := by
    ext p
    simp only [Finset.mem_filter, Finset.mem_range, Finset.mem_Ico, holds_iff]
    omega
  rw [this, Nat.card_Ico, Nat.add_sub_cancel_left]

variable {α : Type}

/-- The sum of the weights of all entries of the first `n` lists. -/
def tally (n : Nat) (w : Nat → α → Nat) (L : Nat → List α) : Nat :=
  ∑ k ∈ Finset.range n, ((L k).map (w k)).sum

theorem tally_congr {w w' : Nat → α → Nat} {L : Nat → List α}
    (h : ∀ k < n, ∀ x ∈ L k, w k x = w' k x) : tally n w L = tally n w' L := by
  apply Finset.sum_congr rfl
  intro k hk
  congr 1
  exact map_congr_left (h k (Finset.mem_range.mp hk))

section

variable (w : Nat → α → Nat) (L : Nat → List α)
include w L

theorem tally_update (l : List α) (hk : k < n) : tally n w (update L k l) + ((L k).map (w k)).sum =
      tally n w L + (l.map (w k)).sum := by
  have hm := Finset.mem_range.mpr hk
  unfold tally
  rw [← Finset.add_sum_erase _ _ hm, ← Finset.add_sum_erase (Finset.range n)
    (fun k => ((L k).map (w k)).sum) hm]
  have rest : ∑ j ∈ (Finset.range n).erase k, ((update L k l j).map (w j)).sum =
      ∑ j ∈ (Finset.range n).erase k, ((L j).map (w j)).sum := by
    apply Finset.sum_congr rfl
    intro j hj
    rw [update_of_ne (Finset.ne_of_mem_erase hj)]
  rw [rest, update_self]
  omega

theorem tally_push (x : α) (hk : k < n) :
    tally n w (update L k (x :: L k)) = tally n w L + w k x := by
  have h := tally_update w L (x :: L k) hk
  simp only [map_cons, sum_cons] at h
  omega

theorem tally_erase [DecidableEq α] {x : α} (hk : k < n) (hx : x ∈ L k) :
    tally n w (update L k ((L k).erase x)) + w k x = tally n w L := by
  have h := tally_update w L ((L k).erase x) hk
  have hs := ((perm_cons_erase hx).map (w k)).sum_eq
  simp only [map_cons, sum_cons] at hs
  omega

theorem le_tally {x : α} (hk : k < n) (hx : x ∈ L k) : w k x ≤ tally n w L := by
  apply le_trans (single_le_sum (by simp) (w k x) (mem_map_of_mem hx))
  exact Finset.single_le_sum (f := fun k => ((L k).map (w k)).sum) (by simp)
    (Finset.mem_range.mpr hk)

/-- Two different entries both count. -/
theorem two_le_tally [DecidableEq α] {x y : α} (hj : j < n) (hk : k < n) (hx : x ∈ L j)
    (hy : y ∈ update L j ((L j).erase x) k) : w j x + w k y ≤ tally n w L := by
  have h1 := tally_erase w L hj hx
  have h2 := le_tally w _ hk hy
  omega

end

theorem tally_pos {w : Nat → α → Nat} {L : Nat → List α} (h : 0 < tally n w L) : ∃ k < n,
    ∃ x ∈ L k, 0 < w k x := by
  by_contra hne
  push Not at hne
  have : tally n w L = tally n (fun _ _ => 0) L :=
    tally_congr fun k hk x hx => Nat.le_zero.mp (hne k hk x hx)
  have zero : tally n (fun _ _ => 0) L = 0 := by simp [tally]
  omega

theorem sum_tally (m n : Nat) (w : Nat → Nat → α → Nat) (L : Nat → List α) :
    ∑ p ∈ Finset.range m, tally n (w p) L =
      tally n (fun k x => ∑ p ∈ Finset.range m, w p k x) L := by
  unfold tally
  rw [Finset.sum_comm]
  apply Finset.sum_congr rfl
  intro k _
  induction L k with
  | nil => simp
  | cons x xs ih =>
    simp [Finset.sum_add_distrib, ih]

/-- The members of the first `n` lists, each with the number of its list. -/
def members (n : Nat) (L : Nat → List α) : List (α × Nat) :=
  (List.range n).flatMap fun k => (L k).map (·, k)

theorem mem_members {L : Nat → List α} {x : α × Nat} : x ∈ members n L ↔ x.2 < n ∧
    x.1 ∈ L x.2 := by
  obtain ⟨a, k⟩ := x
  simp [members]

theorem members_congr {L M : Nat → List α} (h : ∀ k < n, L k = M k) :
    members n L = members n M := by
  unfold members
  rw [flatMap_def, flatMap_def]
  congr 1
  apply map_congr_left
  intro k hk
  rw [h k (mem_range.mp hk)]

theorem tally_eq_sum (n : Nat) (w : Nat → α → Nat) (L : Nat → List α) :
    tally n w L = ((members n L).map fun x => w x.2 x.1).sum := by
  unfold tally members
  induction n with
  | zero => rfl
  | succ n ih =>
    rw [Finset.sum_range_succ, range_succ, flatMap_append, map_append, sum_append, ih]
    simp [Function.comp_def]

/-- Sets that between them hold no point twice are pairwise disjoint. -/
theorem pairwise_disjoint {β : Type} {xs : List β} {holds : β → Nat → Prop}
    [∀ x p, Decidable (holds x p)]
    (once : ∀ p, (xs.map fun x => if holds x p then 1 else 0).sum ≤ 1) :
    xs.Pairwise fun x y => ∀ p, ¬ (holds x p ∧ holds y p) := by
  induction xs with
  | nil => exact .nil
  | cons x xs ih =>
    simp only [map_cons, sum_cons] at once
    refine .cons ?_ (ih fun p => by have := once p; omega)
    intro y hy p ⟨hx, hp⟩
    have hle : 1 ≤ (xs.map fun x => if holds x p then 1 else 0).sum := by
      refine single_le_sum (fun n _ => Nat.zero_le n) 1 (mem_map.mpr ⟨y, hy, if_pos hp⟩)
    have := once p
    rw [if_pos hx] at this
    omega

end Dyadic
