import BadgerOS.Pmm.Alloc

/-!
# Handing memory to the allocator

`mark_free` cuts a range into blocks, each as large as its alignment and the
rest of the range allow, and frees them one after another.
-/

namespace BadgerOS.Pmm

open Dyadic Option Nat

/-- Blocks freed one after another. -/
inductive FreeRun : Pmm → (Nat → List Nat) → Pmm → (Nat → List Nat) → Prop
  | done (s : Pmm) (L : Nat → List Nat) : FreeRun s L s L
  | free {s t u : Pmm} {L M N : Nat → List Nat} {b o : Nat} (freeable : Freeable s L b o)
      (frees : Frees s L b o t M) (rest : FreeRun t M u N) : FreeRun s L u N

variable {s t : Pmm} {L M : Nat → List Nat} {stop : Nat}

/-- Only structs of pages that are on the free lists afterwards are written. -/
theorem Frees.pages_eq {b o p : Nat} (h : Frees s L b o t M) (hp : cover M p = 0) :
    t.pages p = s.pages p := by
  obtain ⟨N, c, q, _, hq, rfl, pages, _⟩ := h.merged
  rw [pages p, if_neg]
  intro hc
  rw [cover_push c p hq, if_pos hc] at hp
  omega

section

variable (h : FreeRun s L t M)
include h

theorem FreeRun.sound (hs : Sound s L) : Sound t M := by
  induction h with
  | done => exact hs
  | free _ frees _ ih => exact ih frees.sound

theorem FreeRun.range : t.rangeStart = s.rangeStart ∧ t.rangeEnd = s.rangeEnd := by
  induction h with
  | done => exact ⟨rfl, rfl⟩
  | free _ frees _ ih => exact ⟨ih.1.trans frees.rangeStart, ih.2.trans frees.rangeEnd⟩

theorem FreeRun.cover_le (p : Nat) : cover L p ≤ cover M p := by
  induction h with
  | done => exact le_rfl
  | free _ frees _ ih =>
    rw [frees.cover_eq p] at ih
    omega

theorem FreeRun.pages_eq {p : Nat} (hp : cover M p = 0) : t.pages p = s.pages p := by
  induction h with
  | done => rfl
  | free _ frees rest ih =>
    have := rest.cover_le p
    exact (ih hp).trans (frees.pages_eq (by omega))

end

/-- The block `mark_free` takes next is aligned and fits in the rest of the range. -/
theorem maxFreeOrder_spec {start : Nat} (ha : start % pageSize = 0) (hz : stop % pageSize = 0)
    (h : start < stop) :
    ∃ o, maxFreeOrder start stop = some o ∧ 2 ^ (o + 12) ∣ start ∧
      start + 2 ^ (o + 12) ≤ stop := by
  have hpos : stop - start ≠ 0 := by omega
  have hpage : 2 ^ 12 ≤ stop - start := by
    simp only [pageSize] at ha hz
    omega
  have hlog := (le_log2 hpos).mpr hpage
  have htz : 12 ≤ trailingZeros start := le_trailingZeros (by decide) (dvd_of_mod_eq_zero ha)
  have hbits := Nat.le_min.mpr ⟨htz, hlog⟩
  refine ⟨min (trailingZeros start) (log2 (stop - start)) - pageBits, ?_, ?_, ?_⟩
  · simp only [maxFreeOrder, debugAssert_of hbits, bind_eq_bind, bind_some, pure]
  · rw [Nat.sub_add_cancel hbits]
    exact Nat.dvd_trans (Nat.pow_dvd_pow 2 (Nat.min_le_left _ _)) (trailingZeros_dvd start)
  · rw [Nat.sub_add_cancel hbits]
    have hle : 2 ^ min (trailingZeros start) (log2 (stop - start)) ≤ stop - start :=
      Nat.le_trans (Nat.pow_le_pow_right (by decide) (Nat.min_le_right _ _)) (log2_self_le hpos)
    omega

/-- A range that `mark_free` may be called on. -/
structure Markable (s : Pmm) (L : Nat → List Nat) (start stop : Nat) : Prop where
  startAligned : start % pageSize = 0
  stopAligned : stop % pageSize = 0
  inRange : ∀ p, start / pageSize ≤ p → p < stop / pageSize → s.InRange p
  off : ∀ p, start / pageSize ≤ p → p < stop / pageSize → cover L p = 0
  unusable : ∀ p, start / pageSize ≤ p → p < stop / pageSize → (s.pages p).usage = .unusable

theorem markFreeLoop_spec {n : Nat} : ∀ {s : Pmm} {L : Nat → List Nat} {start : Nat},
    Sound s L → Markable s L start stop → (stop - start) / pageSize ≤ n →
    ∃ t M, markFreeLoop n start stop s = some t ∧ FreeRun s L t M ∧ ∀ p, cover M p =
        cover L p + if start / pageSize ≤ p ∧ p < stop / pageSize then 1 else 0 := by
  induction n with
  | zero =>
    intro s L start h hm hn
    have hle : ¬ stop > start := by
      have := hm.startAligned
      have := hm.stopAligned
      simp only [pageSize] at *
      omega
    refine ⟨s, L, if_neg hle, .done s L, fun p => ?_⟩
    have : stop / pageSize ≤ start / pageSize := Nat.div_le_div_right (by omega)
    rw [if_neg (by omega), Nat.add_zero]
  | succ n ih =>
    intro s L start h hm hn
    simp only [markFreeLoop]
    by_cases hlt : stop > start
    · rw [if_pos hlt]
      obtain ⟨o, order, block, fits⟩ := maxFreeOrder_spec hm.startAligned hm.stopAligned hlt
      have next : (start + 2 ^ (o + 12)) / pageSize = start / pageSize + 2 ^ o := by
        rw [two_pow_add, add_mul_div_right _ _ (by decide)]
      have fits' : start / pageSize + 2 ^ o ≤ stop / pageSize := by
        rw [← next]
        exact Nat.div_le_div_right fits
      have inside : ∀ p, Covers o start p → start / pageSize ≤ p ∧ p < stop / pageSize := by
        intro p hp
        have := (covers_iff block).mp hp
        omega
      have hpos := Nat.two_pow_pos o
      have free : Freeable s L start o := by
        have hu := hm.unusable _ le_rfl (by omega)
        refine ⟨block, fun p hp => hm.inRange p (inside p hp).1 (inside p hp).2,
          fun p hp => hm.off p (inside p hp).1 (inside p hp).2, ?_, ?_⟩ <;> rw [hu] <;> decide
      have small := (h.merging free).order_le
      obtain ⟨t, M, run, frees⟩ := pageFree_spec h free
      have step : ∀ p, start / pageSize + 2 ^ o ≤ p → p < stop / pageSize →
          cover M p = 0 := by
        intro p hp hz
        rw [frees.cover_eq p, hm.off p (by omega) hz, if_neg]
        rw [covers_iff block]
        omega
      have hm' : Markable t M (start + 2 ^ (o + 12)) stop := by
        refine ⟨?_, hm.stopAligned, ?_, ?_, ?_⟩
        · rw [two_pow_add, add_mul_mod_self_right]
          exact hm.startAligned
        · intro p hp hz
          rw [InRange, frees.rangeStart, frees.rangeEnd]
          exact hm.inRange p (by omega) hz
        · intro p hp hz
          rw [next] at hp
          exact step p hp hz
        · intro p hp hz
          rw [next] at hp
          rw [frees.pages_eq (step p hp hz)]
          exact hm.unusable p (by omega) hz
      have hn' : (stop - (start + 2 ^ (o + 12))) / pageSize ≤ n := by
        rw [two_pow_add]
        simp only [pageSize] at *
        omega
      obtain ⟨u, N, run', rest, cover⟩ := ih frees.sound hm' hn'
      refine ⟨u, N, ?_, .free free frees rest, fun p => ?_⟩
      · simp only [order, run, usizeShl_page small, bind_eq_bind, bind_some]
        exact run'
      · rw [cover p, frees.cover_eq p, next]
        simp only [covers_iff block]
        split <;> split <;> split <;> omega
    · refine ⟨s, L, if_neg hlt, .done s L, fun p => ?_⟩
      have : stop / pageSize ≤ start / pageSize := Nat.div_le_div_right (by omega)
      rw [if_neg (by omega), Nat.add_zero]

/-- **Marking a range free** fails no assertion, and adds exactly its pages to
the free lists. -/
theorem markFree_spec {start : Nat} (h : Sound s L) (hm : Markable s L start stop) :
    ∃ t M, markFree start stop s = some t ∧ FreeRun s L t M ∧ ∀ p, cover M p =
        cover L p + if start / pageSize ≤ p ∧ p < stop / pageSize then 1 else 0 := by
  simp only [markFree, debugAssert_of hm.startAligned, debugAssert_of hm.stopAligned,
    bind_eq_bind, bind_some]
  exact markFreeLoop_spec h hm le_rfl

end BadgerOS.Pmm
