import BadgerOS.Pmm.Runs

/-!
# Safety of the allocator

What the callers rely on after any sequence of legal calls, and the one way in
which the code departs from it: the loop of `page_alloc` over the page structs
counts in `i32`, so from order 31 on the structs of a block are not written.
-/

namespace BadgerOS.Pmm

open Dyadic Option List

/-- The blocks on the free lists, with their orders. -/
def World.free (w : World) : List (Nat × Nat) := members maxOrder w.pmm.freeBlocks

/-- The property of a world that the callers rely on, for further calls that
meet the condition `next`. -/
structure Safe (next : Call → Prop) (w : World) : Prop where
  aligned : ∀ x ∈ w.free, x.1 % (2 ^ x.2 * pageSize) = 0
  disjoint : (w.free ++ w.live).Pairwise fun x y => ∀ p, ¬ (InBlock x p ∧ InBlock y p)
  union : ∀ p, (∃ x ∈ w.free ++ w.live, InBlock x p) ↔ p ∈ w.marked
  freePages : w.pmm.freePages = (w.free.map fun x => 2 ^ x.2).sum
  /-- No call panics; in the calls, each `free_list_unlink` asserts that the
  block is a member of the list. -/
  runs : ∀ c, Legal w c → next c → (exec w c).isSome
  base : ∀ x ∈ w.live, ∀ p, InBlock x p →
    w.pmm.pageStructBase (p * pageSize) = some (x.1 / pageSize, x.2)
  exhausted : ∀ order < maxOrder, ∀ usage, Allocatable usage →
    ((∃ t, w.pmm.pageAlloc order usage = some (.error .allocError, t)) ↔
      ∀ k, order ≤ k → k < maxOrder → w.pmm.freeBlocks k = [])

variable {x : Nat × Nat}

namespace Inv

variable {w : World} {L : Nat → List Nat}

section

variable (h : Inv w L)
include h

theorem free_eq : w.free = members maxOrder L :=
  members_congr fun _ hk => h.sound.threaded.freeBlocks_eq hk

theorem mem_free : x ∈ w.free ↔ x.2 < maxOrder ∧ x.1 ∈ L x.2 := by
  rw [h.free_eq, mem_members]

theorem block (hx : x ∈ w.free ++ w.live) : 2 ^ (x.2 + 12) ∣ x.1 := by
  obtain hx | hx := mem_append.mp hx
  · obtain ⟨hk, hb⟩ := h.mem_free.mp hx
    exact h.sound.aligned x.2 hk x.1 hb
  · exact h.aligned x hx

/-- The covers of the invariant count the blocks of both lists. -/
theorem sum_inBlock (p : Nat) : ((w.free ++ w.live).map fun x => if InBlock x p then 1 else 0).sum =
      cover L p + liveCover w.live p := by
  have same : ∀ x ∈ w.free ++ w.live, (if InBlock x p then 1 else 0) = if Covers x.2 x.1
      p then 1 else 0 :=
    fun x hx => by simp only [InBlock, covers_iff (h.block hx)]
  rw [map_congr_left same, map_append, sum_append, h.free_eq, cover, tally_eq_sum]
  rfl

theorem union (p : Nat) : (∃ x ∈ w.free ++ w.live, InBlock x p) ↔ p ∈ w.marked := by
  constructor
  · rintro ⟨x, hx, hp⟩
    have hle : 1 ≤ ((w.free ++ w.live).map fun x => if InBlock x p then 1 else 0).sum :=
      single_le_sum (fun n _ => Nat.zero_le n) 1 (mem_map.mpr ⟨x, hx, if_pos hp⟩)
    rw [h.sum_inBlock] at hle
    exact h.mem_marked hle
  · intro hp
    by_contra hn
    have hn : ∀ x ∈ w.free ++ w.live, ¬ InBlock x p := fun x hx hin => hn ⟨x, hx, hin⟩
    have hz : ((w.free ++ w.live).map fun x => if InBlock x p then 1 else 0).sum = 0 := by
      apply sum_eq_zero
      intro n hm
      obtain ⟨x, hx, rfl⟩ := mem_map.mp hm
      exact if_neg (hn x hx)
    rw [h.sum_inBlock, h.once p hp] at hz
    cases hz

/-- Every page of a live block leads back to the block. -/
theorem base (hx : x ∈ w.live) {p : Nat} (hp : InBlock x p) :
    w.pmm.pageStructBase (p * pageSize) = some (x.1 / pageSize, x.2) := by
  obtain ⟨b, o⟩ := x
  have block := h.aligned (b, o) hx
  have free := h.freeable hx
  have hc := (covers_iff block).mpr hp
  have order := (h.structs (b, o) hx p hc).1
  have ho := order_le_of_inRange h.sound.small block free.inRange
  exact pageStructBase_eq block hc order (free.inRange p hc) ho

theorem safe : Safe Small w := by
  refine ⟨?_, ?_, h.union, ?_, ?_, fun x hx p hp => h.base hx hp, ?_⟩
  · intro x hx
    rw [← two_pow_add]
    exact Nat.mod_eq_zero_of_dvd (h.block (mem_append_left _ hx))
  · apply pairwise_disjoint
    intro p
    rw [h.sum_inBlock]
    exact h.cover_le p
  · rw [h.sound.counted, h.free_eq, total, tally_eq_sum]
  · intro c legal small
    obtain ⟨w', _, run, _⟩ := h.step legal small
    rw [run]
    rfl
  · intro order ho usage hu
    rw [pageAlloc_error_iff h.sound ho hu]
    refine forall_congr' fun k => forall_congr' fun _ => forall_congr' fun hk => ?_
    rw [h.sound.threaded.freeBlocks_eq hk]

end

end Inv

/-- **Safety.** After every sequence of legal calls that allocates only orders
below 31, the world is safe; and wherever an unlink runs, it removes a member
of the list. -/
theorem reach_safe {rangeStart rangeEnd : Nat} (small : rangeEnd < 2 ^ 52) {w : World}
    (h : Reach (fun _ c => Small c) (World.init rangeStart rangeEnd) w) :
    Safe Small w ∧ ∀ (s t : Pmm) (b k : Nat), freeListUnlink b k s = some t →
      b ∈ s.freeBlocks k := by
  obtain ⟨L, inv⟩ := h.inv (fun _ _ hc => hc) (Inv.init small)
  exact ⟨inv.safe, fun _ _ _ _ => mem_of_freeListUnlink⟩

/-- One of two pages is allocated. -/
theorem reach_safe_two_pages :
    ∃ w, Reach (fun _ c => Small c) (World.init 0 2) w ∧ w.live = [(0, 0)] ∧
      Safe Small w := by
  have run : (((World.init 0 2).pmm.markFree 0 (2 * pageSize)).bind fun s =>
    (s.pageAlloc 0 .cache).map (·.1)) =
      some (.ok 0) := by decide +kernel
  obtain ⟨s, marked, alloc⟩ := bind_eq_some_iff.mp run
  obtain ⟨⟨r, t⟩, alloc, rfl⟩ := map_eq_some_iff.mp alloc
  have h₁ :=
    (@Reach.start (fun _ c => Small c) (World.init 0 2)).markFree (legal_init 2) trivial marked
  have h₂ :=
    h₁.pageAlloc (by decide : 0 < maxOrder ∧ Allocatable .cache) (by decide : 0 < 31) alloc
  exact ⟨_, h₂, rfl, (reach_safe (by decide) h₂).1⟩

/-- An allocation of order 31 leaves the structs of its block as they were. -/
theorem not_reach_safe : ∃ w, Reach (fun _ _ => True) (World.init 0 (2 ^ 32)) w ∧
    ¬ Safe (fun _ => True) w := by
  have run : (((World.init 0 (2 ^ 32)).pmm.markFree 0 (2 ^ 32 * pageSize)).bind fun s =>
      (s.pageAlloc 31 .kernelAnon).map fun r => (r.1, r.2.pageStructBase 4096)) =
      some (.ok 0, some (0, 32)) := by decide +kernel
  obtain ⟨s, marked, alloc⟩ := bind_eq_some_iff.mp run
  obtain ⟨⟨r, t⟩, alloc, base⟩ := map_eq_some_iff.mp alloc
  simp only [Prod.mk.injEq] at base
  obtain ⟨rfl, base⟩ := base
  have h₁ := (@Reach.start (fun _ _ => True) _).markFree (legal_init (2 ^ 32)) trivial marked
  have h₂ := h₁.pageAlloc (by decide : 31 < maxOrder ∧ Allocatable .kernelAnon) trivial alloc
  refine ⟨_, h₂, fun safe => ?_⟩
  have := safe.base (0, 31) mem_cons_self 1 (by decide)
  exact absurd (base.symm.trans this) (by decide)

end BadgerOS.Pmm
