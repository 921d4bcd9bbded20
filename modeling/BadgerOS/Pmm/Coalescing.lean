import BadgerOS.Pmm.Safety

/-!
# Coalescing

Two free buddies should never stay apart. `page_free` finds a buddy by the order
in its page struct, and the split of `page_alloc` does not write the structs of
the upper halves; so the property holds as long as every listed buddy that a
`page_free` meets has an up-to-date struct, and fails otherwise.
-/

namespace BadgerOS.Pmm

open Dyadic Function Option List

/-- The block of order `k` that the address lies in. -/
def blockAt (b k : Nat) : Nat := b / 2 ^ (k + 12) * 2 ^ (k + 12)

/-- Its buddy. -/
def buddyAt (b k : Nat) : Nat := blockAt b k ^^^ 2 ^ (k + 12)

/-- No two buddies are both listed. -/
def Apart (L : Nat → List Nat) : Prop :=
  ∀ k < maxOrder, ∀ b ∈ L k, b ^^^ 2 ^ (k + 12) ∉ L k

/-- At every order that freeing the block reaches by merging listed buddies, a
listed buddy has that order in its struct. -/
def UpToDate (s : Pmm) (L : Nat → List Nat) (b o : Nat) : Prop :=
  ∀ k, o ≤ k → k < maxOrder → (∀ j, o ≤ j → j < k → buddyAt b j ∈ L j) →
    buddyAt b k ∈ L k → (s.pages (buddyAt b k / pageSize)).order = k

/-- Every listed block has its order in its struct. -/
def Accurate (s : Pmm) (L : Nat → List Nat) : Prop :=
  ∀ k < maxOrder, ∀ b ∈ L k, (s.pages (b / pageSize)).order = k

variable {s : Pmm} {L : Nat → List Nat} {b o k : Nat}

theorem Accurate.upToDate (h : Accurate s L) (b o : Nat) : UpToDate s L b o :=
  fun k _ hk _ hb => h k hk _ hb

theorem blockAt_self (h : 2 ^ (o + 12) ∣ b) : blockAt b o = b := Nat.div_mul_cancel h

theorem blockAt_parent (hk : o + 1 ≤ k) : blockAt (parent o b) k = blockAt b k := by
  obtain ⟨d, rfl⟩ := Nat.exists_eq_add_of_le hk
  have hp : 2 ^ (o + 1 + d + 12) = 2 ^ (o + 13) * 2 ^ d := by
    rw [← pow_add]
    congr 1
    omega
  unfold blockAt parent
  rw [hp, ← Nat.div_div_eq_div_mul, Nat.mul_div_cancel _ (Nat.two_pow_pos _),
    Nat.div_div_eq_div_mul]

variable {M : Nat → List Nat}

theorem Merges.sub {c q : Nat} (h : Merges L b o M c q) {x : Nat} (hx : x ∈ M k) : x ∈ L k := by
  induction h with
  | stop => exact hx
  | @merge L M b o c q _ _ _ ih =>
    have hm := ih hx
    by_cases hk : k = o
    · subst hk
      rw [update_self] at hm
      exact mem_of_mem_erase hm
    · rwa [update_of_ne hk] at hm

/-- The block that coalescing ends with, and the buddies on the way there. -/
theorem Merges.path {c q : Nat} (h : Merges L b o M c q) (block : 2 ^ (o + 12) ∣ b) :
    o ≤ q ∧ c = blockAt b q ∧ ∀ j, o ≤ j → j < q → buddyAt b j ∈ L j := by
  induction h with
  | stop => exact ⟨Nat.le_refl _, (blockAt_self block).symm, fun j hj hq => by omega⟩
  | @merge L M b o c q _ buddy _ ih =>
    obtain ⟨hle, hc, path⟩ := ih (parent_aligned o b)
    refine ⟨by omega, hc.trans (blockAt_parent hle), fun j hj hq => ?_⟩
    by_cases he : j = o
    · rw [he, buddyAt, blockAt_self block]
      exact buddy
    · have hm := path j (by omega) hq
      rwa [update_of_ne he, buddyAt, blockAt_parent (by omega)] at hm

variable {t : Pmm}

/-- The merged block has no listed buddy left. -/
theorem Frees.apart (hs : Sound s L) (hb : Freeable s L b o) (h : Frees s L b o t M)
    (apart : Apart L) (fresh : UpToDate s L b o) :
    Apart M := by
  obtain ⟨N, c, q, merges, hq, rfl, _, stop⟩ := h.merged
  obtain ⟨hle, hc, path⟩ := merges.path hb.block
  have alone : c ^^^ 2 ^ (q + 12) ∉ N q := by
    intro hm
    have hl := merges.sub hm
    have cov := cover_pos hq hl (covers_base (hs.aligned q hq _ hl))
    have buddy : buddyAt b q = c ^^^ 2 ^ (q + 12) := by rw [buddyAt, hc]
    have order := fresh q hle hq path (by rw [buddy]; exact hl)
    rw [buddy] at order
    exact stop ⟨hs.inRange _ cov, hs.freed _ cov, order⟩
  intro k hk x hx hy
  by_cases he : k = q
  · subst he
    rw [update_self, mem_cons] at hx hy
    obtain rfl | hx := hx
    · obtain hy | hy := hy
      · exact buddy_ne (hc ▸ ⟨_, Nat.mul_comm _ _⟩) hy
      · exact alone hy
    · obtain hy | hy := hy
      · rw [← hy, buddy_buddy] at alone
        exact alone hx
      · exact apart k hk x (merges.sub hx) (merges.sub hy)
  · rw [update_of_ne he] at hx hy
    exact apart k hk x (merges.sub hx) (merges.sub hy)

theorem Frees.accurate (h : Frees s L b o t M) (accurate : Accurate s L) : Accurate t M := by
  have hM := h.sound
  obtain ⟨N, c, q, merges, hq, rfl, pages, _⟩ := h.merged
  intro k hk x hx
  rw [pages]
  by_cases hc : Covers q c (x / pageSize)
  · have hl : c ∈ update N q (c :: N q) q := by
      rw [update_self]
      exact mem_cons_self
    obtain ⟨rfl, _⟩ :=
      eq_of_covers (hM.once _) hq hk hl hx hc (covers_base (hM.aligned k hk x hx))
    rw [if_pos hc]
  · rw [if_neg hc]
    have hx' : x ∈ N k := by
      by_cases he : k = q
      · subst he
        rw [update_self, mem_cons] at hx
        obtain rfl | hx := hx
        · exact absurd (covers_base (hM.aligned k hk x (by
            rw [update_self]; exact mem_cons_self))) hc
        · exact hx
      · rwa [update_of_ne he] at hx
    exact accurate k hk x (merges.sub hx')

theorem FreeRun.apart (h : FreeRun s L t M) (hs : Sound s L) (apart : Apart L)
    (accurate : Accurate s L) : Apart M ∧ Accurate t M := by
  induction h with
  | done => exact ⟨apart, accurate⟩
  | free freeable frees _ ih =>
    exact ih frees.sound (frees.apart hs freeable apart (accurate.upToDate _ _))
      (frees.accurate accurate)

/-- While a block is split, the only listed buddies are the block and its upper half. -/
theorem apart_splitLists {n : Nat} : ∀ {L : Nat → List Nat}, 2 ^ (o + n + 12) ∣ b →
    (∀ k, ∀ x ∈ L k, x ^^^ 2 ^ (k + 12) ∈ L k → k < maxOrder → x = b ∨
      x ^^^ 2 ^ (k + 12) = b) →
    ∀ k, ∀ x ∈ splitLists b o n L k, x ^^^ 2 ^ (k + 12) ∈ splitLists b o n L k →
      k < maxOrder → x = b ∨ x ^^^ 2 ^ (k + 12) = b := by
  induction n with
  | zero => exact fun _ h => h
  | succ n ih =>
    intro L block h
    refine ih (upper_aligned block).1 fun k x hx hy hk => ?_
    have upper : b + 2 ^ (o + n + 12) = b ^^^ 2 ^ (o + n + 12) := upper_eq_buddy block
    obtain hx | ⟨rfl, rfl | rfl⟩ := mem_halve hx
    · obtain hy | ⟨rfl, hy | hy⟩ := mem_halve hy
      · exact h k x hx hy hk
      · exact .inr hy
      · left
        rw [upper] at hy
        have := congrArg (· ^^^ 2 ^ (o + n + 12)) hy
        simpa only [buddy_buddy] using this
    · exact .inl rfl
    · right
      rw [upper, buddy_buddy]

theorem Allocs.apart {d : Nat} {usage : PageUsage} (hs : Sound s L) (h : Allocs s L o usage b d t M)
    (apart : Apart L) : Apart M := by
  -- The block taken is on no list afterwards, since its first page is covered by none.
  have gone : ∀ k < maxOrder, b ∉ M k := by
    intro k hk hm
    have hc := cover_pos hk hm (covers_base (h.sound.aligned k hk b hm))
    have he := h.cover_eq (b / pageSize)
    rw [if_pos (covers_base h.block)] at he
    have := hs.once (b / pageSize)
    omega
  have sub : ∀ k x, x ∈ M k → x ∈ splitLists b o d L k := by
    intro k x hx
    rw [h.lists] at hx
    by_cases hk : k = o
    · subst hk
      rw [update_self] at hx
      exact mem_of_mem_erase hx
    · rwa [update_of_ne hk] at hx
  intro k hk x hx hy
  have only := apart_splitLists (hs.aligned _ h.order b h.taken)
    (fun k x hx hy hk => absurd hy (apart k hk x hx)) k x (sub k x hx) (sub k _ hy) hk
  obtain rfl | he := only
  · exact gone k hk hx
  · rw [he] at hy
    exact gone k hk hy

/-- With no buddies apart, an aligned run of free pages lies in one listed block. -/
theorem exists_of_full (hs : Sound s L) (apart : Apart L) (hk : k < maxOrder) : ∀ {b : Nat},
    2 ^ (k + 12) ∣ b → (∀ p, Covers k b p → 0 < cover L p) →
    ∃ j, k ≤ j ∧ j < maxOrder ∧ ∃ c ∈ L j, Covers j c (b / pageSize) := by
  induction k with
  | zero =>
    intro b block full
    obtain ⟨j, hj, c, hc, hp⟩ := exists_of_cover (full _ (covers_base block))
    exact ⟨j, Nat.zero_le j, hj, c, hc, hp⟩
  | succ k ih =>
    intro b block full
    obtain ⟨lower, upper⟩ := upper_aligned block
    have halves := halves_weight block
    have inLower : ∀ p, Covers k b p → Covers (k + 1) b p := by
      intro p hp
      by_contra hn
      have := halves p
      rw [if_neg hn, if_pos hp] at this
      omega
    have inUpper : ∀ p, Covers k (b + 2 ^ (k + 12)) p → Covers (k + 1) b p := by
      intro p hp
      by_contra hn
      have := halves p
      rw [if_neg hn, if_pos hp] at this
      omega
    obtain ⟨i, hi, hi', c, hc, cov⟩ := ih (by omega) lower fun p hp => full p (inLower p hp)
    obtain ⟨j, hj, hj', e, he, cov'⟩ := ih (by omega) upper fun p hp => full p (inUpper p hp)
    by_cases hik : k + 1 ≤ i
    · exact ⟨i, hik, hi', c, hc, cov⟩
    obtain rfl : i = k := by omega
    have hcb : c = b := (base_of_covers (hs.aligned i hi' c hc) cov
      (by rw [page_of_aligned lower]; exact ⟨_, Nat.mul_comm _ _⟩)).symm.trans
        (Nat.div_mul_cancel (Nat.dvd_of_mod_eq_zero (page_aligned lower)))
    by_cases hjk : i + 1 ≤ j
    · -- A block around the upper half reaches over the lower half, which is listed itself.
      have across := (inUpper _ (covers_base upper)).nested cov' hjk (covers_base block)
      obtain ⟨rfl, _⟩ := eq_of_covers (hs.once _) hi' hj' hc he cov across
      omega
    · obtain rfl : j = i := by omega
      have heb := (base_of_covers (hs.aligned j hj' e he) cov'
        (by rw [page_of_aligned upper]; exact ⟨_, Nat.mul_comm _ _⟩)).symm.trans
          (Nat.div_mul_cancel (Nat.dvd_of_mod_eq_zero (page_aligned upper)))
      rw [heb, upper_eq_buddy block, ← hcb] at he
      exact absurd he (apart j hj' c hc)

/-- The calls that hand memory over. -/
def Marks : Call → Prop
  | .markFree _ _ => True
  | _ => False

/-- The calls after that, with every struct that a `page_free` relies on up to date. -/
def Trades (w : World) : Call → Prop
  | .markFree _ _ => False
  | .pageAlloc order _ => order < 31
  | .pageFree block order => UpToDate w.pmm w.pmm.freeBlocks block order
  | .write _ _ => True

variable {w : World}

theorem Reach.marked {rangeStart rangeEnd : Nat} (small : rangeEnd < 2 ^ 52)
    (h : Reach (fun _ c => Marks c) (World.init rangeStart rangeEnd) w) :
    ∃ L, Inv w L ∧ Apart L ∧ Accurate w.pmm L ∧ w.live = [] := by
  induction h with
  | start =>
    exact ⟨_, Inv.init small, fun _ _ _ hb => absurd hb not_mem_nil,
      fun _ _ _ hb => absurd hb not_mem_nil, rfl⟩
  | @call w w' c _ legal met run ih =>
    obtain ⟨L, inv, apart, accurate, live⟩ := ih
    cases c with
    | markFree start stop =>
      obtain ⟨t, M, run', frees, cover⟩ := markFree_spec inv.sound (inv.markable legal)
      obtain ⟨apart', accurate'⟩ := frees.apart inv.sound apart accurate
      rw [exec, run'] at run
      cases run
      exact ⟨M, inv.handed legal frees cover, apart', accurate', live⟩
    | pageAlloc order usage | pageFree block order | write links pages => exact absurd met id

theorem UpToDate.congr (h : UpToDate s L b o) (same : ∀ k < maxOrder, L k = M k) :
    UpToDate s M b o := by
  intro k ho hk path hb
  rw [← same k hk] at hb
  refine h k ho hk (fun j hj hjk => ?_) hb
  rw [same j (by omega)]
  exact path j hj hjk

theorem Reach.traded {w₀ : World} (h₀ : Inv w₀ L) (apart₀ : Apart L)
    (h : Reach Trades w₀ w) : w.marked = w₀.marked ∧ ∃ M, Inv w M ∧ Apart M := by
  induction h with
  | start => exact ⟨rfl, L, h₀, apart₀⟩
  | @call w w' c _ legal met run ih =>
    obtain ⟨marked, M, inv, apart⟩ := ih
    cases c with
    | markFree start stop => exact absurd met id
    | pageAlloc order usage =>
      obtain ⟨run', _⟩ | ⟨b, d, t, N, run', allocs⟩ := pageAlloc_spec inv.sound met legal.2
      · rw [exec, run'] at run
        cases run
        exact ⟨marked, M, inv, apart⟩
      · rw [exec, run'] at run
        cases run
        exact ⟨marked, N, inv.allocated legal.2 allocs, allocs.apart inv.sound apart⟩
    | pageFree block order =>
      have fresh := UpToDate.congr met fun k hk => inv.sound.threaded.freeBlocks_eq hk
      obtain ⟨t, N, run', frees⟩ := pageFree_spec inv.sound (inv.freeable legal)
      rw [exec, run'] at run
      cases run
      exact ⟨marked, N, inv.freed legal frees, frees.apart inv.sound (inv.freeable legal)
        apart fresh⟩
    | write links pages =>
      cases run
      exact ⟨marked, M, inv.written legal, apart⟩

theorem Apart.freeBlocks (apart : Apart L) (inv : Inv w L) : Apart w.pmm.freeBlocks := by
  intro k hk
  rw [inv.sound.threaded.freeBlocks_eq hk]
  exact apart k hk

/-- **Coalescing.** After memory has been handed over, calls that find every
struct they rely on up to date leave no two buddies apart. Once everything is
free again, every order that could be allocated at the start can be. -/
theorem buddies_coalesce {rangeStart rangeEnd : Nat} (small : rangeEnd < 2 ^ 52) {w₁ : World}
    (marks : Reach (fun _ c => Marks c) (World.init rangeStart rangeEnd) w₁)
    (trades : Reach Trades w₁ w) : Apart w.pmm.freeBlocks ∧
    (w.live = [] → ∀ order < maxOrder, ∀ usage, Allocatable usage →
      (∃ b t, w₁.pmm.pageAlloc order usage = some (.ok b, t)) →
      ∃ b t, w.pmm.pageAlloc order usage = some (.ok b, t)) := by
  obtain ⟨L, inv₁, apart₁, _, live₁⟩ := marks.marked small
  obtain ⟨marked, M, inv, apart⟩ := trades.traded inv₁ apart₁
  refine ⟨apart.freeBlocks inv, fun live order ho usage hu ok => ?_⟩
  obtain ⟨turns, k, hk, hm, hne⟩ := (pageAlloc_ok_iff inv₁.sound ho hu).mp ok
  obtain ⟨b, hb⟩ := exists_mem_of_ne_nil _ hne
  have block := inv₁.sound.aligned k hm b hb
  have full : ∀ p, Covers k b p → 0 < cover M p := by
    intro p hp
    have h₁ := cover_pos hm hb hp
    have hin := inv₁.mem_marked (p := p) (by omega)
    rw [← marked] at hin
    have := inv.once p hin
    rw [live] at this
    have : liveCover [] p = 0 := rfl
    omega
  obtain ⟨j, hj, hjm, c, hc, _⟩ := exists_of_full inv.sound apart hm block full
  exact (pageAlloc_ok_iff inv.sound ho hu).mpr ⟨turns, j, Nat.le_trans hk hj, hjm,
    ne_nil_of_mem hc⟩

/-- The two pages of a pair, allocated and freed one after the other: the
struct of the page freed first is up to date when its buddy comes back. -/
theorem buddies_coalesce_pair :
    ∃ w₁ w, Reach (fun _ c => Marks c) (World.init 0 2) w₁ ∧ Reach Trades w₁ w ∧
      w.live = [] ∧ Apart w.pmm.freeBlocks := by
  have run : (((World.init 0 2).pmm.markFree 0 (2 * pageSize)).bind fun s₁ =>
      (s₁.pageAlloc 0 .cache).bind fun r₂ => (r₂.2.pageAlloc 0 .cache).bind fun r₃ =>
        (r₃.2.pageFree 0 0).bind fun s₄ => (s₄.pageFree 4096 0).map fun _ =>
          ([r₂.1, r₃.1], [members maxOrder r₃.2.freeBlocks, members maxOrder s₄.freeBlocks],
            (s₄.pages 0).order)) =
      some ([.ok 0, .ok 4096], [[], [(0, 0)]], 0) := by decide +kernel
  obtain ⟨s₁, marked, run⟩ := bind_eq_some_iff.mp run
  obtain ⟨⟨_, s₂⟩, alloc, run⟩ := bind_eq_some_iff.mp run
  obtain ⟨⟨_, s₃⟩, alloc', run⟩ := bind_eq_some_iff.mp run
  obtain ⟨s₄, free, run⟩ := bind_eq_some_iff.mp run
  obtain ⟨s₅, free', run⟩ := map_eq_some_iff.mp run
  simp only [Prod.mk.injEq, List.cons.injEq, and_true] at run
  obtain ⟨⟨rfl, rfl⟩, ⟨none, one⟩, order⟩ := run
  have fresh : UpToDate s₃ s₃.freeBlocks 0 0 := by
    intro k _ hk _ hb
    have hm : (buddyAt 0 k, k) ∈ members maxOrder s₃.freeBlocks := mem_members.mpr ⟨hk, hb⟩
    rw [none] at hm
    cases hm
  have fresh' : UpToDate s₄ s₄.freeBlocks 4096 0 := by
    intro k _ hk _ hb
    have hm : (buddyAt 4096 k, k) ∈ members maxOrder s₄.freeBlocks :=
      mem_members.mpr ⟨hk, hb⟩
    rw [one, mem_singleton, Prod.mk.injEq] at hm
    obtain ⟨hz, rfl⟩ := hm
    rw [hz]
    exact order
  have h₁ :=
    (@Reach.start (fun _ c => Marks c) (World.init 0 2)).markFree (legal_init 2) trivial marked
  have h₂ := (@Reach.start Trades
    ⟨s₁, [], ∅ ∪ { p | 0 / pageSize ≤ p ∧ p < 2 * pageSize / pageSize }⟩).pageAlloc
    (by decide : 0 < maxOrder ∧ Allocatable .cache) (by decide : 0 < 31) alloc
  have h₃ :=
    h₂.pageAlloc (by decide : 0 < maxOrder ∧ Allocatable .cache) (by decide : 0 < 31) alloc'
  have h₄ := h₃.pageFree (mem_cons_of_mem _ mem_cons_self) fresh free
  have h₅ := h₄.pageFree mem_cons_self fresh' free'
  exact ⟨_, _, h₁, h₅, rfl, (buddies_coalesce (by decide) h₁ h₅).1⟩

/-- `page_alloc` fails only if no aligned run of its order is free. -/
theorem pageAlloc_fails {a z : Nat} (small : z < 2 ^ 52)
    (marks : Reach (fun _ c => Marks c) (World.init a z) w₁) (trades : Reach Trades w₁ w)
    (ho : o < maxOrder) {usage : PageUsage} (hu : Allocatable usage)
    (failed : w.pmm.pageAlloc o usage = some (.error .allocError, t)) (block : 2 ^ (o + 12) ∣ b) :
    ∃ p, Covers o b p ∧ (p ∈ w.marked → 0 < liveCover w.live p) := by
  obtain ⟨L, inv₁, apart₁, _⟩ := marks.marked small
  obtain ⟨-, M, inv, apart⟩ := trades.traded inv₁ apart₁
  by_contra! free
  obtain ⟨j, hj, hm, c, hc, -⟩ := exists_of_full inv.sound apart ho block fun p hp => by
    have := inv.once p (free p hp).1
    have := (free p hp).2
    omega
  simp [(pageAlloc_error_iff inv.sound ho hu).mp ⟨t, failed⟩ j hj hm] at hc

/-- Both pages of a pair are allocated and one of them is freed again: a pair cannot be had. -/
theorem pageAlloc_fails_pair :
    ∃ w₁ w t, Reach (fun _ c => Marks c) (World.init 0 2) w₁ ∧ Reach Trades w₁ w ∧
      w.live = [⟨4096, 0⟩] ∧ 0 ∈ w.pmm.freeBlocks 0 ∧
      w.pmm.pageAlloc 1 .cache = some (.error .allocError, t) ∧
      ∃ p, Covers 1 0 p ∧ (p ∈ w.marked → 0 < liveCover w.live p) := by
  have run : (((World.init 0 2).pmm.markFree 0 (2 * pageSize)).bind fun s₁ =>
      (s₁.pageAlloc 0 .cache).bind fun r₂ => (r₂.2.pageAlloc 0 .cache).bind fun r₃ =>
        (r₃.2.pageFree 0 0).bind fun s₄ => (s₄.pageAlloc 1 .cache).map fun r₅ =>
          ([r₂.1, r₃.1, r₅.1], members maxOrder r₃.2.freeBlocks, s₄.freeBlocks 0)) =
      some ([.ok 0, .ok 4096, .error .allocError], [], [0]) := by decide +kernel
  obtain ⟨s₁, marked, run⟩ := bind_eq_some_iff.mp run
  obtain ⟨⟨_, s₂⟩, alloc, run⟩ := bind_eq_some_iff.mp run
  obtain ⟨⟨_, s₃⟩, alloc', run⟩ := bind_eq_some_iff.mp run
  obtain ⟨s₄, free, run⟩ := bind_eq_some_iff.mp run
  obtain ⟨⟨_, s₅⟩, failed, run⟩ := map_eq_some_iff.mp run
  simp only [Prod.mk.injEq, List.cons.injEq, and_true] at run
  obtain ⟨⟨rfl, rfl, rfl⟩, none, one⟩ := run
  have fresh : UpToDate s₃ s₃.freeBlocks 0 0 := by
    intro k _ hk _ hb
    have hm : (buddyAt 0 k, k) ∈ members maxOrder s₃.freeBlocks := mem_members.mpr ⟨hk, hb⟩
    rw [none] at hm
    cases hm
  have h₁ :=
    (@Reach.start (fun _ c => Marks c) (World.init 0 2)).markFree (legal_init 2) trivial marked
  have h₂ := (@Reach.start Trades ⟨s₁, [],
    ∅ ∪ { p | 0 / pageSize ≤ p ∧ p < 2 * pageSize / pageSize }⟩).pageAlloc
    (by decide : 0 < maxOrder ∧ Allocatable .cache) (by decide : 0 < 31) alloc
  have h₃ :=
    h₂.pageAlloc (by decide : 0 < maxOrder ∧ Allocatable .cache) (by decide : 0 < 31) alloc'
  have h₄ := h₃.pageFree (mem_cons_of_mem _ mem_cons_self) fresh free
  refine ⟨_, _, _, h₁, h₄, rfl, ?_, failed, ?_⟩
  · simp [one]
  · exact pageAlloc_fails (by decide) h₁ h₄ (by decide) (by decide) failed (by decide)

/-- A page allocated from a pair and freed again stays apart from its buddy,
whose struct still has the order of the pair. -/
theorem not_buddies_coalesce : ∃ w₁ w, Reach (fun _ c => Marks c) (World.init 0 2) w₁ ∧
      Reach (fun _ c => ¬ Marks c) w₁ w ∧ w.live = [] ∧
      0 ∈ w.pmm.freeBlocks 0 ∧ 0 ^^^ 2 ^ (0 + 12) ∈ w.pmm.freeBlocks 0 ∧
      (∃ b t, w₁.pmm.pageAlloc 1 .kernelAnon = some (.ok b, t)) ∧
      ∃ t, w.pmm.pageAlloc 1 .kernelAnon = some (.error .allocError, t) := by
  have run : (((World.init 0 2).pmm.markFree 0 (2 * pageSize)).bind fun s =>
      (s.pageAlloc 0 .kernelAnon).bind fun r => (r.2.pageFree 0 0).map fun u =>
        (r.1, u.freeBlocks 0, (s.pageAlloc 1 .kernelAnon).map (·.1),
          (u.pageAlloc 1 .kernelAnon).map (·.1))) =
      some (.ok 0, [0, 4096], some (.ok 0), some (.error .allocError)) := by decide +kernel
  obtain ⟨s, marked, run⟩ := bind_eq_some_iff.mp run
  obtain ⟨⟨r, t⟩, alloc, run⟩ := bind_eq_some_iff.mp run
  obtain ⟨u, free, run⟩ := map_eq_some_iff.mp run
  simp only [Prod.mk.injEq, map_eq_some_iff] at run
  obtain ⟨rfl, blocks, ⟨⟨_, t₁⟩, before, rfl⟩, ⟨⟨_, t₂⟩, after, rfl⟩⟩ := run
  have h₁ :=
    (@Reach.start (fun _ c => Marks c) (World.init 0 2)).markFree (legal_init 2) trivial marked
  have h₂ := (@Reach.start (fun _ c => ¬ Marks c) ⟨s, [],
    ∅ ∪ { p | 0 / pageSize ≤ p ∧ p < 2 * pageSize / pageSize }⟩).pageAlloc
    (by decide : 0 < maxOrder ∧ Allocatable .kernelAnon) id alloc
  have h₃ := h₂.pageFree mem_cons_self id free
  refine ⟨_, _, h₁, h₃, rfl, ?_, ?_, ⟨0, t₁, before⟩, ⟨t₂, after⟩⟩
  · simp [blocks]
  · simp [blocks]

end BadgerOS.Pmm
