import BadgerOS.Pmm.MarkFree

/-!
# Runs of the allocator

The allocator together with what its callers know: the blocks they hold and
the pages handed over so far. A caller may write to the memory of a block it
holds, which is where the links of the block were while it was free, and to the
public fields of its page structs.
-/

namespace BadgerOS.Pmm

open Dyadic LinkedMemory List

structure World where
  pmm : Pmm
  live : List (Nat × Nat)
  marked : Set Nat

/-- Every page is unusable and every list is empty. -/
def World.init (rangeStart rangeEnd : Nat) : World := ⟨Pmm.empty rangeStart rangeEnd, [], ∅⟩

/-- The page `p` lies in the block, given by its address and order. -/
abbrev InBlock (x : Nat × Nat) (p : Nat) : Prop :=
  x.1 / pageSize ≤ p ∧ p < x.1 / pageSize + 2 ^ x.2

inductive Call where
  | markFree (start stop : Nat)
  | pageAlloc (order : Nat) (usage : PageUsage)
  | pageFree (block order : Nat)
  | write (links : Nat → Link Nat) (pages : Nat → Page)

/-- The calls that the callers may make. -/
def Legal (w : World) : Call → Prop
  | .markFree start stop => start % pageSize = 0 ∧ stop % pageSize = 0 ∧
      ∀ p, start / pageSize ≤ p → p < stop / pageSize → w.pmm.InRange p ∧ p ∉ w.marked
  | .pageAlloc order usage => order < maxOrder ∧ Allocatable usage
  | .pageFree block order => (block, order) ∈ w.live
  | .write links pages =>
      (∀ a, (∀ x ∈ w.live, ¬ InBlock x (a / pageSize)) → links a = w.pmm.links a) ∧
      (∀ p, (∀ x ∈ w.live, ¬ InBlock x p) → pages p = w.pmm.pages p) ∧
      ∀ p, (pages p).usage = (w.pmm.pages p).usage ∧ (pages p).order = (w.pmm.pages p).order

/-- A call as the code runs it; `none` is a panic. -/
def exec (w : World) : Call → Option World
  | .markFree start stop => (w.pmm.markFree start stop).map fun t =>
      { w with pmm := t, marked := w.marked ∪ { p | start / pageSize ≤ p ∧
        p < stop / pageSize } }
  | .pageAlloc order usage => (w.pmm.pageAlloc order usage).map fun (r, t) =>
      match r with
      | .ok block => { w with pmm := t, live := (block, order) :: w.live }
      | .error _ => { w with pmm := t }
  | .pageFree block order => (w.pmm.pageFree block order).map fun t =>
      { w with pmm := t, live := w.live.erase (block, order) }
  | .write links pages => some { w with pmm := { w.pmm with links := links, pages := pages } }

/-- The worlds reached from `w₀` by legal calls that meet a condition. -/
inductive Reach (cond : World → Call → Prop) (w₀ : World) : World → Prop
  | start : Reach cond w₀ w₀
  | call {w w' : World} {c : Call} (before : Reach cond w₀ w) (legal : Legal w c) (met : cond w c)
      (run : exec w c = some w') : Reach cond w₀ w'

/-- The whole of a new range may be handed over. -/
theorem legal_init (rangeEnd : Nat) : Legal (World.init 0 rangeEnd)
    (.markFree 0 (rangeEnd * pageSize)) := by
  refine ⟨rfl, Nat.mul_mod_left _ _, fun p _ hp => ⟨⟨Nat.zero_le p, ?_⟩, id⟩⟩
  rwa [Nat.mul_div_cancel _ (by decide)] at hp

variable {cond : World → Call → Prop} {w₀ : World} {t : Pmm}

variable {w : World} {start stop order block p : Nat} {usage : PageUsage} {live : List (Nat × Nat)}
  {x : Nat × Nat} {L : Nat → List Nat}

theorem Reach.markFree (h : Reach cond w₀ w) (legal : Legal w (.markFree start stop))
    (met : cond w (.markFree start stop)) (run : w.pmm.markFree start stop = some t) :
    Reach cond w₀ { w with
      pmm := t, marked := w.marked ∪ { p | start / pageSize ≤ p ∧ p < stop / pageSize } } :=
  h.call legal met (by rw [exec, run]; rfl)

theorem Reach.pageAlloc (h : Reach cond w₀ w)
    (legal : Legal w (.pageAlloc order usage)) (met : cond w (.pageAlloc order usage))
    (run : w.pmm.pageAlloc order usage = some (.ok block, t)) :
    Reach cond w₀ { w with pmm := t, live := (block, order) :: w.live } :=
  h.call legal met (by rw [exec, run]; rfl)

theorem Reach.pageFree (h : Reach cond w₀ w) (legal : Legal w (.pageFree block order))
    (met : cond w (.pageFree block order)) (run : w.pmm.pageFree block order = some t) :
    Reach cond w₀ { w with pmm := t, live := w.live.erase (block, order) } :=
  h.call legal met (by rw [exec, run]; rfl)

/-- How many live blocks cover page `p`. -/
def liveCover (live : List (Nat × Nat)) (p : Nat) : Nat :=
  (live.map fun x => if Covers x.2 x.1 p then 1 else 0).sum

structure Inv (w : World) (L : Nat → List Nat) : Prop where
  sound : Sound w.pmm L
  aligned : ∀ x ∈ w.live, 2 ^ (x.2 + 12) ∣ x.1
  inRange : ∀ p ∈ w.marked, w.pmm.InRange p
  once : ∀ p ∈ w.marked, cover L p + liveCover w.live p = 1
  never : ∀ p, p ∉ w.marked → cover L p + liveCover w.live p = 0
  unusable : ∀ p, p ∉ w.marked → (w.pmm.pages p).usage = .unusable
  structs : ∀ x ∈ w.live, ∀ p, Covers x.2 x.1 p → (w.pmm.pages p).order = x.2 ∧
    Allocatable (w.pmm.pages p).usage

theorem liveCover_erase (h : x ∈ live) (p : Nat) :
    liveCover live p = (if Covers x.2 x.1 p then 1 else 0) + liveCover (live.erase x) p := by
  unfold liveCover
  rw [((perm_cons_erase h).map _).sum_eq, map_cons, sum_cons]

theorem liveCover_pos (h : x ∈ live) (hp : Covers x.2 x.1 p) : 0 < liveCover live p := by
  rw [liveCover_erase h, if_pos hp]
  omega

namespace Inv

variable {b o : Nat}

section

variable (h : Inv w L)
include h

theorem cover_le (p : Nat) : cover L p + liveCover w.live p ≤ 1 := by
  by_cases hp : p ∈ w.marked
  · rw [h.once p hp]
  · rw [h.never p hp]
    omega

theorem mem_marked (hp : 0 < cover L p + liveCover w.live p) : p ∈ w.marked := by
  by_contra hn
  rw [h.never p hn] at hp
  omega

theorem freeable (hb : (b, o) ∈ w.live) : Freeable w.pmm L b o := by
  have block := h.aligned (b, o) hb
  have hlive : ∀ p, Covers o b p → 0 < liveCover w.live p := fun p hp => liveCover_pos hb hp
  obtain ⟨_, hf, _, hk⟩ := h.structs (b, o) hb (b / pageSize) (covers_base block)
  refine ⟨block, ?_, ?_, hf, hk⟩
  · intro p hp
    have := hlive p hp
    exact h.inRange p (h.mem_marked (by omega))
  · intro p hp
    have := hlive p hp
    have := h.cover_le p
    omega

theorem markable (legal : Legal w (.markFree start stop)) : Markable w.pmm L start stop := by
  obtain ⟨ha, hz, hp⟩ := legal
  refine ⟨ha, hz, fun p h1 h2 => (hp p h1 h2).1, ?_, ?_⟩
  · intro p h1 h2
    have := h.never p (hp p h1 h2).2
    omega
  · exact fun p h1 h2 => h.unusable p (hp p h1 h2).2

variable {M : Nat → List Nat}

/-- The world after an allocation. -/
theorem allocated {d : Nat} (hu : Allocatable usage) (ha : Allocs w.pmm L o usage b d t M) :
    Inv { w with pmm := t, live := (b, o) :: w.live } M := by
  have cover : ∀ p, Pmm.cover M p + liveCover ((b, o) :: w.live) p = Pmm.cover L p + liveCover
      w.live p := by
    intro p
    rw [ha.cover_eq p]
    simp only [liveCover, map_cons, sum_cons]
    omega
  have taken : ∀ p, Covers o b p → 0 < Pmm.cover L p := by
    intro p hp
    rw [ha.cover_eq p, if_pos hp]
    omega
  refine ⟨ha.sound, ?_, ?_, ?_, ?_, ?_, ?_⟩
  · intro x hx
    obtain rfl | hx := mem_cons.mp hx
    · exact ha.block
    · exact h.aligned x hx
  · intro p hp
    rw [InRange, ha.rangeStart, ha.rangeEnd]
    exact h.inRange p hp
  · exact fun p hp => (cover p).trans (h.once p hp)
  · exact fun p hp => (cover p).trans (h.never p hp)
  · intro p hp
    rw [ha.pages p, if_neg]
    · exact h.unusable p hp
    · intro hc
      have := taken p hc
      have := h.never p hp
      omega
  · intro x hx p hp
    rw [ha.pages p]
    obtain rfl | hx := mem_cons.mp hx
    · rw [if_pos hp]
      exact ⟨rfl, hu⟩
    · rw [if_neg]
      · exact h.structs x hx p hp
      · intro hc
        have := taken p hc
        have := liveCover_pos hx hp
        have := h.cover_le p
        omega

/-- The world after a live block has been freed. -/
theorem freed (hb : (b, o) ∈ w.live)
    (hf : Frees w.pmm L b o t M) : Inv { w with pmm := t, live := w.live.erase (b, o) } M := by
  have cover : ∀ p, Pmm.cover M p + liveCover (w.live.erase (b, o)) p = Pmm.cover L p + liveCover
      w.live p := by
    intro p
    have erase := liveCover_erase hb p
    simp only at erase
    rw [hf.cover_eq p, erase]
    omega
  refine ⟨hf.sound, fun x hx => h.aligned x (mem_of_mem_erase hx), ?_, ?_, ?_, ?_, ?_⟩
  · intro p hp
    rw [InRange, hf.rangeStart, hf.rangeEnd]
    exact h.inRange p hp
  · exact fun p hp => (cover p).trans (h.once p hp)
  · exact fun p hp => (cover p).trans (h.never p hp)
  · intro p hp
    rw [hf.pages_eq]
    · exact h.unusable p hp
    · have := cover p
      have := h.never p hp
      omega
  · intro x hx p hp
    rw [hf.pages_eq]
    · exact h.structs x (mem_of_mem_erase hx) p hp
    · have := cover p
      have := h.cover_le p
      have : 0 < liveCover (w.live.erase (b, o)) p := liveCover_pos hx hp
      omega

/-- The world after a range has been handed over. -/
theorem handed (legal : Legal w (.markFree start stop)) (hr : FreeRun w.pmm L t M)
    (hc : ∀ p, cover M p = cover L p + if start / pageSize ≤ p ∧ p < stop / pageSize then 1
    else 0) : Inv { w with
      pmm := t, marked :=
        w.marked ∪ { p | start / pageSize ≤ p ∧ p < stop / pageSize } } M := by
  obtain ⟨_, _, hp⟩ := legal
  refine ⟨hr.sound h.sound, h.aligned, ?_, ?_, ?_, ?_, ?_⟩
  · intro p hm
    rw [InRange, hr.range.1, hr.range.2]
    obtain hm | hm := hm
    · exact h.inRange p hm
    · exact (hp p hm.1 hm.2).1
  · intro p hm
    rw [hc p]
    by_cases hin : start / pageSize ≤ p ∧ p < stop / pageSize
    · have := h.never p (hp p hin.1 hin.2).2
      rw [if_pos hin]
      show cover L p + 1 + liveCover w.live p = 1
      omega
    · rw [if_neg hin, Nat.add_zero]
      exact h.once p (hm.resolve_right hin)
  · intro p hm
    have hout : ¬ (start / pageSize ≤ p ∧ p < stop / pageSize) := fun hin => hm (.inr hin)
    rw [hc p, if_neg hout, Nat.add_zero]
    exact h.never p fun hin => hm (.inl hin)
  · intro p hm
    have hout : ¬ (start / pageSize ≤ p ∧ p < stop / pageSize) := fun hin => hm (.inr hin)
    rw [hr.pages_eq]
    · exact h.unusable p fun hin => hm (.inl hin)
    · have := h.never p fun hin => hm (.inl hin)
      rw [hc p, if_neg hout]
      omega
  · intro x hx p hcov
    rw [hr.pages_eq]
    · exact h.structs x hx p hcov
    · have hl : 0 < liveCover w.live p := liveCover_pos hx hcov
      have := h.cover_le p
      have hm := h.mem_marked (p := p) (by omega)
      rw [hc p, if_neg fun hin => (hp p hin.1 hin.2).2 hm]
      omega

/-- The world after the callers have written to the blocks they hold. -/
theorem written {links : Nat → Link Nat} {pages : Nat → Page} (legal : Legal w (.write links
    pages)) : Inv { w with pmm := { w.pmm with links := links, pages := pages } } L := by
  obtain ⟨hl, _, hp⟩ := legal
  have ht := h.sound.threaded
  have off : ∀ k < maxOrder, ∀ b ∈ L k, links b = w.pmm.links b := by
    intro k hk b hb
    apply hl
    intro x hx hin
    have hc := cover_pos hk hb (covers_base (h.sound.aligned k hk b hb))
    have := liveCover_pos hx ((covers_iff (h.aligned x hx)).mpr hin)
    have := h.cover_le (b / pageSize)
    omega
  have usage := fun p => (hp p).1
  have order := fun p => (hp p).2
  refine ⟨⟨h.sound.small, ⟨?_, ht.aligned, ht.inRange, ht.nodup, ht.apart⟩, h.sound.aligned,
    h.sound.once, h.sound.inRange, ?_, ?_, h.sound.counted⟩, h.aligned, h.inRange,
      h.once, h.never,
    ?_, ?_⟩
  · exact fun k hk => (ht.chain k hk).frame (off k hk)
  · exact fun p hc => (usage p).trans (h.sound.freed p hc)
  · intro p hf hd
    rw [usage p] at hf
    rw [order p] at hd ⊢
    exact h.sound.listed p hf hd
  · exact fun p hm => (usage p).trans (h.unusable p hm)
  · intro x hx p hc
    rw [order p, usage p]
    exact h.structs x hx p hc

end

end Inv

/-- A call allocates less than 2³¹ pages, if it allocates at all. -/
def Small : Call → Prop
  | .pageAlloc order _ => order < 31
  | _ => True

/-- **Step lemma.** A legal call does not panic and keeps the invariant. -/
theorem Inv.step (h : Inv w L) {c : Call} (legal : Legal w c)
    (small : Small c) : ∃ w' M, exec w c = some w' ∧ Inv w' M := by
  cases c with
  | markFree start stop =>
    obtain ⟨t, M, run, frees, cover⟩ := markFree_spec h.sound (h.markable legal)
    exact ⟨_, M, by rw [exec, run]; rfl, h.handed legal frees cover⟩
  | pageAlloc order usage =>
    obtain ⟨run, _⟩ | ⟨b, d, t, M, run, allocs⟩ := pageAlloc_spec h.sound small legal.2
    · exact ⟨w, L, by rw [exec, run]; rfl, h⟩
    · exact ⟨_, M, by rw [exec, run]; rfl, h.allocated legal.2 allocs⟩
  | pageFree block order =>
    obtain ⟨t, M, run, frees⟩ := pageFree_spec h.sound (h.freeable legal)
    exact ⟨_, M, by rw [exec, run]; rfl, h.freed legal frees⟩
  | write links pages => exact ⟨_, L, rfl, h.written legal⟩

theorem Inv.init {rangeStart rangeEnd : Nat} (small : rangeEnd < 2 ^ 52) :
    Inv (World.init rangeStart rangeEnd) fun _ => [] := by
  have none : ∀ p, cover (fun _ => []) p = 0 := fun p => by simp [cover, tally]
  have pages : ∀ p, ((World.init rangeStart rangeEnd).pmm.pages p).usage = .unusable :=
    fun _ => rfl
  refine ⟨⟨small, ⟨fun _ _ => rfl, ?_, ?_, fun _ _ => nodup_nil, ?_⟩, ?_, ?_, ?_, ?_, ?_,
    ?_⟩, ?_, ?_, ?_, ?_, fun p _ => pages p, ?_⟩
  any_goals intros; simp_all
  · simp [World.init, Pmm.empty, total, tally]
  all_goals simp_all [World.init, liveCover]

/-- **Run lemma.** Every world reached by small calls meets the invariant. -/
theorem Reach.inv (small : ∀ w c, cond w c → Small c) (h₀ : Inv w₀ L)
    (h : Reach cond w₀ w) : ∃ M, Inv w M := by
  induction h with
  | start => exact ⟨L, h₀⟩
  | call _ legal met run ih =>
    obtain ⟨M, hM⟩ := ih
    obtain ⟨w', N, run', hN⟩ := hM.step legal (small _ _ met)
    rw [run] at run'
    cases run'
    exact ⟨N, hN⟩

end BadgerOS.Pmm
