import BadgerOS.Pmm.Runs

/-!
# The first free pages

`init` of `mem/pmm/mod.rs`. Where it means pages it has bytes, so there are 4096 times as
many pages for the page structs as needed.
-/

namespace BadgerOS.Pmm

open Option

/-- `size_of::<Page>()`. -/
abbrev pageStructSize : Nat := 32

def divCeil (a b : Nat) : Nat := (a + b - 1) / b

/-- `TOTAL_PAGES` and the allocator; `None` for a panic. -/
def init (total early : Nat × Nat) : Option (Nat × Pmm) := do
  debugAssert (total.1 % pageSize = 0)
  debugAssert (total.2 % pageSize = 0)
  debugAssert (early.1 % pageSize = 0)
  debugAssert (early.2 % pageSize = 0)
  let totalPages ← usizeSub total.2 total.1
  let bytes ← usizeMul pageStructSize (total.2 - total.1)
  let metaPages := divCeil bytes pageSize
  let available ← usizeSub early.2 early.1
  let least ← usizeAdd metaPages 64
  -- `panic!("Insufficient memory")`
  debugAssert (least ≤ available)
  let offset ← usizeMul metaPages pageSize
  let start ← usizeAdd early.1 offset
  let s ← markFree start early.2 (empty (total.1 / pageSize) (total.2 / pageSize))
  return (totalPages, s)

def pagesIn (range : Nat × Nat) : Nat := (range.2 - range.1) / pageSize

/-- The pages that the page structs need. -/
def structPages (total : Nat × Nat) : Nat := divCeil (pagesIn total * pageStructSize) pageSize

def TooSmall (total early : Nat × Nat) : Prop := pagesIn early < structPages total + 64

/-- A page of a free block. -/
def IsFree (s : Pmm) (p : Nat) : Prop := ∃ k < maxOrder, ∃ b ∈ s.freeBlocks k, Covers k b p

/-- What `init` is for. -/
def InitExact (total early : Nat × Nat) : Prop :=
  match init total early with
  | some (totalPages, s) => totalPages = pagesIn total ∧
    ∀ p, IsFree s p ↔ early.1 / pageSize + structPages total ≤ p ∧ p < early.2 / pageSize
  | none => TooSmall total early

/-- The range is one block, whose first page is the only one there is. -/
def OneBlock (total : Nat × Nat) (start stop : Nat) : Prop :=
  start = total.1 ∧ total.1 < total.2 ∧ ∃ o, maxFreeOrder start stop = some o ∧
    start + 2 ^ (o + 12) = stop

/-- The first page that is marked free, when each byte of `total` gets a page struct. -/
def firstFree (total early : Nat × Nat) : Nat := early.1 + 32 * (total.2 - total.1)

/-- The checks of `init`. -/
def Refuses (total early : Nat × Nat) : Prop :=
  total.2 < total.1 ∨ usizeSize ≤ 32 * (total.2 - total.1) ∨ early.2 < early.1 ∨
    early.2 - early.1 < 32 * pagesIn total + 64 ∨ usizeSize ≤ firstFree total early ∨
    (firstFree total early < early.2 ∧ ¬ OneBlock total (firstFree total early) early.2)

theorem markFreeLoop_outside {n start stop : Nat} {s : Pmm} (some : start < stop)
    (outside : ¬ s.InRange (start / pageSize)) : markFreeLoop n start stop s = none := by
  have missing : s.pageStruct start = none := by
    simp [pageStruct, debugAssert, outside]
  cases n <;> simp [markFreeLoop, some, pageFree, missing]

/-- The first block, in a range of one page. -/
theorem pageFree_single {b o : Nat} {s : Pmm}
    (only : s.rangeStart = b / pageSize ∧ s.rangeEnd = b / pageSize + 1)
    (threaded : Threaded s fun _ => []) (new : (s.pages (b / pageSize)).usage = .unusable)
    (ho : o ≤ 51) (block : 2 ^ (o + 12) ∣ b) :
    ∃ t, pageFree b o s = some t ∧ t.rangeStart = b / pageSize ∧
      t.rangeEnd = b / pageSize + 1 := by
  have aligned := page_aligned block
  have here : s.InRange (b / pageSize) := by omega
  have divides : 2 ^ (o + 12) ≠ 0 ∧ b % 2 ^ (o + 12) = 0 :=
    ⟨(Nat.two_pow_pos _).ne', Nat.mod_eq_zero_of_dvd block⟩
  have apart : ¬ s.InRange ((b ^^^ 2 ^ (o + 12)) / pageSize) := by
    have other := page_aligned (buddy_aligned block)
    have ne := buddy_ne block
    simp only [pageSize] at *
    omega
  have alone : coalesce (maxOrder - o) b o s = some (b, o, s) := by
    obtain ⟨n, eq⟩ : ∃ n, maxOrder - o = n + 1 :=
      ⟨maxOrder - o - 1, by simp only [maxOrder]; omega⟩
    rw [eq, coalesce, if_pos (by simp only [maxOrder]; omega), tryCoalesce, usizeShl_page ho]
    simp only [bind_eq_bind, bind_some, if_pos apart, pure, Bool.false_eq_true, if_false]
  have linked := @freeListLink_eq (s.writePages (b / pageSize) (2 ^ o) fun p =>
    { p with usage := .free, order := o })
    b _ o ⟨threaded.chain, threaded.aligned, threaded.inRange, threaded.nodup, threaded.apart⟩
    (by simp only [maxOrder]; omega) (by simp) aligned here
  simp only [pageFree, usizeShl_page ho, debugAssert_of divides, pageStruct_eq aligned here, new,
    accountFree, alone, linked, bind_eq_bind, bind_some, pure]
  exact ⟨_, rfl, only⟩

theorem markFree_small {start stop : Nat} {total : Nat × Nat} (first : start % pageSize = 0)
    (last : stop % pageSize = 0) (low : total.1 % pageSize = 0)
    (high : start < stop → total.2 = total.1 ∨ total.2 = total.1 + pageSize)
    (small : total.2 / pageSize < 2 ^ 52) (fits : stop < usizeSize) :
    markFree start stop (empty (total.1 / pageSize) (total.2 / pageSize)) = none ↔
      start < stop ∧ ¬ OneBlock total start stop := by
  simp only [markFree, debugAssert_of first, debugAssert_of last, bind_eq_bind, bind_some]
  by_cases some : start < stop
  · have high := high some
    obtain ⟨o, order, block, inside⟩ := maxFreeOrder_spec first last some
    obtain ⟨n, fuel⟩ : ∃ n, (stop - start) / pageSize = n + 1 := by
      refine ⟨(stop - start) / pageSize - 1, ?_⟩
      simp only [pageSize] at *
      omega
    have ho : o ≤ 51 := by
      by_contra large
      have : 2 ^ 64 ≤ 2 ^ (o + 12) := Nat.pow_le_pow_right (by decide) (by omega)
      simp only [usizeSize] at fits
      omega
    have one : OneBlock total start stop ↔ start = total.1 ∧ total.1 < total.2 ∧
        start + 2 ^ (o + 12) = stop := by
      simp [OneBlock, order]
    rw [fuel, one]
    by_cases here : start = total.1 ∧ total.1 < total.2
    · obtain ⟨rfl, room⟩ := here
      have page : total.2 / pageSize = total.1 / pageSize + 1 := by
        simp only [pageSize] at *
        omega
      have threaded : (empty (total.1 / pageSize) (total.2 / pageSize)).Threaded fun _ => [] :=
        (Inv.init small).sound.threaded
      obtain ⟨t, run, low, high⟩ := pageFree_single ⟨rfl, page⟩ threaded rfl ho block
      rw [markFreeLoop, if_pos some, order]
      simp only [bind_eq_bind, bind_some, usizeShl_page ho, run, some, room, true_and]
      rcases Nat.eq_or_lt_of_le inside with whole | more
      · cases n <;> simp [markFreeLoop, whole]
      · rw [markFreeLoop_outside more]
        · simp [Nat.ne_of_lt more]
        · have := Nat.two_pow_pos o
          unfold InRange
          rw [low, high, two_pow_add]
          simp only [pageSize] at *
          omega
    · rw [markFreeLoop_outside some]
      · simp only [some, true_and, true_iff]
        exact fun h => here ⟨h.1, h.2.1⟩
      · rintro ⟨above, below⟩
        apply here
        simp only [empty, pageSize] at *
        omega
  · have empty_range : (stop - start) / pageSize = 0 := by
      rw [Nat.sub_eq_zero_of_le (Nat.not_lt.mp some), Nat.zero_div]
    rw [empty_range, markFreeLoop, if_neg some]
    simp [some]

theorem usizeMul_eq_some {a b c : Nat} : usizeMul a b = some c ↔ a * b < usizeSize ∧
    a * b = c := by
  unfold usizeMul
  split <;> simp_all

section

variable {total early : Nat × Nat} (a₁ : total.1 % pageSize = 0) (a₂ : total.2 % pageSize = 0)
  (a₃ : early.1 % pageSize = 0) (a₄ : early.2 % pageSize = 0)
include a₁ a₂ a₃ a₄

theorem init_eq_some {n : Nat} {s : Pmm} : init total early = some (n, s) ↔ total.2 - total.1 =
    n ∧ (total.1 ≤ total.2 ∧ 32 * (total.2 - total.1) < usizeSize ∧ early.1 ≤ early.2 ∧
      32 * pagesIn total + 64 ≤ early.2 - early.1 ∧ firstFree total early < usizeSize) ∧
    markFree (firstFree total early) early.2 (empty (total.1 / pageSize) (total.2 / pageSize)) =
      some s := by
  have structs : divCeil (32 * (total.2 - total.1)) pageSize = 32 * pagesIn total := by
    unfold divCeil pagesIn
    simp only [pageSize] at *
    omega
  have first : 32 * pagesIn total * pageSize = 32 * (total.2 - total.1) := by
    unfold pagesIn
    simp only [pageSize] at *
    omega
  simp only [init, debugAssert_of a₁, debugAssert_of a₂, debugAssert_of a₃,
    debugAssert_of a₄, bind_eq_bind, bind_some,
    bind_eq_some_iff, usizeSub_eq_some, usizeMul_eq_some, usizeAdd_eq_some, debugAssert_eq_some,
      pure, firstFree,
    and_assoc, exists_and_left, exists_eq_left', structs, first, exists_const, some.injEq,
      Prod.mk.injEq, pageStructSize]
  constructor
  · rintro ⟨c₁, c₂, c₃, -, c₄, -, c₅, t, marked, rfl, rfl⟩
    exact ⟨rfl, c₁, c₂, c₃, c₄, c₅, marked⟩
  · rintro ⟨rfl, c₁, c₂, c₃, c₄, c₅, marked⟩
    refine ⟨c₁, c₂, c₃, ?_, c₄, c₂, c₅, s, marked, rfl, rfl⟩
    simp only [pageSize, usizeSize] at *
    omega

/-- With fewer than 64 pages beyond the page structs, `total` has at most one page. -/
theorem TooSmall.one_page (short : TooSmall total early) (c₁ : total.1 ≤ total.2)
    (room : firstFree total early < early.2) : total.2 = total.1 ∨
    total.2 = total.1 + pageSize := by
  simp only [TooSmall, structPages, divCeil, pagesIn, firstFree, pageSize, pageStructSize] at *
  omega

/-- The pages of `total` are counted in bytes: `init` does what it is for if and only if it rightly
refuses. -/
theorem init_exact_iff (fits : total.2 < usizeSize) (fits' : early.2 < usizeSize) :
    InitExact total early ↔ TooSmall total early ∧ Refuses total early := by
  have small : total.2 / pageSize < 2 ^ 52 := by
    simp only [pageSize, usizeSize] at *
    omega
  have start : firstFree total early % pageSize = 0 := by
    simp only [firstFree, pageSize] at *
    omega
  have marks (few : firstFree total early < early.2 → total.2 = total.1 ∨
      total.2 = total.1 + pageSize) :=
    markFree_small start a₄ a₁ few small fits'
  unfold InitExact
  rcases run : init total early with _ | ⟨n, s⟩
  · refine ⟨fun short => ⟨short, ?_⟩, And.left⟩
    by_contra goes
    simp only [Refuses, not_or, Nat.not_lt, Nat.not_le] at goes
    obtain ⟨c₁, c₂, c₃, c₄, c₅, c₆⟩ := goes
    rcases marked : markFree (firstFree total early) early.2
      (empty (total.1 / pageSize) (total.2 / pageSize)) with _ | t
    · exact c₆ ((marks fun room => short.one_page a₁ a₂ a₃ a₄ c₁ room).mp marked)
    · rw [(init_eq_some a₁ a₂ a₃ a₄).mpr ⟨rfl, ⟨c₁, c₂, c₃, c₄, c₅⟩,
        marked⟩] at run
      cases run
  · obtain ⟨rfl, ⟨c₁, c₂, c₃, c₄, c₅⟩, marked⟩ :=
      (init_eq_some a₁ a₂ a₃ a₄).mp run
    constructor
    · rintro ⟨count, -⟩
      have none : total.2 = total.1 := by
        simp only [pagesIn, pageSize] at count
        omega
      have stuck := (marks fun _ => .inl none).mpr
        ⟨by unfold firstFree; omega, fun one => by have := one.2.1; omega⟩
      rw [stuck] at marked
      cases marked
    · rintro ⟨short, refuses⟩
      rcases refuses with c | c | c | c | c | last
      iterate 5 omega
      rw [(marks fun room => short.one_page a₁ a₂ a₃ a₄ c₁ room).mpr last] at marked
      cases marked

end

/-- 4096 pages: their number is 16777216, and none is left to be free. -/
theorem init_counts_bytes : ¬ InitExact (0, 4096 * pageSize) (0, 4096 * pageSize) ∧
    ¬ TooSmall (0, 4096 * pageSize) (0, 4096 * pageSize) := by
  have few : ¬ TooSmall (0, 4096 * pageSize) (0, 4096 * pageSize) := by
    simp [TooSmall, structPages, divCeil, pagesIn, pageSize, pageStructSize]
  refine ⟨?_, few⟩
  unfold InitExact
  rcases run : init (0, 4096 * pageSize) (0, 4096 * pageSize) with _ | ⟨n, s⟩
  · exact few
  · obtain ⟨rfl, -⟩ := (init_eq_some rfl rfl rfl rfl).mp run
    rintro ⟨count, -⟩
    exact absurd count (by decide)

theorem init_exact_refused : InitExact (0, 16 * pageSize) (0, 0) :=
  (init_exact_iff rfl rfl rfl rfl (by decide) (by decide)).mpr
    ⟨by simp [TooSmall, structPages, divCeil, pagesIn, pageSize, pageStructSize], .inr (.inr
      (.inr (.inl (by decide))))⟩

end BadgerOS.Pmm
