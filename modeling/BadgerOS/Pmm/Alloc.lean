import BadgerOS.Pmm.Free

/-!
# Allocating a block

`page_alloc` takes the first block of the smallest order that has one, and
splits it down to the order asked for. While it is being split, the struct of
the block's first page holds the final order although the block is on a list of
a higher one; `Splitting` is `Sound` up to that page.
-/

namespace BadgerOS.Pmm

open Dyadic Function Option List

variable {n j o : Nat}

/-- The search finds the smallest order from `k` on with a free block. -/
theorem findSplitOrder_spec (freeList : Nat → Nat) : ∀ {k : Nat}, k < maxOrder →
    maxOrder ≤ n + k →
    (findSplitOrder freeList n k = none ∧ ∀ j, k ≤ j → j < maxOrder →
    freeList j = paddrMax) ∨
    ∃ d, findSplitOrder freeList n k = some (k + d) ∧ k + d < maxOrder ∧
      freeList (k + d) ≠ paddrMax := by
  induction n with
  | zero => intro k hk hn; omega
  | succ n ih =>
    intro k hk hn
    simp only [findSplitOrder]
    by_cases hf : freeList k = paddrMax
    · rw [if_pos hf]
      by_cases hl : k ≥ maxOrder - 1
      · refine .inl ⟨if_pos hl, fun j hj hm => ?_⟩
        rwa [show j = k by omega]
      · rw [if_neg hl]
        obtain ⟨run, none⟩ | ⟨d, run, lt, some⟩ := ih (k := k + 1) (by omega) (by omega)
        · refine .inl ⟨run, fun j hj hm => ?_⟩
          by_cases he : j = k
          · rwa [he]
          · exact none j (by omega) hm
        · rw [show k + 1 + d = k + (d + 1) by omega] at run lt some
          exact .inr ⟨d + 1, run, lt, some⟩
    · rw [if_neg hf]
      exact .inr ⟨0, rfl, hk, hf⟩

/-- The lists after the block `b` of order `k + 1` has been split. -/
def halve (L : Nat → List Nat) (b k : Nat) : Nat → List Nat :=
  let M := update L (k + 1) ((L (k + 1)).erase b)
  let N := update M k ((b + 2 ^ (k + 12)) :: M k)
  update N k (b :: N k)

/-- The lists after the block `b` has been split from order `o + n` to `o`. -/
def splitLists (b o : Nat) : Nat → (Nat → List Nat) → Nat → List Nat
  | 0, L => L
  | n + 1, L => splitLists b o n (halve L b (o + n))

theorem halve_self (L : Nat → List Nat) (b k : Nat) :
    halve L b k k = b :: (b + 2 ^ (k + 12)) :: L k := by
  simp [halve]

theorem halve_succ (L : Nat → List Nat) (b k : Nat) :
    halve L b k (k + 1) = (L (k + 1)).erase b := by
  simp [halve]

variable {L : Nat → List Nat} {b k c : Nat} {links : Nat → LinkedMemory.Link Nat}
  {freeList : Nat → Nat} {s : Pmm}

theorem halve_of_ne (hk : j ≠ k) (hs : j ≠ k + 1) : halve L b k j = L j := by
  simp [halve, hk, hs]

/-- What a split puts on the lists. -/
theorem mem_halve (h : c ∈ halve L b k j) : c ∈ L j ∨ j = k ∧
    (c = b ∨ c = b + 2 ^ (k + 12)) := by
  by_cases hk : j = k
  · subst hk
    rw [halve_self] at h
    simp only [mem_cons] at h
    tauto
  · by_cases hs : j = k + 1
    · subst hs
      rw [halve_succ] at h
      exact .inl (mem_of_mem_erase h)
    · rw [halve_of_ne hk hs] at h
      exact .inl h

/-- A split takes nothing but the block itself off the lists. -/
theorem mem_halve_of_ne (h : c ∈ L j) (hc : c ≠ b) : c ∈ halve L b k j := by
  by_cases hk : j = k
  · subst hk
    rw [halve_self]
    exact mem_cons_of_mem _ (mem_cons_of_mem _ h)
  · by_cases hs : j = k + 1
    · subst hs
      rw [halve_succ]
      exact (mem_erase_of_ne hc).mpr h
    · rwa [halve_of_ne hk hs]

theorem cover_halve (hk : k + 1 < maxOrder) (hb : b ∈ L (k + 1))
    (block : 2 ^ (k + 1 + 12) ∣ b) (p : Nat) : cover (halve L b k) p = cover L p := by
  unfold halve
  rw [cover_push b p (by omega), cover_push _ p (by omega), ← cover_erase p hk hb,
    halves_weight block p]
  omega

theorem total_halve (hk : k + 1 < maxOrder) (hb : b ∈ L (k + 1)) :
    total (halve L b k) = total L := by
  unfold halve
  rw [total_push b (by omega), total_push _ (by omega), ← total_erase hk hb, pow_succ]
  omega

/-- The state of the split loop: `b` is the first block of order `k`. -/
structure Splitting (s : Pmm) (L : Nat → List Nat) (b k : Nat) : Prop where
  small : s.rangeEnd < 2 ^ 52
  order : k < maxOrder
  threaded : Threaded s L
  aligned : ∀ k < maxOrder, ∀ b ∈ L k, 2 ^ (k + 12) ∣ b
  once : ∀ p, cover L p ≤ 1
  inRange : ∀ p, 0 < cover L p → s.InRange p
  freed : ∀ p, 0 < cover L p → (s.pages p).usage = .free
  listed : ∀ p ≠ b / pageSize, (s.pages p).usage = .free → 2 ^ (s.pages p).order ∣ p →
    (s.pages p).order < maxOrder ∧ p * pageSize ∈ L (s.pages p).order
  counted : s.freePages = total L
  head : ∃ rest, L k = b :: rest

namespace Splitting

section

variable (h : Splitting s L b k)
include h

theorem mem : b ∈ L k := by
  obtain ⟨rest, hr⟩ := h.head
  rw [hr]
  exact mem_cons_self

theorem block : 2 ^ (k + 12) ∣ b := h.aligned k h.order b h.mem

theorem freeList_eq : s.freeList k = b := by
  obtain ⟨rest, hr⟩ := h.head
  have hc := h.threaded.chain k h.order
  rw [hr] at hc
  exact hc.1

theorem cover_eq {p : Nat} (hp : Covers k b p) : cover L p = 1 :=
  Nat.le_antisymm (h.once p) (cover_pos h.order h.mem hp)

theorem block_inRange (p : Nat) (hp : Covers k b p) : s.InRange p :=
  h.inRange p (by rw [h.cover_eq hp]; decide)

theorem order_le : k ≤ 51 := order_le_of_inRange h.small h.block h.block_inRange

/-- Once `b` is off its list, nothing on the lists starts inside it. -/
theorem not_mem_erase (hc : Covers k b (c / pageSize)) : ∀ j < maxOrder,
    c ∉ update L k ((L k).erase b) j := by
  intro j hj hm
  have he := cover_erase (c / pageSize) h.order h.mem
  rw [h.cover_eq hc, if_pos hc] at he
  have hsub : c ∈ L j := by
    by_cases hjk : j = k
    · subst hjk
      rw [update_self] at hm
      exact mem_of_mem_erase hm
    · rwa [update_of_ne hjk] at hm
  have := cover_pos hj hm (covers_base (h.aligned j hj c hsub))
  omega

end

/-- The split of one block. -/
theorem halve (h : Splitting s L b (k + 1)) {pages : Nat → Page}
    (hp : ∀ p ≠ b / pageSize, pages p = s.pages p) (hb : (pages (b / pageSize)).usage = .free)
    (ht : Threaded { s with pages := pages, links := links, freeList := freeList }
    (Pmm.halve L b k)) :
    Splitting { s with pages := pages, links := links, freeList := freeList }
      (Pmm.halve L b k) b k := by
  have hk := h.order
  have cover := cover_halve hk h.mem h.block
  refine ⟨h.small, by omega, ht, ?_, ?_, ?_, ?_, ?_, ?_, ⟨_, halve_self L b k⟩⟩
  · intro j hj c hc
    obtain hc | ⟨rfl, rfl | rfl⟩ := mem_halve hc
    · exact h.aligned j hj c hc
    · exact (upper_aligned h.block).1
    · exact (upper_aligned h.block).2
  · intro p
    rw [cover p]
    exact h.once p
  · intro p hc
    rw [cover p] at hc
    exact h.inRange p hc
  · intro p hc
    rw [cover p] at hc
    by_cases he : p = b / pageSize
    · rwa [he]
    · show (pages p).usage = .free
      rw [hp p he]
      exact h.freed p hc
  · intro p he hu hd
    change (pages p).usage = .free at hu
    change 2 ^ (pages p).order ∣ p at hd
    show (pages p).order < maxOrder ∧ p * pageSize ∈ Pmm.halve L b k (pages p).order
    rw [hp p he] at hu hd ⊢
    obtain ⟨ho, hm⟩ := h.listed p he hu hd
    refine ⟨ho, mem_halve_of_ne hm ?_⟩
    rintro rfl
    exact he (Nat.mul_div_cancel _ (by decide)).symm
  · rw [total_halve hk h.mem]
    exact h.counted

end Splitting

/-- One turn of the split loop fails no assertion. -/
theorem splitBlock_spec (order : Nat) (h : Splitting s L b (k + 1)) : ∃ links freeList,
      splitBlock order (k + 1) s = some { s.writePages (b / pageSize) 1
        (fun p => { p with usage := .free, order := order }) with
          links := links, freeList := freeList } ∧
      Splitting
          { s.writePages (b / pageSize) 1 (fun p => { p with usage := .free, order := order }) with
          links := links, freeList := freeList } (halve L b k) b k := by
  have hk := h.order_le
  have hm := h.order
  obtain ⟨lower, upper⟩ := upper_aligned h.block
  have halves := halves_weight h.block
  have base := h.block_inRange _ (covers_base h.block)
  have covered : ∀ {c : Nat}, Covers k c (c / pageSize) → (c = b ∨ c = b + 2 ^ (k + 12)) →
      Covers (k + 1) b (c / pageSize) := by
    intro c hc he
    have hw := halves (c / pageSize)
    by_contra hn
    rw [if_neg hn] at hw
    obtain rfl | rfl := he <;> rw [if_pos hc] at hw <;> omega
  have upperIn := covered (covers_base upper) (.inr rfl)
  obtain ⟨links, freeList, unlinked, threaded⟩ := freeListUnlink_spec h.threaded h.order h.mem
  obtain ⟨links₁, freeList₁, linked₁, threaded₁⟩ := freeListLink_spec
    (s := { s.writePages (b / pageSize) 1 (fun p => { p with usage := .free, order := order }) with
      links := links, freeList := freeList })
    (k := k) ⟨threaded.chain, threaded.aligned, threaded.inRange, threaded.nodup,
      threaded.apart⟩
    (by omega) (h.not_mem_erase upperIn) (page_aligned upper) (h.block_inRange _ upperIn)
  have off : ∀ j < maxOrder, b ∉ update (update L (k + 1) ((L (k + 1)).erase b)) k
      ((b + 2 ^ (k + 12)) :: update L (k + 1) ((L (k + 1)).erase b) k) j := by
    intro j hj hb
    have hn := h.not_mem_erase (covers_base h.block) j hj
    by_cases he : j = k
    · subst he
      rw [update_self, mem_cons] at hb
      obtain hb | hb := hb
      · omega
      · exact hn hb
    · rw [update_of_ne he] at hb
      exact hn hb
  obtain ⟨links₂, freeList₂, linked₂, threaded₂⟩ :=
    freeListLink_spec threaded₁ (k := k) (by omega) off (page_aligned lower) base
  refine ⟨links₂, freeList₂, ?_, h.halve ?_ ?_ threaded₂⟩
  · have shifted : k + 1 + pageBits < 64 ∧
        b = b >>> (k + 1 + pageBits) <<< (k + 1 + pageBits) := by
      refine ⟨by simp only [pageBits]; omega, ?_⟩
      rw [Nat.shiftRight_eq_div_pow, Nat.shiftLeft_eq]
      exact (Nat.div_mul_cancel h.block).symm
    have page : ({ s with links := links, freeList := freeList } : Pmm).pageStruct b =
        some (b / pageSize) := pageStruct_eq (page_aligned h.block) base
    simp only [splitBlock, h.freeList_eq, debugAssert_of shifted, unlinked, bind_eq_bind,
      bind_some, Nat.add_sub_cancel, usizeShl_page (show k ≤ 51 by omega), page]
    exact (congrArg (Option.bind · _) linked₁).trans linked₂
  · intro p hp
    exact if_neg (by omega)
  · show (if _ then _ else _ : Page).usage = .free
    rw [if_pos (by omega)]

/-- The split loop leaves the block at the front of the list of its final order. -/
theorem splitBlocks_spec : ∀ {s : Pmm} {L : Nat → List Nat} {b : Nat},
    Splitting s L b (o + n) → ∃ links freeList pages,
      splitBlocks o n s = some { s with links := links, freeList := freeList, pages := pages } ∧
      Splitting { s with links := links, freeList := freeList, pages := pages }
        (splitLists b o n L) b o ∧
      (∀ p ≠ b / pageSize, pages p = s.pages p) ∧
      ∀ p usage order, { pages p with usage := usage, order := order } =
        { s.pages p with usage := usage, order := order } := by
  induction n with
  | zero => exact fun h => ⟨_, _, _, rfl, h, fun _ _ => rfl, fun _ _ _ => rfl⟩
  | succ n ih =>
    intro s L b h
    obtain ⟨links, freeList, run, splitting⟩ := splitBlock_spec o h
    obtain ⟨links', freeList', pages', run', splitting', same, same'⟩ := ih splitting
    refine ⟨links', freeList', pages', ?_, splitting', ?_, ?_⟩
    · exact (congrArg (Option.bind · _) run).trans run'
    · intro p hp
      rw [same p hp]
      exact if_neg (by omega)
    · intro p usage order
      rw [same' p usage order]
      by_cases hp : b / pageSize ≤ p ∧ p < b / pageSize + 1
      · simp only [writePages, if_pos hp]
      · simp only [writePages, if_neg hp]

/-- A usage that `page_alloc` accepts. -/
abbrev Allocatable (usage : PageUsage) : Prop := usage ≠ .free ∧ usage ≠ .unusable ∧
    usage ≠ .kernelSegment

variable {usage : PageUsage}

/-- The counters are all that the accounting of `page_alloc` changes, and they do
not depend on the page structs. -/
theorem accountAlloc_eq (n : Nat) (s : Pmm) (hu : Allocatable usage) :
    ∃ kernelPages cachePages usedPages, ∀ pages,
      accountAlloc usage n { s with pages := pages } = some { s with
        pages := pages, kernelPages := kernelPages, cachePages := cachePages
        usedPages := usedPages } := by
  obtain ⟨hf, hu, hk⟩ := hu
  refine ⟨((accountAlloc usage n s).getD s).kernelPages, ((accountAlloc usage n s).getD
    s).cachePages, ((accountAlloc usage n s).getD s).usedPages, fun pages => ?_⟩
  cases usage <;> first | exact absurd rfl hf | exact absurd rfl hu | exact absurd rfl hk | rfl

/-- What a successful `page_alloc` of order `o` makes of the state `s` with the
lists `L`: it takes the block `b`, the first of order `o + d`. -/
structure Allocs (s : Pmm) (L : Nat → List Nat) (o : Nat) (usage : PageUsage) (b d : Nat)
    (t : Pmm) (M : Nat → List Nat) : Prop where
  sound : Sound t M
  rangeStart : t.rangeStart = s.rangeStart
  rangeEnd : t.rangeEnd = s.rangeEnd
  block : 2 ^ (o + 12) ∣ b
  cover_eq : ∀ p, cover L p = cover M p + if Covers o b p then 1 else 0
  pages : ∀ p, t.pages p = if Covers o b p then
    { s.pages p with usage := usage, order := o, refcount := 0, memobject := none } else s.pages p
  taken : b ∈ L (o + d)
  order : o + d < maxOrder
  lists : M = update (splitLists b o d L) o ((splitLists b o d L o).erase b)

theorem Sound.splitting {rest : List Nat}
    (h : Sound s L) (hk : k < maxOrder) (hb : L k = b :: rest) : Splitting s L b k :=
  ⟨h.small, hk, h.threaded, h.aligned, h.once, h.inRange, h.freed, fun p _ => h.listed p,
    h.counted, rest, hb⟩

/-- The end of `page_alloc`: the block leaves its list and gets its structs. -/
theorem Splitting.take (h : Splitting s L b o) (hu : usage ≠ .free) (hn : n + 2 ^ o = total L)
    (pages : Nat → Page) (hb : ∀ p, Covers o b p → (pages p).usage = usage)
    (hp : ∀ p, ¬ Covers o b p → pages p = s.pages p)
    (ht : Threaded { s with links := links, freeList := freeList } (update L o ((L o).erase b))) :
    Sound { s with links := links, freeList := freeList, pages := pages, freePages := n }
      (update L o ((L o).erase b)) := by
  have erase := fun p => cover_erase p h.order h.mem
  refine ⟨h.small, ⟨ht.chain, ht.aligned, ht.inRange, ht.nodup, ht.apart⟩, ?_, ?_, ?_,
    ?_, ?_, ?_⟩
  · intro k hk c hc
    by_cases hko : k = o
    · subst hko
      rw [update_self] at hc
      exact h.aligned k hk c (mem_of_mem_erase hc)
    · rw [update_of_ne hko] at hc
      exact h.aligned k hk c hc
  · intro p
    have := erase p
    have := h.once p
    omega
  · intro p hc
    have := erase p
    exact h.inRange p (by omega)
  · intro p hc
    have he := erase p
    have ho := h.once p
    have hout : ¬ Covers o b p := by
      intro hin
      rw [if_pos hin] at he
      omega
    show (pages p).usage = .free
    rw [hp p hout]
    exact h.freed p (by omega)
  · intro p hf hd
    change (pages p).usage = .free at hf
    change 2 ^ (pages p).order ∣ p at hd
    show (pages p).order < maxOrder ∧ p * pageSize ∈ update L o _ (pages p).order
    have hout : ¬ Covers o b p := fun hin => hu ((hb p hin).symm.trans hf)
    have hne : p ≠ b / pageSize := by
      rintro rfl
      exact hout (covers_base h.block)
    rw [hp p hout] at hf hd ⊢
    obtain ⟨hk, hm⟩ := h.listed p hne hf hd
    refine ⟨hk, ?_⟩
    by_cases hko : (s.pages p).order = o
    · rw [hko, update_self]
      rw [hko] at hm
      refine (mem_erase_of_ne ?_).mpr hm
      rintro rfl
      exact hne (Nat.mul_div_cancel _ (by decide)).symm
    · rwa [update_of_ne hko]
  · have := total_erase h.order h.mem
    show n = _
    omega

theorem cover_splitLists : ∀ {L : Nat → List Nat}, b ∈ L (o + n) → o + n < maxOrder →
    2 ^ (o + n + 12) ∣ b → ∀ p, cover (splitLists b o n L) p = cover L p := by
  induction n with
  | zero => intros; rfl
  | succ n ih =>
    intro L hb hn block p
    have hm : b ∈ halve L b (o + n) (o + n) := by
      rw [halve_self]
      exact mem_cons_self
    exact (ih hm (by omega) (upper_aligned block).1 p).trans (cover_halve hn hb block p)

theorem Threaded.exists_head (h : Threaded s L)
    (hk : k < maxOrder) (hf : s.freeList k ≠ paddrMax) : ∃ b rest, L k = b :: rest := by
  cases hl : L k with
  | nil => exact absurd ((h.head_eq_max hk).mpr hl) hf
  | cons b rest => exact ⟨b, rest, rfl⟩

section

variable (h : Sound s L) (ho : o < maxOrder) (hu : Allocatable usage)
include h ho hu

/-- How `page_alloc` runs: either no list from the order on has a block, or the
first block `b` of the smallest such order `o + d` is split and taken. -/
theorem pageAlloc_cases : (pageAlloc o usage s = some (.error .allocError, s) ∧
      ∀ k, o ≤ k → k < maxOrder → L k = []) ∨
    ∃ b d, ∃ t : Pmm, b ∈ L (o + d) ∧ o + d < maxOrder ∧ 2 ^ (o + d + 12) ∣ b ∧
      Splitting t (splitLists b o d L) b o ∧ t.freePages = s.freePages ∧
      t.rangeStart = s.rangeStart ∧ t.rangeEnd = s.rangeEnd ∧
      (∀ p ≠ b / pageSize, t.pages p = s.pages p) ∧
      (∀ p usage order, { t.pages p with usage := usage, order := order } =
        { s.pages p with usage := usage, order := order }) ∧
      ∃ links freeList kernelPages cachePages usedPages,
        Threaded { t with links := links, freeList := freeList }
          (update (splitLists b o d L) o ((splitLists b o d L o).erase b)) ∧
        pageAlloc o usage s = (i32Turns o).map fun turns => (.ok b, { t with
          links := links, freeList := freeList
          pages := (t.writePages (b / pageSize) turns fun p =>
            { p with usage := usage, order := o, refcount := 0, memobject := none }).pages
          freePages := wrappingSub t.freePages (2 ^ o)
          kernelPages := kernelPages, cachePages := cachePages, usedPages := usedPages }) := by
  have legal : debugAssert (usage ≠ .unusable ∧ usage ≠ .free) = some () :=
    debugAssert_of ⟨hu.2.1, hu.1⟩
  simp only [pageAlloc, debugAssert_of ho, legal, bind_eq_bind, bind_some]
  obtain ⟨found, none⟩ | ⟨d, found, lt, some⟩ :=
    findSplitOrder_spec s.freeList ho (Nat.le_add_right maxOrder o)
  · refine .inl ⟨by rw [found]; rfl, fun k hk hm => ?_⟩
    exact (h.threaded.head_eq_max hm).mp (none k hk hm)
  · obtain ⟨b, rest, hb⟩ := h.threaded.exists_head lt some
    have first := h.splitting lt hb
    obtain ⟨links, freeList, pages, split, splitting, same, same'⟩ := splitBlocks_spec first
    have head : freeList o = b := splitting.freeList_eq
    have ne := splitting.threaded.ne_max ho splitting.mem
    have base := splitting.block_inRange _ (covers_base splitting.block)
    obtain ⟨links', freeList', unlinked, threaded⟩ :=
      freeListUnlink_spec splitting.threaded ho splitting.mem
    have page :
      ({ s with links := links', freeList := freeList', pages := pages } : Pmm).pageStruct b
        = Option.some (b / pageSize) := pageStruct_eq (page_aligned splitting.block) base
    obtain ⟨kernelPages, cachePages, usedPages, account⟩ := accountAlloc_eq (2 ^ o)
      { s with links := links', freeList := freeList', pages := pages,
               freePages := wrappingSub s.freePages (2 ^ o) } hu
    refine .inr ⟨b, d, _, first.mem, lt, first.block, splitting, rfl, rfl, rfl, same, same',
      links', freeList', kernelPages, cachePages, usedPages, threaded, ?_⟩
    rw [found]
    simp only [Nat.add_sub_cancel_left, split, bind_some, head, if_neg ne, unlinked, page]
    cases i32Turns o with
    | none => rfl
    | some turns => exact congrArg (Option.bind · _) (account _)

/-- `page_alloc` returns an error exactly when there is no free block to take or split. -/
theorem pageAlloc_error_iff : (∃ t, pageAlloc o usage s = some (.error .allocError, t)) ↔
      ∀ k, o ≤ k → k < maxOrder → L k = [] := by
  obtain ⟨run, empty⟩ | ⟨b, d, t, hb, lt, _, _, _, _, _, _, _, _, _, _, _, _, _, run⟩ :=
    pageAlloc_cases h ho hu
  · exact ⟨fun _ => empty, fun _ => ⟨s, run⟩⟩
  · rw [run]
    constructor
    · rintro ⟨u, hr⟩
      obtain ⟨_, _, hr⟩ := map_eq_some_iff.mp hr
      cases hr
    · intro empty
      rw [empty (o + d) (Nat.le_add_right o d) lt] at hb
      cases hb

/-- `page_alloc` succeeds exactly when there is a block and the order is one
that its loop over the page structs can count to. -/
theorem pageAlloc_ok_iff : (∃ b t, pageAlloc o usage s = some (.ok b, t)) ↔
      (i32Turns o).isSome ∧ ∃ k, o ≤ k ∧ k < maxOrder ∧ L k ≠ [] := by
  obtain ⟨run, empty⟩ | ⟨b, d, t, hb, lt, _, _, _, _, _, _, _, _, _, _, _, _, _, run⟩ :=
    pageAlloc_cases h ho hu
  · rw [run]
    constructor
    · rintro ⟨b, t, hr⟩
      cases hr
    · rintro ⟨_, k, hk, hm, hne⟩
      exact absurd (empty k hk hm) hne
  · rw [run]
    constructor
    · rintro ⟨c, u, hr⟩
      obtain ⟨turns, ht, _⟩ := map_eq_some_iff.mp hr
      exact ⟨by rw [ht]; rfl, o + d, Nat.le_add_right o d, lt, ne_nil_of_mem hb⟩
    · rintro ⟨ht, _⟩
      obtain ⟨turns, ht⟩ := isSome_iff_exists.mp ht
      rw [ht]
      exact ⟨b, _, rfl⟩

end

/-- **Allocating a block** fails no assertion. Without a free block of the order
or above nothing changes; otherwise the block returned leaves the free lists. -/
theorem pageAlloc_spec (h : Sound s L) (ho : o < 31) (hu : Allocatable usage) :
    (pageAlloc o usage s = some (.error .allocError, s) ∧ ∀ k, o ≤ k → k < maxOrder →
    L k = []) ∨
    ∃ b d t M, pageAlloc o usage s = some (.ok b, t) ∧ Allocs s L o usage b d t M := by
  have hom : o < maxOrder := Nat.lt_trans ho (by decide)
  obtain none | ⟨b, d, t, hb, lt, block, splitting, free, start, stop, same, same', links,
    freeList, kernelPages, cachePages, usedPages, threaded, run⟩ := pageAlloc_cases h hom hu
  · exact .inl none
  refine .inr ⟨b, d, _, update (splitLists b o d L) o ((splitLists b o d L o).erase b),
    by rw [run, i32Turns, if_pos ho]; rfl, ?_⟩
  have write := writePages_block t (fun p : Page =>
    { p with usage := usage, order := o, refcount := 0, memobject := none }) splitting.block
  have freePages : wrappingSub t.freePages (2 ^ o) + 2 ^ o = t.freePages := by
    have := h.freePages_lt
    have := total_erase hom splitting.mem
    have := splitting.counted
    rw [wrappingSub_of_le (by simp only [usizeSize]; omega) (by omega)]
    omega
  have sound :=
      splitting.take hu.1 (freePages.trans splitting.counted) (fun p => if Covers o b p then
      { t.pages p with usage := usage, order := o, refcount := 0, memobject := none }
        else t.pages p)
    (fun p hp => by rw [if_pos hp]) (fun p hp => if_neg hp) threaded
  rw [write]
  refine ⟨⟨sound.small, ⟨sound.threaded.chain, sound.threaded.aligned,
    sound.threaded.inRange, sound.threaded.nodup, sound.threaded.apart⟩,
      sound.aligned, sound.once,
    sound.inRange, sound.freed, sound.listed, sound.counted⟩, start, stop,
      splitting.block, ?_, ?_,
    hb, lt, rfl⟩
  · intro p
    rw [cover_erase p hom splitting.mem, cover_splitLists hb lt block]
  · intro p
    by_cases hp : Covers o b p
    · simp only [if_pos hp]
      exact congrArg (fun q : Page => ({ q with refcount := 0, memobject := none } : Page))
        (same' p usage o)
    · simp only [if_neg hp]
      apply same
      rintro rfl
      exact hp (covers_base splitting.block)

end BadgerOS.Pmm
