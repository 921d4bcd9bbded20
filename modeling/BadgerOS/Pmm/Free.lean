import BadgerOS.Pmm.Blocks

/-!
# Freeing a block

The order stored in a page struct can be out of date: splitting a block leaves
the structs of the upper halves as they were. What survives is `Sound.listed`:
a page that is marked free and is aligned to the order stored in its struct is
a block of the free list of that order. An upper half is never aligned to the
order of the block it was split from, so a stale struct claims nothing, and
every buddy that coalescing takes is a member of the list it is taken from.
-/

namespace BadgerOS.Pmm

open Dyadic Function Option

/-- The invariant of the free lists and the page structs between calls. -/
structure Sound (s : Pmm) (L : Nat → List Nat) : Prop where
  small : s.rangeEnd < 2 ^ 52
  threaded : Threaded s L
  aligned : ∀ k < maxOrder, ∀ b ∈ L k, 2 ^ (k + 12) ∣ b
  once : ∀ p, cover L p ≤ 1
  inRange : ∀ p, 0 < cover L p → s.InRange p
  freed : ∀ p, 0 < cover L p → (s.pages p).usage = .free
  listed : ∀ p, (s.pages p).usage = .free → 2 ^ (s.pages p).order ∣ p →
    (s.pages p).order < maxOrder ∧ p * pageSize ∈ L (s.pages p).order
  counted : s.freePages = total L

/-- The state of the coalescing loop: the block `b` of order `o` is on no list,
and the page structs outside it are as `Sound` wants them. -/
structure Merging (s : Pmm) (L : Nat → List Nat) (b o : Nat) : Prop where
  small : s.rangeEnd < 2 ^ 52
  threaded : Threaded s L
  aligned : ∀ k < maxOrder, ∀ c ∈ L k, 2 ^ (k + 12) ∣ c
  block : 2 ^ (o + 12) ∣ b
  once : ∀ p, cover L p + (if Covers o b p then 1 else 0) ≤ 1
  inRange : ∀ p, 0 < cover L p + (if Covers o b p then 1 else 0) → s.InRange p
  freed : ∀ p, 0 < cover L p → (s.pages p).usage = .free
  listed : ∀ p, ¬ Covers o b p → (s.pages p).usage = .free → 2 ^ (s.pages p).order ∣ p →
    (s.pages p).order < maxOrder ∧ p * pageSize ∈ L (s.pages p).order

variable {s : Pmm} {b o c q : Nat}

theorem pageStruct_eq {paddr : Nat} (pa : paddr % pageSize = 0)
    (pr : s.InRange (paddr / pageSize)) : s.pageStruct paddr = some (paddr / pageSize) := by
  simp [pageStruct, debugAssert_of pa, debugAssert_of pr, pure]

variable {p n : Nat} {M : Nat → List Nat}

/-- The page structs of a block lead back to its first page. -/
theorem pageStructBase_eq (block : 2 ^ (o + 12) ∣ b) (hc : Covers o b p)
    (order : (s.pages p).order = o)
    (inRange : s.InRange p) (ho : o ≤ 51) : s.pageStructBase (p * pageSize) = some
    (b / pageSize, o) := by
  have hpage : p * pageSize / pageSize = p := Nat.mul_div_cancel p (by decide)
  have page : s.pageStruct (p * pageSize) = some p := by
    rw [pageStruct_eq (Nat.mul_mod_left p pageSize) (by rwa [hpage]), hpage]
  have start : (p * pageSize) >>> (o + pageBits) <<< (o + pageBits) = b := by
    rw [Nat.shiftRight_eq_div_pow, Nat.shiftLeft_eq, two_pow_add,
      Nat.mul_div_mul_right _ _ (by decide), hc, ← two_pow_add]
    exact Nat.div_mul_cancel block
  have shift : debugAssert (o + pageBits < 64) = some () :=
    debugAssert_of (by simp only [pageBits]; omega)
  have first : p - (p * pageSize - b) / pageSize = b / pageSize := by
    have hb := page_aligned block
    have hle := ((covers_iff block).mp hc).1
    simp only [pageSize] at *
    omega
  simp [pageStructBase, page, order, shift, start, first]

section

variable (small : s.rangeEnd < 2 ^ 52) (block : 2 ^ (o + 12) ∣ b)
  (inRange : ∀ p, Covers o b p → s.InRange p)
include small block inRange

theorem order_le_of_inRange : o ≤ 51 := by
  have hl := (inRange _ (covers_last block)).2
  have hlt : 2 ^ o < 2 ^ 52 := by
    generalize b / pageSize = q at hl
    omega
  have := (Nat.pow_lt_pow_iff_right (by decide)).mp hlt
  omega

theorem lt_usizeSize_of_inRange : b < usizeSize := by
  have hb := (inRange _ (covers_base block)).2
  simp only [pageSize, usizeSize] at *
  omega

end

theorem buddy_not_covers {k : Nat} (h : 2 ^ (k + 12) ∣ b)
    (hp : Covers k (b ^^^ 2 ^ (k + 12)) p) : ¬ Covers k b p := by
  have hw := merge_weight h p
  intro hc
  split at hw <;> omega

variable {L : Nat → List Nat}

section

variable (h : Merging s L b o)
include h

/-- A free page whose struct holds its own order is a block of that list, so the
buddy that passes the test of `try_coalesce` is one to unlink. -/
theorem Merging.buddy_mem (usage : (s.pages ((b ^^^ 2 ^ (o + 12)) / pageSize)).usage = .free)
    (order : (s.pages ((b ^^^ 2 ^ (o + 12)) / pageSize)).order = o) :
    b ^^^ 2 ^ (o + 12) ∈ L o := by
  have ha := buddy_aligned h.block
  have hout := buddy_not_covers h.block (covers_base ha)
  have hl :=
    (h.listed _ hout usage (by rw [order, page_of_aligned ha]; exact ⟨_, Nat.mul_comm _ _⟩)).2
  rw [order] at hl
  have hm : (b ^^^ 2 ^ (o + 12)) / pageSize * pageSize = b ^^^ 2 ^ (o + 12) :=
    Nat.div_mul_cancel (Nat.dvd_of_mod_eq_zero (page_aligned ha))
  rwa [hm] at hl

theorem Merging.block_inRange (p : Nat) (hp : Covers o b p) : s.InRange p := by
  apply h.inRange p
  rw [if_pos hp]
  omega

theorem Merging.order_le : o ≤ 51 := order_le_of_inRange h.small h.block h.block_inRange

theorem Merging.order_lt : o < maxOrder := Nat.lt_of_le_of_lt h.order_le (by decide)

/-- The state after a buddy has been unlinked. -/
theorem Merging.merge (hb : b ^^^ 2 ^ (o + 12) ∈ L o) {links : Nat → LinkedMemory.Link Nat}
    {freeList : Nat → Nat}
    (ht : Threaded { s with links := links, freeList := freeList } (update L o
    ((L o).erase (b ^^^ 2 ^ (o + 12))))) : Merging { s with links := links, freeList := freeList }
      (update L o ((L o).erase (b ^^^ 2 ^ (o + 12)))) (parent o b) (o + 1) := by
  have ho := h.order_lt
  have weight := merge_weight h.block
  have erase := fun p => cover_erase p ho hb
  have sub : ∀ k c, c ∈ update L o ((L o).erase (b ^^^ 2 ^ (o + 12))) k → c ∈ L k := by
    intro k c hc
    by_cases hk : k = o
    · subst hk
      rw [update_self] at hc
      exact List.mem_of_mem_erase hc
    · rwa [update_of_ne hk] at hc
  have outer : ∀ p, ¬ Covers (o + 1) (parent o b) p → ¬ Covers o b p ∧
      ¬ Covers o (b ^^^ 2 ^ (o + 12)) p := by
    intro p hp
    have hw := weight p
    rw [if_neg hp] at hw
    constructor <;> intro hc <;> rw [if_pos hc] at hw <;> omega
  refine ⟨h.small, ht, fun k hk c hc => h.aligned k hk c (sub k c hc), parent_aligned o b, ?_,
    ?_, ?_, ?_⟩
  · intro p
    have := h.once p
    have := erase p
    have := weight p
    omega
  · intro p hp
    apply h.inRange p
    have := erase p
    have := weight p
    omega
  · intro p hp
    apply h.freed p
    have := erase p
    omega
  · intro p hp hu hd
    obtain ⟨hk, hm⟩ := h.listed p (outer p hp).1 hu hd
    refine ⟨hk, ?_⟩
    by_cases ho' : (s.pages p).order = o
    · rw [ho', update_self]
      rw [ho'] at hm
      refine (List.mem_erase_of_ne ?_).mpr hm
      intro he
      apply (outer p hp).2
      have hbase := covers_base (h.aligned o ho _ hb)
      rwa [← he, Nat.mul_div_cancel _ (by decide), he] at hbase
    · rwa [update_of_ne ho']

/-- What `try_coalesce` does: it takes the buddy off its list when the struct of
the buddy's first page says that it is a free block of this order. -/
theorem tryCoalesce_spec :
    (tryCoalesce b o s = some (false, s) ∧ ¬ (s.InRange ((b ^^^ 2 ^ (o + 12)) / pageSize) ∧
        (s.pages ((b ^^^ 2 ^ (o + 12)) / pageSize)).usage = .free ∧
        (s.pages ((b ^^^ 2 ^ (o + 12)) / pageSize)).order = o)) ∨
    ∃ links freeList, b ^^^ 2 ^ (o + 12) ∈ L o ∧
      tryCoalesce b o s = some (true, { s with links := links, freeList := freeList }) ∧
      Merging { s with links := links, freeList := freeList }
        (update L o ((L o).erase (b ^^^ 2 ^ (o + 12)))) (parent o b) (o + 1) := by
  have size := usizeShl_page h.order_le
  simp only [tryCoalesce, size, bind_eq_bind, bind_some]
  by_cases hr : s.InRange ((b ^^^ 2 ^ (o + 12)) / pageSize)
  · rw [if_neg (not_not_intro hr), pageStruct_eq (page_aligned (buddy_aligned h.block))
      hr, bind_some]
    by_cases hm : (s.pages ((b ^^^ 2 ^ (o + 12)) / pageSize)).usage = .free ∧
        (s.pages ((b ^^^ 2 ^ (o + 12)) / pageSize)).order = o
    · have hb := h.buddy_mem hm.1 hm.2
      obtain ⟨links, freeList, run, threaded⟩ := freeListUnlink_spec h.threaded h.order_lt hb
      refine .inr ⟨links, freeList, hb, ?_, h.merge hb threaded⟩
      rw [if_neg (by simp [hm.1, hm.2]), run]
      rfl
    · refine .inl ⟨if_pos ?_, fun hc => hm hc.2⟩
      by_contra hn
      exact hm ⟨not_not.mp (not_or.mp hn).1, not_not.mp (not_or.mp hn).2⟩
  · exact .inl ⟨if_pos hr, fun hc => hr hc.1⟩

end

/-- Coalescing of the block `b` of order `o`, on the lists: while it goes on, the
buddy leaves its list and the block becomes the one around both. -/
inductive Merges : (Nat → List Nat) → Nat → Nat → (Nat → List Nat) → Nat →
    Nat → Prop
  | stop (L : Nat → List Nat) (b o : Nat) : Merges L b o L b o
  | merge {L M : Nat → List Nat} {b o c q : Nat} (order : o < maxOrder)
      (buddy : b ^^^ 2 ^ (o + 12) ∈ L o)
      (rest : Merges (update L o ((L o).erase (b ^^^ 2 ^ (o + 12)))) (parent o b) (o + 1) M c q) :
      Merges L b o M c q

/-- No page is lost and none is gained on the way. -/
theorem Merges.cover_eq (h : Merges L b o M c q) (block : 2 ^ (o + 12) ∣ b) (p : Nat) :
    cover M p + (if Covers q c p then 1 else 0) = cover L p + if Covers o b p then 1 else 0 := by
  induction h with
  | stop => rfl
  | @merge L M b o c q order buddy rest ih =>
    rw [ih (parent_aligned o b), merge_weight block, ← cover_erase p order buddy]
    omega

theorem Merges.total_eq (h : Merges L b o M c q) : total M + 2 ^ q = total L + 2 ^ o := by
  induction h with
  | stop => rfl
  | @merge L M b o c q order buddy rest ih =>
    rw [ih, ← total_erase order buddy, pow_succ]
    omega

/-- The coalescing loop merges as long as the struct of the buddy allows it. -/
theorem coalesce_spec : ∀ {s : Pmm} {L : Nat → List Nat} {b o : Nat}, Merging s L b o →
    51 - o < n →
    ∃ links freeList M c q,
      coalesce n b o s = some (c, q, { s with links := links, freeList := freeList }) ∧
      Merges L b o M c q ∧ Merging { s with links := links, freeList := freeList } M c q ∧
      ¬ (s.InRange ((c ^^^ 2 ^ (q + 12)) / pageSize) ∧
        (s.pages ((c ^^^ 2 ^ (q + 12)) / pageSize)).usage = .free ∧
        (s.pages ((c ^^^ 2 ^ (q + 12)) / pageSize)).order = q) := by
  induction n with
  | zero => intro s L b o _ hn; omega
  | succ n ih =>
    intro s L b o h hn
    have hb := lt_usizeSize_of_inRange h.small h.block h.block_inRange
    simp only [coalesce, if_pos h.order_lt, bind_eq_bind]
    obtain ⟨run, stop⟩ | ⟨links, freeList, buddy, run, merging⟩ := tryCoalesce_spec h
    · refine ⟨s.links, s.freeList, L, b, o, ?_, .stop L b o, h, stop⟩
      rw [run]
      rfl
    · obtain ⟨links', freeList', M, c, q, run', merges, merging', stop⟩ :=
        ih merging (by have := merging.order_le; omega)
      refine ⟨links', freeList', M, c, q, ?_, .merge h.order_lt buddy merges, merging', stop⟩
      rw [run, bind_some, if_pos rfl, usizeShl_page h.order_le, bind_some,
        clear_bit h.block hb h.order_le]
      exact run'

/-- The counters are all that the accounting of `page_free` changes. -/
theorem accountFree_eq {usage : PageUsage} (n : Nat) (s : Pmm) (hf : usage ≠ .free)
    (hk : usage ≠ .kernelSegment) :
    ∃ kernelPages cachePages usedPages, accountFree usage n s =
      some { s with
        kernelPages := kernelPages, cachePages := cachePages, usedPages := usedPages } := by
  cases usage <;> first | exact absurd rfl hf | exact absurd rfl hk | exact ⟨_, _, _, rfl⟩

/-- What `page_free` of the block `b` of order `o` makes of the state `s` with the
lists `L`. -/
structure Frees (s : Pmm) (L : Nat → List Nat) (b o : Nat) (t : Pmm) (M : Nat → List Nat) :
    Prop where
  sound : Sound t M
  rangeStart : t.rangeStart = s.rangeStart
  rangeEnd : t.rangeEnd = s.rangeEnd
  cover_eq : ∀ p, cover M p = cover L p + if Covers o b p then 1 else 0
  merged : ∃ N c q, Merges L b o N c q ∧ q < maxOrder ∧ M = update N q (c :: N q) ∧
    (∀ p, t.pages p =
      if Covers q c p then { s.pages p with usage := .free, order := q } else s.pages p) ∧
    ¬ (s.InRange ((c ^^^ 2 ^ (q + 12)) / pageSize) ∧
      (s.pages ((c ^^^ 2 ^ (q + 12)) / pageSize)).usage = .free ∧
      (s.pages ((c ^^^ 2 ^ (q + 12)) / pageSize)).order = q)

theorem writePages_block (s : Pmm) (f : Page → Page) (block : 2 ^ (q + 12) ∣ c) :
    s.writePages (c / pageSize) (2 ^ q) f =
      { s with pages := fun p => if Covers q c p then f (s.pages p) else s.pages p } := by
  simp only [writePages, covers_iff block]

/-- The end of `page_free`: the merged block gets its structs and goes on its list. -/
theorem Merging.link (h : Merging s L b o) (hn : n = total L + 2 ^ o) {links : Nat →
    LinkedMemory.Link Nat} {freeList : Nat → Nat} {pages : Nat → Page}
    (hp : ∀ p, pages p = if Covers o b p then { s.pages p with usage := .free, order := o }
    else s.pages p)
    (ht : Threaded { s with links := links, freeList := freeList, pages := pages } (update L o (b ::
    L o))) : Sound { s with links := links, freeList := freeList, pages := pages, freePages := n }
      (update L o (b :: L o)) := by
  have push := fun p => cover_push (L := L) b p h.order_lt
  refine ⟨h.small, ⟨ht.chain, ht.aligned, ht.inRange, ht.nodup, ht.apart⟩, ?_, ?_, ?_,
    ?_, ?_, ?_⟩
  · intro k hk c hc
    by_cases hko : k = o
    · subst hko
      rw [update_self] at hc
      obtain rfl | hc := List.mem_cons.mp hc
      · exact h.block
      · exact h.aligned k hk c hc
    · rw [update_of_ne hko] at hc
      exact h.aligned k hk c hc
  · intro p
    rw [push]
    exact h.once p
  · intro p hc
    rw [push] at hc
    exact h.inRange p hc
  · intro p hc
    rw [push] at hc
    show (pages p).usage = .free
    rw [hp p]
    by_cases hb : Covers o b p
    · rw [if_pos hb]
    · rw [if_neg hb] at hc ⊢
      exact h.freed p (by omega)
  · intro p hu hd
    change (pages p).usage = .free at hu
    change 2 ^ (pages p).order ∣ p at hd
    show (pages p).order < maxOrder ∧ p * pageSize ∈ update L o _ (pages p).order
    rw [hp p] at hu hd ⊢
    by_cases hb : Covers o b p
    · rw [if_pos hb] at hd ⊢
      refine ⟨h.order_lt, ?_⟩
      rw [base_of_covers h.block hb hd, update_self]
      exact List.mem_cons_self
    · rw [if_neg hb] at hu hd ⊢
      obtain ⟨hk, hm⟩ := h.listed p hb hu hd
      refine ⟨hk, ?_⟩
      by_cases hko : (s.pages p).order = o
      · rw [hko, update_self]
        rw [hko] at hm
        exact List.mem_cons_of_mem _ hm
      · rwa [update_of_ne hko]
  · rw [total_push b h.order_lt]
    exact hn

/-- A block that `page_free` may be called on. -/
structure Freeable (s : Pmm) (L : Nat → List Nat) (b o : Nat) : Prop where
  block : 2 ^ (o + 12) ∣ b
  inRange : ∀ p, Covers o b p → s.InRange p
  off : ∀ p, Covers o b p → cover L p = 0
  inUse : (s.pages (b / pageSize)).usage ≠ .free
  notSegment : (s.pages (b / pageSize)).usage ≠ .kernelSegment

theorem Sound.merging (h : Sound s L) (hb : Freeable s L b o) : Merging s L b o := by
  refine ⟨h.small, h.threaded, h.aligned, hb.block, ?_, ?_, h.freed, fun p _ => h.listed p⟩
  · intro p
    by_cases hp : Covers o b p
    · rw [hb.off p hp, if_pos hp]
    · rw [if_neg hp, Nat.add_zero]
      exact h.once p
  · intro p hc
    by_cases hp : Covers o b p
    · exact hb.inRange p hp
    · rw [if_neg hp, Nat.add_zero] at hc
      exact h.inRange p hc

theorem Merging.not_mem (h : Merging s L b o) : ∀ j < maxOrder, b ∉ L j := by
  intro j hj hm
  have hc := cover_pos hj hm (covers_base (h.aligned j hj b hm))
  have ho := h.once (b / pageSize)
  rw [if_pos (covers_base h.block)] at ho
  omega

theorem Sound.freePages_lt (h : Sound s L) : s.freePages < 2 ^ 52 := by
  have hl := total_le h.once h.aligned fun p hp => (h.inRange p hp).2
  have hs := h.small
  have hc := h.counted
  omega

/-- **Freeing a block** fails no assertion, and adds exactly its pages to the free lists. -/
theorem pageFree_spec (h : Sound s L) (hb : Freeable s L b o) : ∃ t M, pageFree b o s = some t ∧
    Frees s L b o t M := by
  have start := h.merging hb
  have size := usizeShl_page start.order_le
  have aligned : 2 ^ (o + 12) ≠ 0 ∧ b % 2 ^ (o + 12) = 0 :=
    ⟨(Nat.two_pow_pos _).ne', Nat.mod_eq_zero_of_dvd hb.block⟩
  obtain ⟨kernelPages, cachePages, usedPages, account⟩ :=
    accountFree_eq (2 ^ o) s hb.inUse hb.notSegment
  have start' : Merging { s with
      kernelPages := kernelPages, cachePages := cachePages, usedPages := usedPages } L b o :=
    ⟨start.small, ⟨h.threaded.chain, h.threaded.aligned, h.threaded.inRange, h.threaded.nodup,
      h.threaded.apart⟩, start.aligned, start.block, start.once, start.inRange, start.freed,
      start.listed⟩
  obtain ⟨links, freeList, N, c, q, run, merges, merging, stop⟩ :=
    coalesce_spec (n := maxOrder - o) start'
      (by have := start.order_le; simp only [maxOrder]; omega)
  have base := merging.block_inRange _ (covers_base merging.block)
  have threaded := merging.threaded
  let s' : Pmm := { s with
    kernelPages := kernelPages, cachePages := cachePages, usedPages := usedPages
    links := links, freeList := freeList
    pages := fun p =>
      if Covers q c p then { s.pages p with usage := .free, order := q } else s.pages p }
  obtain ⟨links', freeList', linked, threaded'⟩ := freeListLink_spec (s := s')
    ⟨threaded.chain, threaded.aligned, threaded.inRange, threaded.nodup, threaded.apart⟩
    merging.order_lt merging.not_mem (page_aligned merging.block) base
  have counted : s.freePages + 2 ^ o = total N + 2 ^ q := by
    rw [h.counted, merges.total_eq]
  have small : wrappingAdd s.freePages (2 ^ o) = s.freePages + 2 ^ o := by
    have := h.freePages_lt
    have : 2 ^ o ≤ 2 ^ 51 := Nat.pow_le_pow_right (by decide) start.order_le
    exact wrappingAdd_of_lt (by simp only [usizeSize]; omega)
  refine ⟨_, _, ?_, merging.link (small.trans counted)
    (fun _ => rfl) threaded', rfl, rfl, ?_, N, c, q, merges, merging.order_lt, rfl,
      fun _ => rfl, stop⟩
  · simp only [pageFree, size, bind_eq_bind, bind_some, debugAssert_of aligned,
      pageStruct_eq (page_aligned hb.block) (hb.inRange _ (covers_base hb.block)), account, run,
      pageStruct_eq (page_aligned merging.block) base, writePages_block _ _ merging.block]
    exact congrArg (Option.bind · _) linked
  · intro p
    rw [cover_push c p merging.order_lt]
    exact merges.cover_eq hb.block p

end BadgerOS.Pmm
