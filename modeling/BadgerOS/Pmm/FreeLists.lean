import BadgerOS.Pmm.Model

/-!
# The free lists as lists of blocks

`Threaded s L` says that the links stored in the free blocks thread, for each
order `k`, exactly the blocks `L k`. Linking and unlinking are then `cons` and
`erase`, and no assertion of theirs fails.
-/

namespace BadgerOS.Pmm

open LinkedMemory Function Option List

/-- The free lists in memory are the lists `L`. -/
structure Threaded (s : Pmm) (L : Nat → List Nat) : Prop where
  chain : ∀ k < maxOrder, Chain s.links paddrMax paddrMax (s.freeList k) (L k)
  aligned : ∀ k < maxOrder, ∀ b ∈ L k, b % pageSize = 0
  inRange : ∀ k < maxOrder, ∀ b ∈ L k, s.InRange (b / pageSize)
  nodup : ∀ k < maxOrder, (L k).Nodup
  apart : ∀ j < maxOrder, ∀ k < maxOrder, j ≠ k → ∀ b ∈ L j, b ∉ L k

variable {s : Pmm} {xs : List Nat} {head b : Nat}

theorem length_lt_walkBound (hu : xs.Nodup) (aligned : ∀ b ∈ xs, b % pageSize = 0)
    (inRange : ∀ b ∈ xs, s.InRange (b / pageSize)) :
    xs.length < s.walkBound := by
  have hmap : (xs.map (· / pageSize)).Nodup := by
    apply List.Nodup.map_on _ hu
    intro a ha b hb he
    have ha := aligned a ha
    have hb := aligned b hb
    simp only [pageSize] at *
    omega
  have hsub : (xs.map (· / pageSize)).toFinset ⊆ Finset.Ico s.rangeStart s.rangeEnd := by
    intro p hp
    obtain ⟨b, hb, rfl⟩ := by simpa using hp
    exact Finset.mem_Ico.mpr (inRange b hb)
  have hcard := Finset.card_le_card hsub
  rw [toFinset_card_of_nodup hmap, length_map, Nat.card_Ico] at hcard
  unfold walkBound
  omega

variable {L : Nat → List Nat} {k : Nat}

theorem Threaded.length_lt (h : Threaded s L) (hk : k < maxOrder) : (L k).length < s.walkBound :=
  length_lt_walkBound (h.nodup k hk) (h.aligned k hk) (h.inRange k hk)

theorem freeListStruct_of {links : Nat → Link Nat} (page : b % pageSize = 0) :
    freeListStruct links b = some (links b) := by
  rw [freeListStruct, debugAssert_of page]
  rfl

theorem containsFrom_chain {block before n : Nat} (h : Chain s.links paddrMax before head xs)
    (aligned : ∀ b ∈ xs, b % pageSize = 0) (inRange : ∀ b ∈ xs, s.InRange (b / pageSize))
    (hn : xs.length < n) : s.containsFrom block n head = some (decide (block ∈ xs)) := by
  induction xs generalizing before head n with
  | nil =>
    have hh : head = paddrMax := h
    cases n with
    | zero => cases hn
    | succ n => simp [containsFrom, hh]
  | cons x xs ih =>
    obtain ⟨rfl, hx, _, rest⟩ := h
    cases n with
    | zero => cases hn
    | succ n =>
      have hr := inRange head mem_cons_self
      have hi := ih rest (fun b hb => aligned b (mem_cons_of_mem head hb))
        (fun b hb => inRange b (mem_cons_of_mem head hb)) (by simpa using hn)
      simp only [containsFrom, hx, if_false, debugAssert_of hr,
        freeListStruct_of (aligned head mem_cons_self), bind_eq_bind, bind_some, hi]
      by_cases he : head = block
      · simp [he]
      · simp [he, Ne.symm he]

/-- `free_list_contains` decides membership. -/
theorem freeListContains_eq {block : Nat} (h : Chain s.links paddrMax paddrMax head xs)
    (hu : xs.Nodup)
    (aligned : ∀ b ∈ xs, b % pageSize = 0) (inRange : ∀ b ∈ xs, s.InRange (b / pageSize))
    (hb : block % pageSize = 0) (hr : s.InRange (block / pageSize)) :
    s.freeListContains block head = some (decide (block ∈ xs)) := by
  simp only [freeListContains, debugAssert_of hb, debugAssert_of hr, bind_eq_bind, bind_some]
  exact containsFrom_chain h aligned inRange (length_lt_walkBound hu aligned inRange)

section

variable (h : Threaded s L)
include h

theorem Threaded.ne_max (hk : k < maxOrder) (hb : b ∈ L k) : b ≠ paddrMax :=
  (h.chain k hk).ne_nil hb

theorem Threaded.freeBlocks_eq (hk : k < maxOrder) : s.freeBlocks k = L k :=
  follow_chain (h.chain k hk) (h.length_lt hk).le

theorem Threaded.head_eq_max (hk : k < maxOrder) : s.freeList k = paddrMax ↔ L k = [] :=
  (h.chain k hk).head_eq_nil

/-- One list changes to `xs`, with links `links` that the other lists do not see. -/
theorem Threaded.change {links : Nat → Link Nat} (chain : Chain links paddrMax paddrMax head xs)
    (others : ∀ j < maxOrder, j ≠ k → ∀ b ∈ L j, links b = s.links b)
    (aligned : ∀ b ∈ xs, b % pageSize = 0) (inRange : ∀ b ∈ xs, s.InRange (b / pageSize))
    (nodup : xs.Nodup) (apart : ∀ j < maxOrder, j ≠ k → ∀ b ∈ L j, b ∉ xs) :
    Threaded { s with links := links, freeList := update s.freeList k head } (update L k xs) := by
  constructor
  · intro j hj
    by_cases hjk : j = k
    · subst hjk
      simpa using chain
    · simpa [hjk] using (h.chain j hj).frame (others j hj hjk)
  · intro j hj
    by_cases hjk : j = k
    · subst hjk
      simpa using aligned
    · simpa [hjk] using h.aligned j hj
  · intro j hj
    by_cases hjk : j = k
    · subst hjk
      simpa using inRange
    · simpa [hjk] using h.inRange j hj
  · intro j hj
    by_cases hjk : j = k
    · subst hjk
      simpa using nodup
    · simpa [hjk] using h.nodup j hj
  · intro i hi j hj hij b hb
    by_cases hik : i = k
    · subst hik
      simp only [update_self, update_of_ne (Ne.symm hij)] at hb ⊢
      exact fun hj' => apart j hj (Ne.symm hij) b hj' hb
    · by_cases hjk : j = k
      · subst hjk
        simp only [update_self, update_of_ne hik] at hb ⊢
        exact apart i hi hik b hb
      · simp only [update_of_ne hik, update_of_ne hjk] at hb ⊢
        exact h.apart i hi j hj hij b hb

theorem freeListUnlink_eq (hk : k < maxOrder) (hb : b ∈ L k) :
    freeListUnlink b k s = some { s with
        links := (unlink s.links paddrMax (s.freeList k) b).1,
        freeList := update s.freeList k (unlink s.links paddrMax (s.freeList k) b).2 } := by
  have chain := h.chain k hk
  have hu := h.nodup k hk
  have nil : paddrMax ∉ L k := fun hm => chain.ne_nil hm rfl
  have pa := h.aligned k hk b hb
  have pr := h.inRange k hk b hb
  have before := freeListContains_eq chain hu (h.aligned k hk) (h.inRange k hk) pa pr
  have chain' := unlink_chain chain hu hb
  have sub : ∀ c ∈ (L k).erase b, c ∈ L k := fun c hc => mem_of_mem_erase hc
  have gone : b ∉ (L k).erase b := hu.not_mem_erase
  have after : ({ s with
      links := (unlink s.links paddrMax (s.freeList k) b).1,
      freeList := update s.freeList k (unlink s.links paddrMax (s.freeList k) b).2 } :
      Pmm).freeListContains b (unlink s.links paddrMax (s.freeList k) b).2 = some false := by
    refine Eq.trans (freeListContains_eq chain' (hu.erase b) ?_ ?_ pa pr) (by simp [gone])
    · exact fun c hc => h.aligned k hk c (sub c hc)
    · exact fun c hc => h.inRange k hk c (sub c hc)
  have hnext := chain.next_ne hu hb
  have hprev := chain.prev_ne nil hu hb
  have hapart := chain.prev_ne_next nil hu hb
  have nextNext : (s.links b).next ≠ paddrMax →
      (s.links (s.links b).next).next ≠ (s.links b).next := fun hn =>
    chain.next_ne hu ((chain.next_mem hb).resolve_left hn)
  have prevPrev : (s.links b).prev ≠ paddrMax →
      (s.links (s.links b).prev).prev ≠ (s.links b).prev := fun hp =>
    chain.prev_ne nil hu ((chain.prev_mem hb).resolve_left hp)
  simp only [hb, decide_true] at before
  have hbn := chain.ne_nil hb
  have nextPage {links : Nat → Link Nat} (hn : (s.links b).next ≠ paddrMax) :
      freeListStruct links (s.links b).next = some (links (s.links b).next) :=
    freeListStruct_of (h.aligned k hk _ ((chain.next_mem hb).resolve_left hn))
  have prevPage {links : Nat → Link Nat} (hp : (s.links b).prev ≠ paddrMax) :
      freeListStruct links (s.links b).prev = some (links (s.links b).prev) :=
    freeListStruct_of (h.aligned k hk _ ((chain.prev_mem hb).resolve_left hp))
  unfold freeListUnlink
  -- The four cases are the two branches of the source, each with its own assertions.
  by_cases hn : (s.links b).next = paddrMax <;> by_cases hp : (s.links b).prev = paddrMax
  · have hl : unlink s.links paddrMax (s.freeList k) b = (s.links, paddrMax) := by
      simp [unlink, hn, hp]
    simp only [hl] at after ⊢
    simp only [debugAssert_of hk, before, freeListStruct_of pa, hn, hp, Ne.symm hbn, ne_eq,
      not_true_eq_false,
      not_false_eq_true, debugAssert_true, bind_eq_bind, bind_some, if_false, pure]
    rw [debugAssert_of after, bind_some]
  · have hl : unlink s.links paddrMax (s.freeList k) b = (update s.links (s.links b).prev
          { s.links (s.links b).prev with next := paddrMax }, s.freeList k) := by
      simp [unlink, hn, hp]
    simp only [hl] at after ⊢
    simp only [debugAssert_of hk, before, freeListStruct_of pa, prevPage hp, hn, hp, hprev,
      Ne.symm hbn, Ne.symm hp, prevPrev hp,
      ne_eq, not_true_eq_false, not_false_eq_true, debugAssert_true, bind_eq_bind,
      bind_some, if_false, if_true, pure]
    rw [debugAssert_of after, bind_some]
  · have hl : unlink s.links paddrMax (s.freeList k) b = (update s.links (s.links b).next
          { s.links (s.links b).next with prev := paddrMax }, (s.links b).next) := by
      simp [unlink, hn, hp]
    simp only [hl] at after ⊢
    simp only [debugAssert_of hk, before, freeListStruct_of pa, nextPage hn, hn, hp, hnext,
      Ne.symm hbn, Ne.symm hn, nextNext hn,
      ne_eq, not_true_eq_false, not_false_eq_true, debugAssert_true, bind_eq_bind,
      bind_some, if_false, if_true, pure]
    rw [debugAssert_of after, bind_some]
  · have hd := hapart hn
    have hl : unlink s.links paddrMax (s.freeList k) b = (update (update s.links (s.links b).next
            { s.links (s.links b).next with prev := (s.links b).prev }) (s.links b).prev
          { s.links (s.links b).prev with next := (s.links b).next }, s.freeList k) := by
      simp [unlink, hn, hp, update_of_ne hd]
    simp only [hl] at after ⊢
    simp only [debugAssert_of hk, before, freeListStruct_of pa, nextPage hn, prevPage hp, hn, hp,
      hnext, hprev, hd, Ne.symm hd, nextNext hn,
      prevPrev hp, update_of_ne hd, ne_eq, not_false_eq_true, debugAssert_true,
      bind_eq_bind, bind_some, if_true, pure]
    rw [debugAssert_of after, bind_some]

/-- **Unlinking a member** runs without a failed assertion and erases it. -/
theorem freeListUnlink_spec (hk : k < maxOrder) (hb : b ∈ L k) : ∃ links freeList,
      freeListUnlink b k s = some { s with links := links, freeList := freeList } ∧
      Threaded { s with links := links, freeList := freeList } (update L k ((L k).erase b)) := by
  have hu := h.nodup k hk
  have sub : ∀ c ∈ (L k).erase b, c ∈ L k := fun c hc => mem_of_mem_erase hc
  refine ⟨_, _, freeListUnlink_eq h hk hb, h.change (unlink_chain (h.chain k hk) hu hb) ?_ ?_ ?_
    (hu.erase b) ?_⟩
  · intro j hj hjk c hc
    exact unlink_outside (h.chain k hk) hb (h.apart j hj k hk hjk c hc)
  · exact fun c hc => h.aligned k hk c (sub c hc)
  · exact fun c hc => h.inRange k hk c (sub c hc)
  · exact fun j hj hjk c hc hm => h.apart j hj k hk hjk c hc (sub c hm)

end

theorem mem_follow_of_containsFrom {n : Nat} : ∀ {cur : Nat},
    containsFrom s b n cur = some true → b ∈ follow s.links paddrMax n cur := by
  induction n with
  | zero => intro cur h; cases h
  | succ n ih =>
    intro cur h
    simp only [containsFrom] at h
    simp only [follow]
    by_cases hc : cur = paddrMax
    · rw [if_pos hc] at h
      cases h
    · rw [if_neg hc] at h ⊢
      simp only [bind_eq_bind, bind_eq_some_iff] at h
      obtain ⟨_, _, h⟩ := h
      by_cases hb : cur = b
      · rw [hb]
        exact mem_cons_self
      · rw [if_neg hb, freeListStruct] at h
        simp only [bind_eq_bind, bind_eq_some_iff] at h
        obtain ⟨_, ⟨_, _, ⟨⟩⟩, h⟩ := h
        exact mem_cons_of_mem _ (ih h)

/-- An unlink that runs removes a member, whatever the state: the assertion at
its start is the membership test. -/
theorem mem_of_freeListUnlink {t : Pmm} (run : freeListUnlink b k s = some t) :
    b ∈ s.freeBlocks k := by
  unfold freeListUnlink at run
  simp only [bind_eq_bind, bind_eq_some_iff, debugAssert_eq_some] at run
  obtain ⟨_, _, _, contains, _⟩ := run
  unfold freeListContains at contains
  simp only [bind_eq_bind, bind_eq_some_iff, debugAssert_eq_some] at contains
  obtain ⟨_, _, _, _, contains⟩ := contains
  exact mem_follow_of_containsFrom contains

theorem freeListLink_eq (h : Threaded s L) (hk : k < maxOrder) (hb : b ∉ L k)
    (pa : b % pageSize = 0) (pr : s.InRange (b / pageSize)) :
    freeListLink b k s = some { s with
        links := link s.links paddrMax (s.freeList k) b,
        freeList := update s.freeList k b } := by
  have chain := h.chain k hk
  have hu := h.nodup k hk
  have hbn : b ≠ paddrMax := by
    rintro rfl
    simp [pageSize] at pa
  have before := freeListContains_eq chain hu (h.aligned k hk) (h.inRange k hk) pa pr
  have chain' := link_chain chain hu hbn hb
  have after : ({ s with
      links := link s.links paddrMax (s.freeList k) b,
      freeList := update s.freeList k b } : Pmm).freeListContains b b = some true := by
    refine Eq.trans (freeListContains_eq chain' (nodup_cons.mpr ⟨hb, hu⟩) ?_ ?_ pa pr) (by simp)
    · exact forall_mem_cons.mpr ⟨pa, h.aligned k hk⟩
    · exact forall_mem_cons.mpr ⟨pr, h.inRange k hk⟩
  simp only [hb, decide_false] at before
  unfold freeListLink
  by_cases hn : s.freeList k = paddrMax
  · have hl : link s.links paddrMax (s.freeList k) b = update s.links b
        ⟨paddrMax, paddrMax⟩ := by
      simp [link, hn]
    rw [hn] at before
    simp only [hl] at after ⊢
    simp only [debugAssert_of hk, before, freeListStruct_of pa, hn, Ne.symm hbn, update_self, ne_eq,
      not_true_eq_false, not_false_eq_true, debugAssert_true, bind_eq_bind,
      bind_some, if_false, pure]
    rw [debugAssert_of after, bind_some]
  · obtain ⟨ys, hys⟩ := chain.head_mem hn
    have hne : b ≠ s.freeList k := fun he => hb (by rw [hys, ← he]; exact mem_cons_self)
    have hnext := chain.next_ne hu (by rw [hys]; exact mem_cons_self)
    have first := h.aligned k hk (s.freeList k) (by rw [hys]; exact mem_cons_self)
    have hl : link s.links paddrMax (s.freeList k) b =
        update (update s.links b ⟨paddrMax, s.freeList k⟩) (s.freeList k)
          { s.links (s.freeList k) with prev := b } := by
      simp [link, hn, update_of_ne (Ne.symm hne)]
    simp only [hl] at after ⊢
    simp only [debugAssert_of hk, before, freeListStruct_of pa, freeListStruct_of first, hn, hne,
      Ne.symm hne, Ne.symm hbn, hnext,
      update_self, update_of_ne hne, update_of_ne (Ne.symm hne), ne_eq,
      not_false_eq_true, debugAssert_true, bind_eq_bind, bind_some, if_true, pure]
    rw [debugAssert_of after, bind_some]

/-- **Linking a block** that is on no list puts it in front. -/
theorem freeListLink_spec (h : Threaded s L) (hk : k < maxOrder) (hb : ∀ j < maxOrder, b ∉ L j)
    (pa : b % pageSize = 0) (pr : s.InRange (b / pageSize)) :
    ∃ links freeList, freeListLink b k s = some { s with links := links, freeList := freeList
      } ∧ Threaded { s with links := links, freeList := freeList } (update L k (b :: L k)) := by
  have hu := h.nodup k hk
  have hbn : b ≠ paddrMax := by
    rintro rfl
    simp [pageSize] at pa
  refine ⟨_, _, freeListLink_eq h hk (hb k hk) pa pr,
    h.change (link_chain (h.chain k hk) hu hbn (hb k hk)) ?_ ?_ ?_
      (nodup_cons.mpr ⟨hb k hk, hu⟩) ?_⟩
  · intro j hj hjk c hc
    refine link_outside (h.chain k hk) ?_ (h.apart j hj k hk hjk c hc)
    rintro rfl
    exact hb j hj hc
  · exact forall_mem_cons.mpr ⟨pa, h.aligned k hk⟩
  · exact forall_mem_cons.mpr ⟨pr, h.inRange k hk⟩
  · intro j hj hjk c hc hm
    rcases mem_cons.mp hm with rfl | hm
    · exact hb j hj hc
    · exact h.apart j hj k hk hjk c hc hm

end BadgerOS.Pmm
